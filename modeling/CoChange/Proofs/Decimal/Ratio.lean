import Mathlib.Algebra.Order.Field.Power
import Mathlib.Data.Rat.Floor
import Mathlib.Tactic.FieldSimp
import Mathlib.Tactic.Linarith
import Mathlib.Tactic.Positivity
import Mathlib.Tactic.Ring
import CoChange.Arithmetic
import CoChange.Decimal.Rounding

/-!
# Ratios and their rounding

The arithmetic of floating point numbers is carried out on numerators and denominators. Here it is
read as arithmetic of rational numbers:

* **`ratio_scaleRatio`**: scaling by a power multiplies the ratio by the power.
* **`roundDiv_eq`**: an integer is what a ratio is rounded to if the ratio is at most half a unit
  away from it, or less than that where the integer is odd.
-/

namespace CoChange.Decimal

/-- What a numerator and a denominator stand for. -/
def ratio (p : Nat × Nat) : ℚ := p.1 / p.2

theorem scaleRatio_pos {b den : Nat} (hbase : 0 < b) (hden : 0 < den) (k : Int) (num : Nat) :
    0 < (scaleRatio b k num den).2 := by
  cases k with
  | ofNat n => exact hden
  | negSucc n => exact Nat.mul_pos hden (Nat.pow_pos hbase)

/-- **Scaling a ratio multiplies it by a power.** A negative power goes to the other side of the
ratio, so no division is needed. -/
theorem ratio_scaleRatio (base : Nat) (k : Int) (num den : Nat) :
    ratio (scaleRatio base k num den) = num / den * (base : ℚ) ^ k := by
  cases k with
  | ofNat n =>
    simp only [scaleRatio, ratio, Nat.cast_mul, Nat.cast_pow, Int.ofNat_eq_natCast, zpow_natCast]
    ring
  | negSucc n =>
    simp only [scaleRatio, ratio, Nat.cast_mul, Nat.cast_pow, zpow_negSucc]
    rw [div_mul_eq_div_div, div_eq_mul_inv]

section Rounding

variable {num den m : Nat}

theorem le_ratio_iff (hden : 0 < den) {q : ℚ} : q ≤ (num : ℚ) / den ↔ q * den ≤ num :=
  le_div_iff₀ (Nat.cast_pos.mpr hden)

theorem ratio_le_iff (hden : 0 < den) {q : ℚ} : (num : ℚ) / den ≤ q ↔ num ≤ q * den :=
  div_le_iff₀ (Nat.cast_pos.mpr hden)

/-- An integer is off by at most half a unit. -/
structure Rounds (m : Nat) (q : ℚ) : Prop where
  low : (m : ℚ) - 1 / 2 ≤ q
  high : q ≤ m + 1 / 2
  /-- A half goes to the even neighbour. -/
  odd : m % 2 = 1 → (m : ℚ) - 1 / 2 < q ∧ q < m + 1 / 2

/-- The bounds of a rounded ratio, with the denominators cleared. -/
theorem Rounds.cleared (hden : 0 < den) (h : Rounds m (num / den)) :
    2 * (m * den) ≤ 2 * num + den ∧ 2 * num ≤ 2 * (m * den) + den ∧
      (m % 2 = 1 → 2 * (m * den) < 2 * num + den ∧ 2 * num < 2 * (m * den) + den) := by
  have hlow : (2 * (m * den) : ℚ) ≤ 2 * num + den := by
    have := (le_ratio_iff hden).mp h.low
    linarith
  have hhigh : (2 * num : ℚ) ≤ 2 * (m * den) + den := by
    have := (ratio_le_iff hden).mp h.high
    linarith
  refine ⟨by exact_mod_cast hlow, by exact_mod_cast hhigh, fun hodd => ?_⟩
  obtain ⟨hl, hh⟩ := h.odd hodd
  have hl := (lt_div_iff₀ (Nat.cast_pos.mpr hden)).mp hl
  have hh := (div_lt_iff₀ (Nat.cast_pos.mpr hden)).mp hh
  have hl : (2 * (m * den) : ℚ) < 2 * num + den := by linarith
  have hh : (2 * num : ℚ) < 2 * (m * den) + den := by linarith
  exact ⟨by exact_mod_cast hl, by exact_mod_cast hh⟩

/-- **What a ratio is rounded to.** Both the nearest whole number and the even one of two are told
by the ratio. -/
theorem roundDiv_eq (hden : 0 < den) (h : Rounds m (num / den)) : roundDiv num den = m := by
  obtain ⟨hlow, hhigh, hodd⟩ := h.cleared hden
  -- the ratio lies above its integral part, so `m` is that part or the next integer
  have hdiv := Nat.div_add_mod num den
  have hmod := Nat.mod_lt num hden
  have hle : m < num / den + 2 := by
    by_contra hge
    have := Nat.mul_le_mul_right den (Nat.le_of_not_lt hge)
    rw [Nat.add_mul, Nat.mul_comm] at this
    omega
  have hge : num / den ≤ m := by
    by_contra hlt
    have := Nat.mul_le_mul_right den (Nat.lt_of_not_le hlt)
    rw [Nat.succ_mul, Nat.mul_comm (num / den)] at this
    omega
  simp only [roundDiv]
  rcases Nat.lt_or_ge (num / den) m with hlt | hle'
  · have hm : m = num / den + 1 := by omega
    have hsucc : m * den = den * (num / den) + den := by rw [hm, Nat.succ_mul, Nat.mul_comm]
    rw [hsucc] at hlow hhigh hodd
    rw [if_neg (by omega)]
    split <;> omega
  · have hm : m = num / den := by omega
    have hmul : m * den = den * (num / den) := by rw [hm, Nat.mul_comm]
    rw [hmul] at hlow hhigh hodd
    split
    · exact hm.symm
    · rw [if_neg (by omega)]
      omega

/-- A ratio is rounded by at most half a unit. -/
theorem rounds_roundDiv (num : Nat) (hden : 0 < den) :
    (roundDiv num den : ℚ) - 1 / 2 ≤ num / den ∧ (num : ℚ) / den ≤ roundDiv num den + 1 / 2 := by
  obtain ⟨hhigh, hlow⟩ := two_mul_roundDiv_le num den hden
  have hhigh : (2 * num : ℚ) ≤ 2 * (den * roundDiv num den) + den := by exact_mod_cast hhigh
  have hlow : (2 * (den * roundDiv num den) : ℚ) ≤ 2 * num + den := by exact_mod_cast hlow
  constructor
  · rw [le_ratio_iff hden]
    linarith
  · rw [ratio_le_iff hden]
    linarith

end Rounding

/-- A quotient is rounded to the same integer when both parts are multiplied by a number. -/
theorem roundDiv_mul_left {k : Nat} (hk : 0 < k) (num den : Nat) :
    roundDiv (k * num) (k * den) = roundDiv num den := by
  have hcompare (a b : Nat) : k * a < k * b ↔ a < b := Nat.mul_lt_mul_left hk
  simp only [roundDiv, Nat.mul_div_mul_left _ _ hk, Nat.mul_mod_mul_left, ← Nat.mul_left_comm k 2,
    hcompare]

/-- A quotient is rounded to the same integer however it is written. -/
theorem roundDiv_congr {p p' : Nat × Nat} (hp : 0 < p.2) (hp' : 0 < p'.2) (h : ratio p = ratio p') :
    roundDiv p.1 p.2 = roundDiv p'.1 p'.2 := by
  rw [ratio, ratio,
    div_eq_div_iff (Nat.cast_ne_zero.mpr hp.ne') (Nat.cast_ne_zero.mpr hp'.ne')] at h
  have hcross : p.1 * p'.2 = p'.1 * p.2 := by exact_mod_cast h
  calc roundDiv p.1 p.2
      = roundDiv (p'.2 * p.1) (p'.2 * p.2) := (roundDiv_mul_left hp' _ _).symm
    _ = roundDiv (p.2 * p'.1) (p.2 * p'.2) := by
        rw [Nat.mul_comm p'.2 p.1, hcross, Nat.mul_comm p'.1, Nat.mul_comm p'.2]
    _ = roundDiv p'.1 p'.2 := roundDiv_mul_left hp _ _

end CoChange.Decimal
