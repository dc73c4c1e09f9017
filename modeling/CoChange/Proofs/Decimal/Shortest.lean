import Mathlib.Algebra.Order.Field.Power
import Mathlib.Tactic.NormNum
import Mathlib.Tactic.Positivity
import CoChange.Arithmetic
import CoChange.Decimal.Shortest
import CoChange.Proofs.Binary64.Rounding

/-!
# The shortest decimal stands for its number

* **`containsPoint_iff`**: the grid points of the interval of a number are those that are rounded to
  it.
* **`leadingPlace_le`**: the leading digit of a number is found.
* **`exists_neighbour`**: so the grid of seventeen digits has a point in the interval.
* **`shortest_spec`**: what is found on the coarsest grid is rounded to the number.
-/

namespace CoChange.Decimal

open Binary64 (Normal RoundsTo quartersBelow quartersBelow_le two_zpow_pos ten_zpow_pos ten_zpow_le)

/-! ## Trailing zeros -/

/-- The number that a decimal stands for. -/
def Scaled.value (s : Scaled) : ℚ := s.digits * 10 ^ s.exponent

/-- Without its trailing zeros a decimal stands for the same number. -/
theorem Scaled.strip_spec (fuel : Nat) (s : Scaled) :
    (s.strip fuel).value = s.value ∧ (s.digits ≠ 0 → (s.strip fuel).digits ≠ 0) := by
  induction fuel generalizing s with
  | zero => exact ⟨rfl, id⟩
  | succ fuel ih =>
    rw [Scaled.strip]
    split
    · -- a zero at the end goes into the exponent
      rename_i hzero
      obtain ⟨hvalue, hne⟩ := ih ⟨s.digits / 10, s.exponent + 1⟩
      refine ⟨hvalue.trans ?_, fun _ => hne (by simp only; omega)⟩
      have hdigits : s.digits = 10 * (s.digits / 10) := by omega
      have hcast : (s.digits : ℚ) = 10 * (s.digits / 10 : Nat) := by exact_mod_cast hdigits
      rw [Scaled.value, Scaled.value, hcast, zpow_add_one₀ (by norm_num)]
      ring
    · exact ⟨rfl, id⟩

/-! ## The interval of a number -/

section Interval

variable {m : Nat} {e : Int}

/-- The interval of a number: its ends and the number itself. -/
theorem ofBinary_spec (hm : 0 < m) (e : Int) :
    0 < (RoundingInterval.ofBinary m e).den ∧
    (RoundingInterval.ofBinary m e).low / (RoundingInterval.ofBinary m e).den =
      (m - quartersBelow m e / 4 : ℚ) * 2 ^ e ∧
    (RoundingInterval.ofBinary m e).value / (RoundingInterval.ofBinary m e).den = (m : ℚ) * 2 ^ e ∧
    (RoundingInterval.ofBinary m e).high / (RoundingInterval.ofBinary m e).den =
      (m + 1 / 2 : ℚ) * 2 ^ e := by
  have hpos := scaleRatio_pos two_pos Nat.one_pos (e - 2) 1
  -- the interval is told in quarters of the last place
  have hquarter : ((scaleRatio 2 (e - 2) 1 1).1 : ℚ) / (RoundingInterval.ofBinary m e).den =
      2 ^ e / 4 := by
    refine (ratio_scaleRatio 2 (e - 2) 1 1).trans ?_
    rw [zpow_sub₀ (by norm_num)]
    norm_num
  have hbelow : quartersBelow m e ≤ 4 * m := by
    have : quartersBelow m e ≤ 2 := by exact_mod_cast quartersBelow_le m e
    omega
  refine ⟨hpos, ?_, ?_, ?_⟩
  · show (((4 * m - quartersBelow m e) * (scaleRatio 2 (e - 2) 1 1).1 : Nat) : ℚ) / _ = _
    rw [Nat.cast_mul, Nat.cast_sub hbelow, mul_div_assoc, hquarter]
    push_cast
    ring
  · show ((4 * m * (scaleRatio 2 (e - 2) 1 1).1 : Nat) : ℚ) / _ = _
    rw [Nat.cast_mul, mul_div_assoc, hquarter]
    push_cast
    ring
  · show (((4 * m + 2) * (scaleRatio 2 (e - 2) 1 1).1 : Nat) : ℚ) / _ = _
    rw [Nat.cast_mul, mul_div_assoc, hquarter]
    push_cast
    ring

/-- A grid point lies between two ends if its ratio does. -/
theorem scaled_le_iff {a den d : Nat} {k : Int} (hden : 0 < den) :
    (a * (scaleRatio 10 k (d * den) 1).2 ≤ (scaleRatio 10 k (d * den) 1).1 ↔
      (a : ℚ) / den ≤ d * 10 ^ k) ∧
    ((scaleRatio 10 k (d * den) 1).1 ≤ a * (scaleRatio 10 k (d * den) 1).2 ↔
      d * 10 ^ k ≤ (a : ℚ) / den) := by
  have hpos : (0 : ℚ) < (scaleRatio 10 k (d * den) 1).2 :=
    Nat.cast_pos.mpr (scaleRatio_pos (by decide) Nat.one_pos k _)
  have hden' : (0 : ℚ) < den := Nat.cast_pos.mpr hden
  have hscaled := ratio_scaleRatio 10 k (d * den) 1
  rw [ratio, Nat.cast_one, div_one, Nat.cast_mul, Nat.cast_ofNat, div_eq_iff hpos.ne'] at hscaled
  have hpoint : ((scaleRatio 10 k (d * den) 1).1 : ℚ) =
      d * 10 ^ k * den * (scaleRatio 10 k (d * den) 1).2 := by
    rw [hscaled]
    ring
  constructor
  · rw [← Nat.cast_le (α := ℚ), Nat.cast_mul, hpoint, mul_le_mul_iff_left₀ hpos, div_le_iff₀ hden']
  · rw [← Nat.cast_le (α := ℚ), Nat.cast_mul, hpoint, mul_le_mul_iff_left₀ hpos, le_div_iff₀ hden']

/-- **The grid points in the interval of a number are rounded to it.** The ends of the interval
belong to it where the significand is even, as half-way cases are rounded to the even one. -/
theorem containsPoint_iff (hm : 0 < m) (d : Nat) (k : Int) :
    (RoundingInterval.ofBinary m e).containsPoint d k = true ↔ RoundsTo m e (d * 10 ^ k) := by
  obtain ⟨hden, hlow, -, hhigh⟩ := ofBinary_spec hm e
  have hle := (scaled_le_iff (a := (RoundingInterval.ofBinary m e).low) (d := d) (k := k) hden)
  have hge := (scaled_le_iff (a := (RoundingInterval.ofBinary m e).high) (d := d) (k := k) hden)
  rw [hlow] at hle
  rw [hhigh] at hge
  have hclosed : (RoundingInterval.ofBinary m e).closed = decide (m % 2 = 0) := rfl
  simp only [RoundingInterval.containsPoint, hclosed, decide_eq_true_iff, ← Nat.not_le]
  split
  · -- an even significand has the ends of the interval, too
    rename_i heven
    rw [decide_eq_true_iff, hle.1, hge.2]
    exact ⟨fun h => ⟨h.1, h.2, fun hodd => by omega⟩, fun h => ⟨h.low, h.high⟩⟩
  · rename_i hodd
    rw [decide_eq_true_iff, hle.2, hge.1, not_le, not_le]
    exact ⟨fun h => ⟨h.1.le, h.2.le, fun _ => h⟩, fun h => h.odd (by omega)⟩

end Interval

/-! ## Grids -/

/-- A number has as many digits as it needs: the power of ten with one digit less is no larger. -/
theorem pow_digitCount_le {n : Nat} (hn : 0 < n) : 10 ^ (digitCount n - 1) ≤ n := by
  have hpos : 0 < digitCount n := Nat.length_toDigits_pos
  rcases Nat.eq_zero_or_pos (digitCount n - 1) with hone | hmore
  · rw [hone]
    exact hn
  · rw [← Nat.not_lt, ← Nat.length_toDigits_le_iff (by decide) hmore]
    show ¬ digitCount n ≤ _
    omega

theorem lt_pow_digitCount (n : Nat) : n < 10 ^ digitCount n :=
  (Nat.length_toDigits_le_iff (by decide) Nat.length_toDigits_pos).mp (Nat.le_refl _)

/-- **The leading place of a ratio is not above its leading digit.** Below one, the place that the
digits of the inverse quotient suggest can be one too low, and one comparison puts it right. -/
theorem leadingPlace_le {num den : Nat} (hnum : 0 < num) (hden : 0 < den) :
    (10 : ℚ) ^ leadingPlace num den ≤ num / den := by
  have hd : (0 : ℚ) < den := Nat.cast_pos.mpr hden
  have hn : (0 : ℚ) < num := Nat.cast_pos.mpr hnum
  unfold leadingPlace
  split
  · -- at least one: the integral part has the leading digit
    rename_i hle
    have hquot : 0 < num / den := Nat.div_pos hle hden
    have hcount : 0 < digitCount (num / den) := Nat.length_toDigits_pos
    have hexp : (digitCount (num / den) : Int) - 1 =
        ((digitCount (num / den) - 1 : Nat) : Int) := by
      omega
    rw [hexp, zpow_natCast, le_div_iff₀ hd]
    exact_mod_cast (Nat.le_div_iff_mul_le hden).mp (pow_digitCount_le hquot)
  · -- below one: the guess from the inverse is right or one too low
    have hguess : (10 : ℚ) ^ (-(digitCount (den / num) : Int)) ≤ num / den := by
      have hlt := (Nat.div_lt_iff_lt_mul hnum).mp (lt_pow_digitCount (den / num))
      rw [zpow_neg, zpow_natCast, inv_eq_one_div, div_le_div_iff₀ (by positivity) hd, one_mul,
        mul_comm]
      exact_mod_cast hlt.le
    simp only
    split
    · rename_i hle
      have hpos := scaleRatio_pos (b :=
        10) (by decide) hden (-(-(digitCount (den / num) : Int)) - 1) num
      have hscaled := ratio_scaleRatio 10 (-(-(digitCount (den / num) : Int)) - 1) num den
      have hone : (1 : ℚ) ≤
          ratio (scaleRatio 10 (-(-(digitCount (den / num) : Int)) - 1) num den) := by
        rw [ratio, le_div_iff₀ (Nat.cast_pos.mpr hpos), one_mul]
        exact_mod_cast hle
      rw [hscaled, Nat.cast_ofNat] at hone
      refine le_of_mul_le_mul_right ?_ (ten_zpow_pos (-(-(digitCount (den / num) : Int)) - 1))
      rw [← zpow_add₀ (by norm_num)]
      simpa using hone
    · exact hguess

section Neighbour

variable {r : RoundingInterval} {k : Int} {d : Nat}

/-- A neighbour is no zero and lies in the interval. -/
theorem neighbour?_eq_some (h : r.neighbour? k = some d) : d ≠ 0 ∧ r.containsPoint d k = true := by
  simp only [RoundingInterval.neighbour?] at h
  split at h
  · rename_i hnear
    exact Option.some.inj h ▸ hnear
  · obtain ⟨hfar, hd⟩ := Option.ite_none_right_eq_some.mp h
    exact Option.some.inj hd ▸ hfar

/-- There is a neighbour if the nearest grid point is one. -/
theorem neighbour?_isSome (hne : roundDiv (scaleRatio 10 (-k) r.value r.den).1
      (scaleRatio 10 (-k) r.value r.den).2 ≠ 0)
    (hin : r.containsPoint (roundDiv (scaleRatio 10 (-k) r.value r.den).1
      (scaleRatio 10 (-k) r.value r.den).2) k = true) : (r.neighbour? k).isSome = true := by
  simp only [RoundingInterval.neighbour?]
  rw [if_pos ⟨hne, hin⟩]
  rfl

end Neighbour

section Shortest

variable {m : Nat} {e : Int}

/-- Seventeen digits are finer than the numbers: a step of their grid is less than the last place,
and less than half of it at a power of two. -/
theorem grid_step (hnormal : Normal m e) {k : Int} (hk : (10 : ℚ) ^ (k + 16) ≤ m * 2 ^ e) :
    (10 : ℚ) ^ k / 2 < quartersBelow m e / 4 * 2 ^ e ∧ (10 : ℚ) ^ k / 2 < 1 / 2 * 2 ^ e := by
  have hunit := two_zpow_pos e
  rw [zpow_add₀ (by norm_num)] at hk
  have hm : (m : ℚ) ≤ 2 ^ 53 := by exact_mod_cast hnormal.small.le
  have hle := le_trans hk (mul_le_mul_of_nonneg_right hm hunit.le)
  unfold quartersBelow
  split
  · -- below a power of two the interval is half as wide, but the significand is known
    rename_i hpower
    rw [hpower.1] at hk
    push_cast at hk
    norm_num at hk ⊢
    constructor <;> linarith
  · norm_num at hle ⊢
    linarith

/-- **The grid of seventeen digits has a point in the interval of a number.** The distance of two
points of this grid is less than the length of the interval. -/
theorem exists_neighbour (hnormal : Normal m e) (hm : 0 < m) {k : Int}
    (hk : (10 : ℚ) ^ (k + 16) ≤ m * 2 ^ e) :
    ((RoundingInterval.ofBinary m e).neighbour? k).isSome = true := by
  obtain ⟨hden, -, hvalue, -⟩ := ofBinary_spec hm e
  obtain ⟨hbelow, habove⟩ := grid_step hnormal hk
  have hstep := ten_zpow_pos k
  set r := RoundingInterval.ofBinary m e with hr
  have hpos := scaleRatio_pos (b := 10) (by decide) hden (-k) r.value
  have hscaled := ratio_scaleRatio 10 (-k) r.value r.den
  rw [hvalue, Nat.cast_ofNat, ratio] at hscaled
  obtain ⟨hnear, hnear'⟩ := rounds_roundDiv (scaleRatio 10 (-k) r.value r.den).1 hpos
  rw [hscaled] at hnear hnear'
  generalize hd : roundDiv (scaleRatio 10 (-k) r.value r.den).1
    (scaleRatio 10 (-k) r.value r.den).2 = d
    at hnear hnear'
  -- the number in units of the grid
  have hunit : (m : ℚ) * 2 ^ e * 10 ^ (-k) * 10 ^ k = m * 2 ^ e := by
    rw [mul_assoc, ← zpow_add₀ (by norm_num), neg_add_cancel, zpow_zero, mul_one]
  have hlow : (m : ℚ) * 2 ^ e - 10 ^ k / 2 ≤ d * 10 ^ k := by
    have := mul_le_mul_of_nonneg_right hnear' hstep.le
    rw [hunit] at this
    linarith
  have hhigh : (d : ℚ) * 10 ^ k ≤ m * 2 ^ e + 10 ^ k / 2 := by
    have := mul_le_mul_of_nonneg_right hnear hstep.le
    rw [hunit] at this
    linarith
  have hin : RoundsTo m e (d * 10 ^ k) := by
    have hl : (m - quartersBelow m e / 4 : ℚ) * 2 ^ e < d * 10 ^ k := by linarith
    have hh : (d * 10 ^ k : ℚ) < (m + 1 / 2) * 2 ^ e := by linarith
    exact ⟨hl.le, hh.le, fun _ => ⟨hl, hh⟩⟩
  have hne : d ≠ 0 := by
    rintro rfl
    have := hin.pos hm
    simp at this
  exact neighbour?_isSome (by rwa [hd]) (by rwa [hd, containsPoint_iff hm])

/-- **The shortest decimal is rounded to its number.** The search goes from coarse grids to finer
ones, and ends at the latest on the grid of seventeen digits. -/
theorem shortest_spec (hnormal : Normal m e) (hm : 0 < m) :
    RoundsTo m e (shortest m e).value ∧ (shortest m e).digits ≠ 0 := by
  obtain ⟨hden, -, hvalue, -⟩ := ofBinary_spec hm e
  have hpos : 0 < (RoundingInterval.ofBinary m e).value := by
    have h : (0 : ℚ) < m * 2 ^ e := mul_pos (Nat.cast_pos.mpr hm) (two_zpow_pos e)
    rw [← hvalue] at h
    by_contra hzero
    rw [Nat.eq_zero_of_not_pos hzero] at h
    simp at h
  have hlead := leadingPlace_le hpos hden
  rw [hvalue] at hlead
  simp only [shortest]
  split
  · rename_i s hs
    obtain ⟨k, -, hk⟩ := List.exists_of_findSome?_eq_some hs
    obtain ⟨d, hd, rfl⟩ := Option.map_eq_some_iff.mp hk
    obtain ⟨hne, hin⟩ := neighbour?_eq_some hd
    obtain ⟨hstrip, hdigits⟩ := Scaled.strip_spec 20 ⟨d, k⟩
    refine ⟨?_, hdigits hne⟩
    rw [hstrip]
    exact (containsPoint_iff hm d k).mp hin
  · rename_i hnone
    -- the last grid has a neighbour
    have hlast := exists_neighbour (k := leadingPlace (RoundingInterval.ofBinary m e).value
      (RoundingInterval.ofBinary m e).den + 1 - (17 : Nat)) hnormal hm
      (le_of_eq_of_le (by congr 1; push_cast; ring) hlead)
    have hmem := List.findSome?_eq_none_iff.mp hnone _
      (List.mem_map.mpr ⟨17, List.mem_range.mpr (by decide), rfl⟩)
    rw [Option.map_eq_none_iff] at hmem
    rw [hmem] at hlast
    exact absurd hlast (by simp)

end Shortest

end CoChange.Decimal
