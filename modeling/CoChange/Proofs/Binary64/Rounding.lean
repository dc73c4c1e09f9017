import Mathlib.Algebra.Order.Field.Power
import Mathlib.Tactic.NormNum
import Mathlib.Tactic.Positivity
import CoChange.Arithmetic
import CoChange.Binary64.Basic
import CoChange.Proofs.Decimal.Ratio

/-!
# What is rounded to a floating point number

A finite number is a significand times a power of two (`Normal`). A ratio near it (`RoundsTo`) is
rounded to the number itself, bit by bit:

* **`lastPlace_spec`**: the last place that a ratio is rounded to leaves it fifty-three bits at
  most, and all of them unless it is the least place.
* **`ofRatio_of_roundsTo`**: so a ratio near a number is rounded to the number.
* **`ofDecimal_of_roundsTo`**: and so is a decimal.
-/

namespace CoChange.Binary64

open Decimal (ratio scaleRatio ratio_scaleRatio roundDiv_eq Rounds)

/-! ## Finite numbers -/

/-- A significand and an exponent of a finite number. -/
structure Normal (m : Nat) (e : Int) : Prop where
  small : m < 2 ^ 53
  least : -1074 ≤ e
  greatest : e ≤ 971
  /-- All bits are used unless the exponent is the least. -/
  full : 2 ^ 52 ≤ m ∨ e = -1074

/-- The pattern of a significand and an exponent. -/
def magnitude (m : Nat) (e : Int) : Nat :=
  if m < 2 ^ 52 then m else (e + 1074).toNat * 2 ^ 52 + m

section View

variable {x : Binary64} {s : Bool} {m : Nat} {e : Int}

/-- The significand and exponent that a finite value is seen with are those of a normal or subnormal
double. The cases are those of the exponent field. -/
theorem normal_of_view (h : x.view = .finite s m e) : Normal m e := by
  have hfield : x.exponentField < 2 ^ 11 := Nat.mod_lt _ (by decide)
  have hfraction : x.fractionField < 2 ^ 52 := Nat.mod_lt _ (by decide)
  rw [view] at h
  split at h
  · split at h <;> simp at h
  rename_i hspecial
  split at h
  · obtain ⟨-, rfl, rfl⟩ := View.finite.inj h
    exact ⟨by omega, by decide, by decide, Or.inr rfl⟩
  · obtain ⟨-, rfl, rfl⟩ := View.finite.inj h
    exact ⟨by omega, by omega, by omega, Or.inl (by omega)⟩

/-- Finite values are those that are seen with a significand and an exponent. -/
theorem isFinite_iff_view : x.isFinite = true ↔ ∃ s m e, x.view = .finite s m e := by
  rw [isFinite, view, decide_eq_true_iff]
  constructor
  · intro h
    rw [if_neg h]
    split <;> exact ⟨_, _, _, rfl⟩
  · rintro ⟨s, m, e, h⟩ hspecial
    rw [if_pos hspecial] at h
    split at h <;> simp at h

/-- The bits of a number are those of its sign, significand and exponent. -/
theorem ofMagnitude_of_view (h : x.view = .finite s m e) : ofMagnitude s (magnitude m e) = x := by
  have hbits : x.bits.toNat < 2 ^ 64 := x.bits.toNat_lt
  have hfraction : x.fractionField = x.bits.toNat % 2 ^ 52 := rfl
  have hfield : x.exponentField = x.bits.toNat / 2 ^ 52 % 2 ^ 11 := rfl
  have hsign : x.negative = decide (2 ^ 63 ≤ x.bits.toNat) := rfl
  -- the sign, the exponent field and the fraction make up the bits again, with and without a
  -- leading bit
  have hwhole : magnitude m e + (if s then 2 ^ 63 else 0) = x.bits.toNat := by
    rw [view] at h
    split at h
    · split at h <;> simp at h
    split at h
    · obtain ⟨rfl, rfl, rfl⟩ := View.finite.inj h
      rw [magnitude, if_pos (by omega), hsign]
      simp only [decide_eq_true_iff]
      split <;> omega
    · obtain ⟨rfl, rfl, rfl⟩ := View.finite.inj h
      rw [magnitude, if_neg (by omega), hsign]
      simp only [decide_eq_true_iff]
      split <;> omega
  rw [ofMagnitude, hwhole]
  exact congrArg mk (UInt64.ofNat_toNat)

end View

/-- The bits of a significand and its exponent stay below those of the infinities. -/
theorem Normal.magnitude_lt {m : Nat} {e : Int} (h : Normal m e) :
    magnitude m e < 2047 * 2 ^ 52 := by
  have := h.small
  have := h.greatest
  have := h.least
  unfold magnitude
  split <;> omega

/-! ## The last place of a ratio -/

section LastPlace

variable {num den : Nat}

theorem two_zpow_pos (k : Int) : (0 : ℚ) < 2 ^ k := zpow_pos two_pos k

theorem two_zpow_le {a b : Int} (h : a ≤ b) : (2 : ℚ) ^ a ≤ 2 ^ b :=
  zpow_le_zpow_right₀ one_le_two h

theorem log2_le_cast {n : Nat} (h : n ≠ 0) : (2 : ℚ) ^ (n.log2 : Int) ≤ n := by
  rw [zpow_natCast]
  exact_mod_cast Nat.log2_self_le h

theorem cast_lt_log2 (n : Nat) : (n : ℚ) < 2 ^ (n.log2 + 1 : Int) := by
  have h : (n : ℚ) < 2 ^ (n.log2 + 1) := by exact_mod_cast Nat.lt_log2_self
  exact_mod_cast h

/-- A ratio lies between two powers of two, by the logarithms of its parts. -/
theorem ratio_between (hnum : 0 < num) (hden : 0 < den) :
    (2 : ℚ) ^ ((num.log2 : Int) - den.log2 - 1) < num / den ∧
      (num : ℚ) / den < 2 ^ ((num.log2 : Int) - den.log2 + 1) := by
  have hd : (0 : ℚ) < den := Nat.cast_pos.mpr hden
  constructor
  · rw [lt_div_iff₀ hd]
    calc (2 : ℚ) ^ ((num.log2 : Int) - den.log2 - 1) * den
        < 2 ^ ((num.log2 : Int) - den.log2 - 1) * 2 ^ (den.log2 + 1 : Int) :=
          mul_lt_mul_of_pos_left (cast_lt_log2 den) (two_zpow_pos _)
      _ = 2 ^ (num.log2 : Int) := by
          rw [← zpow_add₀ two_ne_zero]
          congr 1
          ring
      _ ≤ num := log2_le_cast hnum.ne'
  · rw [div_lt_iff₀ hd]
    calc (num : ℚ) < 2 ^ (num.log2 + 1 : Int) := cast_lt_log2 num
      _ = 2 ^ ((num.log2 : Int) - den.log2 + 1) * 2 ^ (den.log2 : Int) := by
          rw [← zpow_add₀ two_ne_zero]
          congr 1
          ring
      _ ≤ 2 ^ ((num.log2 : Int) - den.log2 + 1) * den :=
          mul_le_mul_of_nonneg_left (log2_le_cast hden.ne') (two_zpow_pos _).le

/-- A guess that is one too large shows in a scaled ratio with less than fifty-three bits. -/
theorem guess_spec {g : Int} {q : ℚ} {n d : Nat} (hd : 0 < d)
    (hscaled : ratio (n, d) = q * 2 ^ (-g)) (hlow : 2 ^ (g + 51) < q) (hhigh : q < 2 ^ (g + 53)) :
    q < 2 ^ ((if n / d < 2 ^ 52 then g - 1 else g) + 53) ∧
      (2 : ℚ) ^ ((if n / d < 2 ^ 52 then g - 1 else g) + 52) ≤ q := by
  have hshift : ratio (n, d) * 2 ^ g = q := by
    rw [hscaled, mul_assoc, ← zpow_add₀ two_ne_zero, neg_add_cancel, zpow_zero, mul_one]
  have hsplit : (2 : ℚ) ^ (52 : Int) * 2 ^ g = 2 ^ (g + 52) := by
    rw [← zpow_add₀ two_ne_zero, add_comm]
  have hd' : (0 : ℚ) < d := Nat.cast_pos.mpr hd
  split
  · -- the guess is one too large
    rename_i hfew
    rw [Nat.div_lt_iff_lt_mul hd] at hfew
    have hfew : ratio (n, d) < 2 ^ (52 : Int) := by
      rw [ratio, div_lt_iff₀ hd']
      exact_mod_cast hfew
    have hbound := mul_lt_mul_of_pos_right hfew (two_zpow_pos g)
    rw [hshift, hsplit] at hbound
    exact ⟨lt_of_lt_of_le hbound (two_zpow_le (by omega)),
      le_trans (two_zpow_le (by omega)) hlow.le⟩
  · rename_i hmany
    rw [Nat.div_lt_iff_lt_mul hd, not_lt] at hmany
    have hmany : 2 ^ (52 : Int) ≤ ratio (n, d) := by
      rw [ratio, le_div_iff₀ hd']
      exact_mod_cast hmany
    have hbound := mul_le_mul_of_nonneg_right hmany (two_zpow_pos g).le
    rw [hshift, hsplit] at hbound
    exact ⟨hhigh, hbound⟩

/-- **The last place that a ratio is rounded to.** The ratio has at most fifty-three bits before
this place, and it has all of them unless the place is the lowest one. -/
theorem lastPlace_spec (hnum : 0 < num) (hden : 0 < den) :
    (num : ℚ) / den < 2 ^ (lastPlace num den + 53) ∧ -1074 ≤ lastPlace num den ∧
      (lastPlace num den = -1074 ∨ (2 : ℚ) ^ (lastPlace num den + 52) ≤ num / den) := by
  obtain ⟨hlow, hhigh⟩ := ratio_between hnum hden
  obtain ⟨place, hplace, hfew, hmany⟩ : ∃ place : Int, lastPlace num den = max place (-1074) ∧
      (num : ℚ) / den < 2 ^ (place + 53) ∧ (2 : ℚ) ^ (place + 52) ≤ num / den := by
    have hspec := guess_spec (g := (num.log2 : Int) - den.log2 - 52)
      (Decimal.scaleRatio_pos two_pos hden _ num) (ratio_scaleRatio 2 _ num den)
      (lt_of_eq_of_lt (congrArg _ (by omega)) hlow) (lt_of_lt_of_eq hhigh (congrArg _ (by omega)))
    exact ⟨_, rfl, hspec⟩
  rw [hplace]
  refine ⟨lt_of_lt_of_le hfew (two_zpow_le (by omega)), le_max_right .., ?_⟩
  -- below the least exponent there is, the full fifty-three bits cannot be kept
  rcases max_choice place (-1074) with hmax | hmax
  · rw [hmax]
    exact Or.inr hmany
  · exact Or.inl hmax

end LastPlace

/-! ## Rounding -/

/-- How far the ratios that are rounded to a number reach below it, in quarters of its last place:
below a power of two the numbers lie twice as dense. -/
def quartersBelow (m : Nat) (e : Int) : Nat := if m = 2 ^ 52 ∧ -1074 < e then 1 else 2

/-- A rational number is nearest to `m * 2 ^ e`. -/
structure RoundsTo (m : Nat) (e : Int) (q : ℚ) : Prop where
  low : (m - quartersBelow m e / 4 : ℚ) * 2 ^ e ≤ q
  high : q ≤ (m + 1 / 2) * 2 ^ e
  /-- A half goes to the even neighbour. -/
  odd : m % 2 = 1 → (m - quartersBelow m e / 4 : ℚ) * 2 ^ e < q ∧ q < (m + 1 / 2) * 2 ^ e

section Nearest

variable {m : Nat} {e : Int} {q : ℚ}

theorem quartersBelow_le (m : Nat) (e : Int) : (quartersBelow m e : ℚ) ≤ 2 := by
  unfold quartersBelow
  split <;> norm_num

/-- In units of its last place, a ratio that is nearest to a number is at most half a unit off. -/
theorem RoundsTo.rounds (h : RoundsTo m e q) : Rounds m (q * 2 ^ (-e)) := by
  have hunit : (2 : ℚ) ^ e * 2 ^ (-e) = 1 := by
    rw [← zpow_add₀ two_ne_zero]
    simp
  have hscale (a : ℚ) : a = a * 2 ^ e * 2 ^ (-e) := by rw [mul_assoc, hunit, mul_one]
  have hbelow := quartersBelow_le m e
  have hpos := two_zpow_pos (-e)
  refine ⟨?_, ?_, fun hodd => ⟨?_, ?_⟩⟩
  · refine le_trans ?_ (mul_le_mul_of_nonneg_right h.low hpos.le)
    rw [← hscale]
    linarith
  · rw [hscale ((m : ℚ) + 1 / 2)]
    exact mul_le_mul_of_nonneg_right h.high hpos.le
  · refine lt_of_le_of_lt ?_ (mul_lt_mul_of_pos_right (h.odd hodd).1 hpos)
    rw [← hscale]
    linarith
  · rw [hscale ((m : ℚ) + 1 / 2)]
    exact mul_lt_mul_of_pos_right (h.odd hodd).2 hpos

theorem RoundsTo.pos (h : RoundsTo m e q) (hm : 0 < m) : 0 < q := by
  have hm : (1 : ℚ) ≤ m := by exact_mod_cast hm
  have hbelow := quartersBelow_le m e
  exact lt_of_lt_of_le (mul_pos (by linarith) (two_zpow_pos e)) h.low

theorem two_zpow_add_nat (e : Int) (n : Nat) : (2 : ℚ) ^ (e + n) = 2 ^ n * 2 ^ e := by
  rw [zpow_add₀ two_ne_zero, zpow_natCast, mul_comm]

/-- What is nearest to a number does not reach the next last place. -/
theorem RoundsTo.lt (h : RoundsTo m e q) (hnormal : Normal m e) : q < 2 ^ 53 * 2 ^ e := by
  refine lt_of_le_of_lt h.high (mul_lt_mul_of_pos_right ?_ (two_zpow_pos e))
  have : (m : ℚ) + 1 ≤ 2 ^ 53 := by exact_mod_cast (hnormal.small : m < 2 ^ 53)
  linarith

/-- Of the full significands only the least one is that of what lies below it. -/
theorem RoundsTo.eq_of_lt (h : RoundsTo m e q) (hfull : 2 ^ 52 ≤ m) (hbelow : q < 2 ^ 52 * 2 ^ e) :
    m = 2 ^ 52 := by
  by_contra hne
  have hm : (2 ^ 52 + 1 : ℚ) ≤ m := by
    have : 2 ^ 52 + 1 ≤ m := by omega
    exact_mod_cast this
  have hquarters : quartersBelow m e = 2 := if_neg fun h => hne h.1
  have hlow := h.low
  rw [hquarters] at hlow
  have := lt_of_le_of_lt hlow hbelow
  rw [mul_lt_mul_iff_left₀ (two_zpow_pos e)] at this
  push_cast at this
  linarith

/-- What is nearest to a number with a full significand is at least half the least one of that
place. -/
theorem RoundsTo.le_of_full (h : RoundsTo m e q) (hfull : 2 ^ 52 ≤ m) : (2 : ℚ) ^ (e + 51) ≤ q := by
  refine le_trans ?_ h.low
  rw [show e + 51 = e + (51 : Nat) from rfl, two_zpow_add_nat]
  refine mul_le_mul_of_nonneg_right ?_ (two_zpow_pos e).le
  have hquarters := quartersBelow_le m e
  have hm : (2 ^ 52 : ℚ) ≤ m := by exact_mod_cast hfull
  linarith

/-- A ratio that is nearest to a number has the last place of the number, unless it lies just below
a power of two. -/
theorem RoundsTo.lastPlace {num den : Nat} (h : RoundsTo m e (num / den)) (hnormal : Normal m e)
    (hm : 0 < m) (hden : 0 < den) :
    lastPlace num den = e ∨ (lastPlace num den = e - 1 ∧ m = 2 ^ 52 ∧ -1074 < e ∧
      (num : ℚ) / den < 2 ^ 52 * 2 ^ e) := by
  have hnum : 0 < num := by
    have := h.pos hm
    by_contra hzero
    rw [Nat.eq_zero_of_not_pos hzero] at this
    simp at this
  obtain ⟨hfew, hleast, hmany⟩ := lastPlace_spec hnum hden
  have hleast' := hnormal.least
  rcases lt_trichotomy (Binary64.lastPlace num den) e with hlt | heq | hgt
  · -- only the ratios just below a power of two have a lower last place than the power itself
    have hbelow : (num : ℚ) / den < 2 ^ 52 * 2 ^ e := by
      refine lt_of_lt_of_le hfew (le_of_le_of_eq (two_zpow_le ?_) (two_zpow_add_nat e 52))
      push_cast
      omega
    have hfull : 2 ^ 52 ≤ m := hnormal.full.resolve_right (by omega)
    have hplace : ¬ Binary64.lastPlace num den + 53 ≤ e + 51 := fun hle =>
      absurd (lt_of_le_of_lt (le_trans (two_zpow_le hle) (h.le_of_full hfull)) hfew) (lt_irrefl _)
    exact Or.inr ⟨by omega, h.eq_of_lt hfull hbelow, by omega, hbelow⟩
  · exact Or.inl heq
  · -- a higher last place needs a larger ratio
    have hmany : (2 : ℚ) ^ (Binary64.lastPlace num den + 52) ≤ num / den :=
      hmany.resolve_left (by omega)
    have hle : (2 : ℚ) ^ 53 * 2 ^ e ≤ num / den := by
      rw [← two_zpow_add_nat]
      refine le_trans (two_zpow_le ?_) hmany
      push_cast
      omega
    exact absurd (h.lt hnormal) (not_lt.mpr hle)

/-- Just below a power of two, a ratio is rounded to the power. -/
theorem RoundsTo.rounds_power (h : RoundsTo (2 ^ 52) e q) (he : -1074 < e)
    (hq : q < 2 ^ 52 * 2 ^ e) :
    Rounds (2 ^ 53) (q * 2 ^ (-(e - 1))) := by
  have hunit : (2 : ℚ) ^ e * 2 ^ (-(e - 1)) = 2 := by
    rw [← zpow_add₀ two_ne_zero, show e + -(e - 1) = 1 by ring, zpow_one]
  have hpos := two_zpow_pos (-(e - 1))
  have hlow := mul_le_mul_of_nonneg_right h.low hpos.le
  have hhigh := mul_lt_mul_of_pos_right hq hpos
  rw [quartersBelow, if_pos ⟨rfl, he⟩, mul_assoc, hunit] at hlow
  rw [mul_assoc, hunit] at hhigh
  push_cast at hlow
  -- the power is even, so no half is in question
  refine ⟨?_, ?_, fun hodd => absurd hodd (by decide)⟩
  · push_cast
    linarith
  · push_cast
    linarith

/-- **A ratio that is nearest to a number is rounded to the number.** The last place of the ratio is
that of the number, or one too low where the ratio is rounded up to a power of two. -/
theorem ofRatio_of_roundsTo {x : Binary64} {s : Bool} {num den : Nat} (hx : x.view = .finite s m e)
    (hm : 0 < m) (hden : 0 < den) (h : RoundsTo m e (num / den)) : ofRatio s num den = x := by
  have hnormal := normal_of_view hx
  have hnum : num ≠ 0 := by
    rintro rfl
    have := h.pos hm
    simp at this
  have hleast := hnormal.least
  -- it is enough that the rounded significand has the pattern of the number at the place that was
  -- chosen
  have hpattern : ∀ significand : Nat,
      Decimal.roundDiv (scaleRatio 2 (-Binary64.lastPlace num den) num den).1
        (scaleRatio 2 (-Binary64.lastPlace num den) num den).2 = significand →
      (if significand < 2 ^ 52 then significand
        else (Binary64.lastPlace num den + 1074).toNat * 2 ^ 52 + significand) = magnitude m e →
      ofRatio s num den = x := by
    rintro significand rfl hmagnitude
    rw [ofRatio, if_neg hnum]
    simp only [hmagnitude]
    rw [if_neg (Nat.not_le.mpr hnormal.magnitude_lt), ofMagnitude_of_view hx]
  have hscaled := ratio_scaleRatio 2 (-Binary64.lastPlace num den) num den
  have hpos := Decimal.scaleRatio_pos two_pos hden (-Binary64.lastPlace num den) num
  rcases h.lastPlace hnormal hm hden with hplace | ⟨hplace, hpower, he, hbelow⟩
  · rw [hplace, Nat.cast_ofNat] at hscaled
    refine hpattern m (roundDiv_eq hpos ?_) ?_
    · rw [hplace]
      exact (hscaled ▸ h.rounds : Rounds m (ratio _))
    · rw [hplace]
      rfl
  · -- a place too low, the ratio is rounded up to the next power of two, which carries into the
    -- exponent
    subst hpower
    rw [hplace, Nat.cast_ofNat] at hscaled
    refine hpattern (2 ^ 53) (roundDiv_eq hpos ?_) ?_
    · rw [hplace]
      exact (hscaled ▸ h.rounds_power he hbelow : Rounds (2 ^ 53) (ratio _))
    · rw [hplace, magnitude, if_neg (by decide), if_neg (by decide)]
      omega

end Nearest

/-! ## Decimals -/

section OfDecimal

variable {m digits : Nat} {e exponent : Int}

theorem ten_zpow_pos (k : Int) : (0 : ℚ) < 10 ^ k := zpow_pos (by norm_num) k

theorem ten_zpow_le {a b : Int} (h : a ≤ b) : (10 : ℚ) ^ a ≤ 10 ^ b :=
  zpow_le_zpow_right₀ (by norm_num) h

theorem two_zpow_le_ten : (2 : ℚ) ^ (1203 : Int) ≤ 10 ^ (401 : Int) := by
  rw [show (1203 : Int) = 3 * 401 from rfl, zpow_mul]
  exact zpow_le_zpow_left₀ (by decide) (by norm_num) (by norm_num)

/-- A quarter of the binary digits is less than the decimal ones. -/
theorem ten_pow_le (hdigits : digits ≠ 0) : 10 ^ (digits.log2 / 4) ≤ digits :=
  calc 10 ^ (digits.log2 / 4) ≤ 16 ^ (digits.log2 / 4) := Nat.pow_le_pow_left (by decide) _
    _ = 2 ^ (4 * (digits.log2 / 4)) := by rw [Nat.pow_mul]
    _ ≤ 2 ^ digits.log2 := Nat.pow_le_pow_right (by decide) (by omega)
    _ ≤ digits := Nat.log2_self_le hdigits

/-- There are at least as many binary digits as decimal ones. -/
theorem lt_two_mul_ten_pow (digits : Nat) : digits < 2 * 10 ^ digits.log2 :=
  calc digits < 2 ^ (digits.log2 + 1) := Nat.lt_log2_self
    _ = 2 * 2 ^ digits.log2 := by rw [Nat.pow_succ, Nat.mul_comm]
    _ ≤ 2 * 10 ^ digits.log2 := Nat.mul_le_mul_left 2 (Nat.pow_le_pow_left (by decide) _)

/-- A decimal near a finite number is not too large. -/
theorem RoundsTo.not_huge (h : RoundsTo m e (digits * 10 ^ exponent)) (hnormal : Normal m e)
    (hdigits : digits ≠ 0) : (digits.log2 : Int) / 4 + exponent ≤ 400 := by
  by_contra hhuge
  have hlow : (10 : ℚ) ^ (401 : Int) ≤ digits * 10 ^ exponent :=
    calc (10 : ℚ) ^ (401 : Int) ≤ 10 ^ ((digits.log2 / 4 : Nat) + exponent) :=
          ten_zpow_le (by omega)
      _ = ((10 ^ (digits.log2 / 4) : Nat) : ℚ) * 10 ^ exponent := by
          rw [zpow_add₀ (by norm_num), zpow_natCast]
          push_cast
          rfl
      _ ≤ digits * 10 ^ exponent :=
          mul_le_mul_of_nonneg_right (by exact_mod_cast ten_pow_le hdigits) (ten_zpow_pos _).le
  have hhigh : (digits * 10 ^ exponent : ℚ) ≤ 2 ^ 53 * 2 ^ (971 : Int) := by
    refine le_trans h.high
      (mul_le_mul ?_ (two_zpow_le hnormal.greatest) (two_zpow_pos e).le (by norm_num))
    have : m + 1 ≤ 2 ^ 53 := hnormal.small
    have : (m : ℚ) + 1 ≤ 2 ^ 53 := by exact_mod_cast this
    linarith
  -- `2 ^ 1203` lies between the largest numbers and `10 ^ 401`
  have hpowers : (2 : ℚ) ^ 53 * 2 ^ (971 : Int) < 2 ^ (1203 : Int) := by
    rw [← two_zpow_add_nat]
    exact zpow_lt_zpow_right₀ one_lt_two (by decide)
  exact lt_irrefl _ (lt_of_le_of_lt (le_trans two_zpow_le_ten (le_trans hlow hhigh)) hpowers)

/-- A decimal near a number other than zero is not too small. -/
theorem RoundsTo.not_tiny (h : RoundsTo m e (digits * 10 ^ exponent)) (hnormal : Normal m e)
    (hm : 0 < m) :
    -400 ≤ (digits.log2 : Int) + exponent := by
  by_contra htiny
  have hhigh : (digits * 10 ^ exponent : ℚ) ≤ 2 * 10 ^ (-401 : Int) :=
    calc (digits * 10 ^ exponent : ℚ) ≤ ((2 * 10 ^ digits.log2 : Nat) : ℚ) * 10 ^ exponent :=
          mul_le_mul_of_nonneg_right (by exact_mod_cast (lt_two_mul_ten_pow digits).le)
            (ten_zpow_pos _).le
      _ = 2 * 10 ^ ((digits.log2 : Int) + exponent) := by
          rw [zpow_add₀ (by norm_num), zpow_natCast]
          push_cast
          ring
      _ ≤ 2 * 10 ^ (-401 : Int) := mul_le_mul_of_nonneg_left (ten_zpow_le (by omega)) two_pos.le
  have hlow : (1 / 2 : ℚ) * 2 ^ (-1074 : Int) ≤ digits * 10 ^ exponent := by
    have hquarters := quartersBelow_le m e
    have : (1 : ℚ) ≤ m := by exact_mod_cast hm
    exact le_trans
      (mul_le_mul (by linarith) (two_zpow_le hnormal.least) (two_zpow_pos _).le (by linarith))
      h.low
  have hpowers : (10 : ℚ) ^ (-401 : Int) ≤ 2 ^ (-1203 : Int) := by
    rw [zpow_neg, zpow_neg]
    exact inv_anti₀ (two_zpow_pos _) two_zpow_le_ten
  -- `2 ^ (-1203)` lies between `10 ^ (-401)` and half of the least positive number
  have hgap : (2 : ℚ) ^ 3 * 2 ^ (-1203 : Int) ≤ 2 ^ (-1074 : Int) := by
    rw [← two_zpow_add_nat]
    exact two_zpow_le (by decide)
  have hpos := two_zpow_pos (-1203)
  linarith

/-- **A decimal that is nearest to a number is read as the number.** The decimal is a ratio, whose
exponent decides which side the power of ten is on. -/
theorem ofDecimal_of_roundsTo {x : Binary64} {s : Bool} (hx : x.view = .finite s m e) (hm : 0 < m)
    (h : RoundsTo m e (digits * 10 ^ exponent)) : ofDecimal s digits exponent = x := by
  have hdigits : digits ≠ 0 := by
    rintro rfl
    have := h.pos hm
    simp at this
  have hnormal := normal_of_view hx
  have hscaled := ratio_scaleRatio 10 exponent digits 1
  rw [Nat.cast_one, div_one, Nat.cast_ofNat] at hscaled
  rw [ofDecimal, if_neg hdigits]
  simp only
  rw [if_neg (Int.not_lt.mpr (h.not_huge hnormal hdigits)),
    if_neg (Int.not_lt.mpr (h.not_tiny hnormal hm))]
  refine ofRatio_of_roundsTo hx hm (Decimal.scaleRatio_pos (by decide) Nat.one_pos _ _) ?_
  exact (hscaled ▸ h : RoundsTo m e (ratio _))

end OfDecimal

end CoChange.Binary64
