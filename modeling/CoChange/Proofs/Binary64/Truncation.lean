import Mathlib.Algebra.Order.Floor.Semifield
import Mathlib.Data.Rat.Floor
import CoChange.Proofs.Binary64.Quotient

/-!
# Integral parts of rounded numbers

A ratio is rounded to a number that lies on the same side of every other number
(`exists_view_ofRatio`), so the natural numbers of fifty-three bits around the ratio are around what
it is rounded to as well. This holds also behind a product with a power of two, which keeps the
significand (`view_mul_two_pow`). So the integral part of what a ratio is rounded to is less than
one off (`exists_floor?_mul_two_pow`), although one of the two steps may have gone up and the other
one goes down.
-/

namespace CoChange

namespace Decimal

variable {num den k : Nat}

/-- A quotient is not rounded to less than an integer that it reaches. -/
theorem le_roundDiv (hden : 0 < den) (h : (k : ℚ) ≤ num / den) : k ≤ roundDiv num den := by
  have hnear := (rounds_roundDiv num hden).2
  have hlt : (k : ℚ) < (roundDiv num den + 1 : Nat) := by
    push_cast
    linarith
  exact Nat.lt_succ_iff.mp (Nat.cast_lt.mp hlt)

/-- It is not rounded to more than an integer that it does not exceed. -/
theorem roundDiv_le (hden : 0 < den) (h : (num : ℚ) / den ≤ k) : roundDiv num den ≤ k := by
  have hnear := (rounds_roundDiv num hden).1
  have hlt : (roundDiv num den : ℚ) < (k + 1 : Nat) := by
    push_cast
    linarith
  exact Nat.lt_succ_iff.mp (Nat.cast_lt.mp hlt)

end Decimal

namespace Binary64

open Decimal (ratio scaleRatio ratio_scaleRatio scaleRatio_pos roundDiv le_roundDiv roundDiv_le)

variable {num den m n : Nat} {e k : Int}

/-! ## The significand -/

/-- The integer that a ratio is rounded to in units of its last place. -/
def significand (num den : Nat) : Nat :=
  roundDiv (scaleRatio 2 (-lastPlace num den) num den).1
    (scaleRatio 2 (-lastPlace num den) num den).2

/-- A ratio that reaches a multiple of its last place is not rounded to less. -/
theorem le_significand_mul (hden : 0 < den) (h : (n : ℚ) * 2 ^ lastPlace num den ≤ num / den) :
    n ≤ significand num den := by
  refine le_roundDiv (scaleRatio_pos two_pos hden _ num) ?_
  refine le_of_le_of_eq ?_ (ratio_scaleRatio 2 (-lastPlace num den) num den).symm
  rw [Nat.cast_ofNat, zpow_neg, ← div_eq_mul_inv]
  exact (le_div_iff₀ (two_zpow_pos _)).mpr h

/-- A ratio that does not exceed a multiple of its last place is not rounded to more. -/
theorem significand_mul_le (hden : 0 < den) (h : (num : ℚ) / den ≤ n * 2 ^ lastPlace num den) :
    significand num den ≤ n := by
  refine roundDiv_le (scaleRatio_pos two_pos hden _ num) ?_
  refine le_of_eq_of_le (ratio_scaleRatio 2 (-lastPlace num den) num den) ?_
  rw [Nat.cast_ofNat, zpow_neg, ← div_eq_mul_inv]
  exact (div_le_iff₀ (two_zpow_pos _)).mpr h

theorem two_pow_mul (b : Nat) (k : Int) : (2 : ℚ) ^ (k + b) = ((2 ^ b : Nat) : ℚ) * 2 ^ k := by
  rw [two_zpow_add_nat, Nat.cast_pow, Nat.cast_ofNat]

/-- All bits of a significand are used unless it counts the least place there is. -/
theorem significand_full (hnum : 0 < num) (hden : 0 < den) :
    2 ^ 52 ≤ significand num den ∨ lastPlace num den = -1074 := by
  obtain ⟨-, -, hmany⟩ := lastPlace_spec hnum hden
  refine hmany.symm.imp (fun hmany => le_significand_mul hden ?_) id
  rwa [← two_pow_mul 52]

/-- The significand may be rounded up to the next power of two, and no further. -/
theorem significand_le_two_pow (hnum : 0 < num) (hden : 0 < den) :
    significand num den ≤ 2 ^ 53 := by
  obtain ⟨hfew, -, -⟩ := lastPlace_spec hnum hden
  refine significand_mul_le hden ?_
  rw [← two_pow_mul 53]
  exact hfew.le

/-- What a ratio below the last power of two is rounded to. -/
theorem exists_view_significand (hnum : 0 < num) (hden : 0 < den)
    (hsmall : (num : ℚ) / den < 2 ^ (1023 : Int)) :
    ∃ m e, (ofRatio false num den).view = .finite false m e ∧
      (m : ℚ) * 2 ^ e = significand num den * 2 ^ lastPlace num den := by
  obtain ⟨-, hleast, hmany⟩ := lastPlace_spec hnum hden
  have hgreatest : lastPlace num den ≤ 970 := by
    rcases hmany with hmin | hmany
    · omega
    · have := (zpow_lt_zpow_iff_right₀ one_lt_two).mp (lt_of_le_of_lt hmany hsmall)
      omega
  have hfull := significand_full hnum hden
  have hpattern {m : Nat} {e : Int} (hnormal : Normal m e)
      (h : (if significand num den < 2 ^ 52 then significand num den
        else (lastPlace num den + 1074).toNat * 2 ^ 52 + significand num den) = magnitude m e) :
      (ofRatio false num den).view = .finite false m e := by
    rw [← view_ofMagnitude hnormal, ← h, ofRatio, if_neg hnum.ne']
    refine congrArg view (if_neg (Nat.not_le.mpr ?_))
    exact h ▸ hnormal.magnitude_lt
  rcases Nat.lt_or_eq_of_le (significand_le_two_pow hnum hden) with hlt | hcarry
  · exact ⟨_, _, hpattern ⟨hlt, hleast, by omega, hfull⟩ rfl, rfl⟩
  · -- rounded up to the next power of two, the significand has one bit too many and is halved
    refine ⟨2 ^ 52, lastPlace num den + 1,
      hpattern ⟨by decide, by omega, by omega, .inl le_rfl⟩ ?_, ?_⟩
    · rw [hcarry, magnitude, if_neg (by decide), if_neg (by decide)]
      omega
    · rw [hcarry, ← two_pow_mul, ← two_pow_mul]
      congr 1
      omega

/-- The numbers that are not too large, by a significand and an exponent. -/
def Representable (y : ℚ) : Prop := ∃ (n : Nat) (k : Int), n < 2 ^ 53 ∧ -1074 ≤ k ∧ y = n * 2 ^ k

/-- Two rational numbers lie on the same side of every floating point number. -/
structure SameSide (q v : ℚ) : Prop where
  le : ∀ y, Representable y → y ≤ q → y ≤ v
  ge : ∀ y, Representable y → q ≤ y → v ≤ y

/-- **Rounding passes no floating point number.** No number lies between a ratio and what it is
rounded to, so the two are on the same side of every one. -/
theorem exists_view_ofRatio (hnum : 0 < num) (hden : 0 < den)
    (hsmall : (num : ℚ) / den < 2 ^ (1023 : Int)) :
    ∃ m e, (ofRatio false num den).view = .finite false m e ∧ SameSide (num / den) (m * 2 ^ e) := by
  obtain ⟨m, e, hview, hvalue⟩ := exists_view_significand hnum hden hsmall
  obtain ⟨-, hleast, hmany⟩ := lastPlace_spec hnum hden
  have hunit := two_zpow_pos (lastPlace num den)
  -- a number with a higher last place is a multiple of the last place of the ratio
  have hmultiple (n : Nat) {k : Int} (hk : lastPlace num den ≤ k) :
      (n : ℚ) * 2 ^ k = (n * 2 ^ (k - lastPlace num den).toNat : Nat) * 2 ^ lastPlace num den := by
    rw [Nat.cast_mul, mul_assoc, ← two_pow_mul]
    congr 2
    omega
  refine ⟨m, e, hview, ?_, ?_⟩ <;> rintro _ ⟨n, k, hn, hk, rfl⟩ hle <;> rw [hvalue]
  · rcases le_or_gt (lastPlace num den) k with hplace | hplace
    · rw [hmultiple n hplace] at hle ⊢
      exact mul_le_mul_of_nonneg_right (Nat.cast_le.mpr (le_significand_mul hden hle)) hunit.le
    · -- one with a lower last place lies below the first number with all bits
      have hfull := (significand_full hnum hden).resolve_right (by omega)
      calc (n : ℚ) * 2 ^ k ≤ ((2 ^ 53 : Nat) : ℚ) * 2 ^ k :=
            mul_le_mul_of_nonneg_right (Nat.cast_le.mpr hn.le) (two_zpow_pos k).le
        _ = 2 ^ (k + (53 : Nat)) := (two_pow_mul 53 k).symm
        _ ≤ 2 ^ (lastPlace num den + (52 : Nat)) := two_zpow_le (by omega)
        _ = ((2 ^ 52 : Nat) : ℚ) * 2 ^ lastPlace num den := two_pow_mul 52 _
        _ ≤ significand num den * 2 ^ lastPlace num den :=
            mul_le_mul_of_nonneg_right (Nat.cast_le.mpr hfull) hunit.le
  · have hplace : lastPlace num den ≤ k := by
      rcases hmany with hmin | hmany
      · omega
      · have hbound : (n : ℚ) * 2 ^ k < 2 ^ (k + (53 : Nat)) := by
          rw [two_pow_mul]
          exact mul_lt_mul_of_pos_right (Nat.cast_lt.mpr hn) (two_zpow_pos k)
        have := (zpow_lt_zpow_iff_right₀ one_lt_two).mp (lt_of_le_of_lt (hmany.trans hle) hbound)
        omega
    rw [hmultiple n hplace] at hle ⊢
    exact mul_le_mul_of_nonneg_right (Nat.cast_le.mpr (significand_mul_le hden hle)) hunit.le

/-! ## Products with a power of two -/

/-- **A product with a power of two keeps the significand.** Only the exponent is raised, as long as
it does not get too large. -/
theorem view_mul_two_pow {x : Binary64} (hx : x.view = .finite false m e) (hfull : 2 ^ 52 ≤ m)
    {j : Nat} (hj : j < 53)
    (he : e + j ≤ 971) : (x * ofNat (2 ^ j)).view = .finite false m (e + j) := by
  obtain ⟨u, f, hunit, hpower⟩ := exists_view_ofNat (Nat.pow_lt_pow_right one_lt_two hj)
  have hnormal := normal_of_view hx
  have hleast := hnormal.least
  have hview := view_ofMagnitude (m := m) (e := e + j) ⟨hnormal.small, by omega, he, .inl hfull⟩
  have hpos := scaleRatio_pos two_pos Nat.one_pos (e + f) (m * u)
  -- the product is a number itself, so that nothing is rounded
  have hproduct : (m : ℚ) * 2 ^ (e + j) = ratio (scaleRatio 2 (e + f) (m * u) 1) := by
    rw [ratio_scaleRatio]
    push_cast
    rw [div_one, zpow_add₀ two_ne_zero, zpow_add₀ two_ne_zero, mul_mul_mul_comm, hpower,
      zpow_natCast]
    push_cast
    ring
  show (mul x (ofNat (2 ^ j))).view = _
  rw [mul, hx, hunit]
  exact (congrArg view (ofRatio_of_roundsTo hview (by omega) hpos (roundsTo_self hproduct))).trans
    hview

/-- The integral part of a number. -/
theorem floor?_of_view {x : Binary64} (hx : x.view = .finite false m e) :
    x.floor? = some ⌊(m : ℚ) * 2 ^ e⌋₊ := by
  have hratio := ratio_scaleRatio 2 e m 1
  rw [Nat.cast_one, div_one, Nat.cast_ofNat, ratio] at hratio
  rw [floor?, hx, ← hratio, Nat.floor_div_eq_div]

section Product

variable {q v : ℚ} {j : Nat}

/-- A natural number up to `2 ^ 53` is a product of a floating point number with a power of two. -/
theorem exists_representable_mul (hn : n ≤ 2 ^ 53) (hj : j < 53) :
    ∃ y, Representable y ∧ y * 2 ^ j = n := by
  have hshift (k : Int) : (2 : ℚ) ^ (k - j) * 2 ^ j = 2 ^ k := by
    rw [← zpow_natCast, ← zpow_add₀ two_ne_zero, sub_add_cancel]
  rcases Nat.lt_or_eq_of_le hn with hlt | rfl
  · refine ⟨n * 2 ^ (0 - j : Int), ⟨n, _, hlt, by omega, rfl⟩, ?_⟩
    rw [mul_assoc, hshift, zpow_zero, mul_one]
  · refine ⟨(2 ^ 52 : Nat) * 2 ^ (1 - j : Int), ⟨2 ^ 52, _, by decide, by omega, rfl⟩, ?_⟩
    rw [mul_assoc, hshift]
    norm_num

/-- Numbers on the same sides have products with integral parts between the same integers. -/
theorem SameSide.floor_mul (h : SameSide q v) (hj : j < 53) (hfits : q * 2 ^ j ≤ 2 ^ 53)
    (hq : 0 ≤ q) :
    ⌊q * 2 ^ j⌋₊ ≤ ⌊v * 2 ^ j⌋₊ ∧ ⌊v * 2 ^ j⌋₊ ≤ ⌈q * 2 ^ j⌉₊ ∧ ⌈q * 2 ^ j⌉₊ ≤ 2 ^ 53 := by
  have hunit : (0 : ℚ) < 2 ^ j := pow_pos two_pos j
  have hceil : ⌈q * 2 ^ j⌉₊ ≤ 2 ^ 53 := by
    rw [Nat.ceil_le]
    exact_mod_cast hfits
  -- the integers on either side of `q * 2 ^ j` come from representable numbers, and none of these
  -- stands between `q` and `v`
  refine ⟨?_, ?_, hceil⟩
  · obtain ⟨y, hy, heq⟩ := exists_representable_mul ((Nat.floor_le_ceil _).trans hceil) hj
    have hreach := Nat.floor_le (mul_nonneg hq hunit.le)
    refine Nat.le_floor ?_
    rw [← heq] at hreach ⊢
    exact mul_le_mul_of_nonneg_right (h.le y hy (le_of_mul_le_mul_right hreach hunit)) hunit.le
  · obtain ⟨y, hy, heq⟩ := exists_representable_mul hceil hj
    have hreach := Nat.le_ceil (q * 2 ^ j)
    refine Nat.floor_le_of_le ?_
    rw [← heq] at hreach ⊢
    exact mul_le_mul_of_nonneg_right (h.ge y hy (le_of_mul_le_mul_right hreach hunit)) hunit.le

/-- Between one and `2 ^ 53` all bits of a significand are used. -/
theorem Normal.full_of_between (h : Normal m e) (hlow : 1 ≤ (m : ℚ) * 2 ^ e)
    (hhigh : (m : ℚ) * 2 ^ e ≤ 2 ^ 53) :
    2 ^ 52 ≤ m ∧ e ≤ 1 := by
  have hfull : 2 ^ 52 ≤ m := by
    -- with the least place of all and fewer bits it would be less than one
    refine h.full.resolve_right fun hleast => ?_
    have hbelow : (m : ℚ) * 2 ^ e < 2 ^ (e + (53 : Nat)) := by
      rw [two_pow_mul]
      exact mul_lt_mul_of_pos_right (Nat.cast_lt.mpr h.small) (two_zpow_pos e)
    have hplace := lt_of_le_of_lt hlow hbelow
    rw [← zpow_zero (2 : ℚ), zpow_lt_zpow_iff_right₀ one_lt_two] at hplace
    omega
  refine ⟨hfull, ?_⟩
  have habove : (2 : ℚ) ^ (e + (52 : Nat)) ≤ 2 ^ (53 : Int) := by
    refine le_trans ?_ hhigh
    rw [two_pow_mul]
    exact mul_le_mul_of_nonneg_right (Nat.cast_le.mpr hfull) (two_zpow_pos e).le
  have := (zpow_le_zpow_iff_right₀ one_lt_two).mp habove
  omega

/-- **The integral part of a rounded product is less than one off**, whichever way the ratio has
been rounded. -/
theorem exists_floor?_mul_two_pow (hden : 0 < den) (hone : 1 ≤ (num : ℚ) / den) (hj : j < 53)
    (hfits : (num : ℚ) / den * 2 ^ j ≤ 2 ^ 53) :
    ∃ r : Nat, (ofRatio false num den * ofNat (2 ^ j)).floor? = some r ∧ r ≤ 2 ^ 53 ∧
      |(r : ℚ) - num / den * 2 ^ j| < 1 := by
  have hnonneg : 0 ≤ (num : ℚ) / den := zero_le_one.trans hone
  have hnum : 0 < num := by
    by_contra hzero
    rw [Nat.eq_zero_of_not_pos hzero, Nat.cast_zero, zero_div] at hone
    exact absurd hone (by norm_num)
  have hlarge : (num : ℚ) / den ≤ 2 ^ 53 :=
    (le_mul_of_one_le_right hnonneg (one_le_pow₀ one_le_two)).trans hfits
  have hsmall : (num : ℚ) / den < 2 ^ (1023 : Int) := by
    refine lt_of_le_of_lt hlarge ?_
    rw [← zpow_natCast]
    exact zpow_lt_zpow_right₀ one_lt_two (by decide)
  obtain ⟨m, e, hview, hside⟩ := exists_view_ofRatio hnum hden hsmall
  have hlow := hside.le 1 ⟨1, 0, by decide, by decide, by norm_num⟩ hone
  have hhigh := hside.ge (2 ^ 53) ⟨2 ^ 52, 1, by decide, by decide, by norm_num⟩ hlarge
  -- the nearest number lies between one and `2 ^ 53` as well, so the product with a power of two is
  -- exact
  obtain ⟨hfull, hplace⟩ := (normal_of_view hview).full_of_between hlow hhigh
  have hfloor := floor?_of_view (view_mul_two_pow hview hfull hj (by omega))
  rw [zpow_add₀ two_ne_zero, zpow_natCast, ← mul_assoc] at hfloor
  obtain ⟨hbelow, habove, hword⟩ := hside.floor_mul hj hfits hnonneg
  refine ⟨_, hfloor, habove.trans hword, abs_lt.mpr ⟨?_, ?_⟩⟩
  · have hlt := Nat.lt_floor_add_one ((num : ℚ) / den * 2 ^ j)
    have := Nat.cast_le (α := ℚ).mpr hbelow
    linarith
  · have hlt := Nat.ceil_lt_add_one (show 0 ≤ (num : ℚ) / den * 2 ^ j by positivity)
    have := Nat.cast_le (α := ℚ).mpr habove
    linarith

end Product

end Binary64

end CoChange
