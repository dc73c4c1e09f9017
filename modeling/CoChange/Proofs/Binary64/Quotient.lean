import CoChange.Proofs.Binary64.Rounding

/-!
# Quotients of counts

A ratio is rounded to the same number however it is written (`ofRatio_congr`). A count of
fifty-three bits is a floating point number itself (`exists_view_ofNat`), so the quotient of two
such counts is their ratio, rounded once (`ofNat_div_ofNat`).
-/

namespace CoChange.Binary64

open Decimal (ratio scaleRatio ratio_scaleRatio scaleRatio_pos roundDiv_congr)

variable {num den num' den' : Nat}

/-! ## Ratios that are the same -/

/-- The last place grows with the ratio. -/
theorem lastPlace_le (hnum : 0 < num) (hden : 0 < den) (hnum' : 0 < num') (hden' : 0 < den')
    (h : (num : ℚ) / den ≤ num' / den') : lastPlace num den ≤ lastPlace num' den' := by
  obtain ⟨hfew, hleast, -⟩ := lastPlace_spec hnum' hden'
  obtain ⟨-, -, hmany⟩ := lastPlace_spec hnum hden
  rcases hmany with hmin | hmany
  · exact hmin ▸ hleast
  · have hplace : lastPlace num den + 52 < lastPlace num' den' + 53 :=
      (zpow_lt_zpow_iff_right₀ one_lt_two).mp (lt_of_le_of_lt (le_trans hmany h) hfew)
    omega

/-- **A ratio is rounded to the same number however it is written.** The last place and the rounding
to it are told by the value of the ratio, and the steps on the way by nothing else. -/
theorem ofRatio_congr (s : Bool) (hden : 0 < den) (hden' : 0 < den')
    (h : (num : ℚ) / den = num' / den') :
    ofRatio s num den = ofRatio s num' den' := by
  have hd : (den : ℚ) ≠ 0 := Nat.cast_ne_zero.mpr hden.ne'
  have hd' : (den' : ℚ) ≠ 0 := Nat.cast_ne_zero.mpr hden'.ne'
  have hcross : num * den' = num' * den := by exact_mod_cast (div_eq_div_iff hd hd').mp h
  rcases Nat.eq_zero_or_pos num with rfl | hnum
  · have hnum' : num' = 0 := by
      rw [Nat.zero_mul] at hcross
      exact (Nat.mul_eq_zero.mp hcross.symm).resolve_right hden.ne'
    rw [hnum', ofRatio, ofRatio, if_pos rfl, if_pos rfl]
  · have hnum' : 0 < num' :=
      Nat.pos_of_mul_pos_right (hcross ▸ Nat.mul_pos hnum hden')
    -- equal ratios have the same last place, and are scaled to equal ratios
    have hplace : lastPlace num den = lastPlace num' den' :=
      le_antisymm (lastPlace_le hnum hden hnum' hden' h.le)
        (lastPlace_le hnum' hden' hnum hden h.ge)
    have hround := roundDiv_congr (scaleRatio_pos two_pos hden (-lastPlace num den) num)
      (scaleRatio_pos two_pos hden' (-lastPlace num den) num') (by
        rw [ratio_scaleRatio, ratio_scaleRatio, h])
    simp only [ofRatio, if_neg hnum.ne', if_neg hnum'.ne', ← hplace, hround]

/-! ## Counts as floating point numbers -/

/-- A significand and an exponent are read back from the pattern they make. -/
theorem view_ofMagnitude {m : Nat} {e : Int} (h : Normal m e) :
    (ofMagnitude false (magnitude m e)).view = .finite false m e := by
  have hsmall := h.small
  have hleast := h.least
  have hgreatest := h.greatest
  have hbits : (ofMagnitude false (magnitude m e)).bits.toNat = magnitude m e := by
    have hlt := h.magnitude_lt
    simp only [ofMagnitude, Bool.false_eq_true, if_false, Nat.add_zero]
    exact UInt64.toNat_ofNat_of_lt (by simp only [UInt64.size]; omega)
  simp only [view, exponentField, fractionField, negative, hbits]
  rw [magnitude]
  rcases Nat.lt_or_ge m (2 ^ 52) with hfew | hmany
  · -- without the leading bit: the exponent field is zero
    obtain rfl : e = -1074 := h.full.resolve_left (Nat.not_le.mpr hfew)
    rw [if_pos hfew, if_neg (by omega), if_pos (by omega)]
    rw [Nat.mod_eq_of_lt hfew, decide_eq_false (by omega)]
  · -- the leading bit carries into the exponent field
    obtain ⟨k, hk⟩ : ∃ k : Nat, e = k - 1074 := ⟨(e + 1074).toNat, by omega⟩
    subst hk
    have hfield : ((k : Int) - 1074 + 1074).toNat = k := by omega
    rw [if_neg (Nat.not_lt.mpr hmany), hfield, if_neg (by omega), if_neg (by omega),
      decide_eq_false (by omega)]
    refine congrArg₂ _ ?_ ?_ <;> omega

/-- A number is nearest to itself. -/
theorem roundsTo_self {m : Nat} {e : Int} {q : ℚ} (h : (m : ℚ) * 2 ^ e = q) : RoundsTo m e q := by
  have hquarters : (0 : ℚ) < quartersBelow m e := by
    rw [quartersBelow]
    split <;> norm_num
  have hlow : ((m : ℚ) - quartersBelow m e / 4) * 2 ^ e < q := by
    rw [← h]
    exact mul_lt_mul_of_pos_right (by linarith) (two_zpow_pos e)
  have hhigh : q < ((m : ℚ) + 1 / 2) * 2 ^ e := by
    rw [← h]
    exact mul_lt_mul_of_pos_right (by linarith) (two_zpow_pos e)
  exact ⟨hlow.le, hhigh.le, fun _ => ⟨hlow, hhigh⟩⟩

/-- A count is a floating point number itself if it has fifty-three bits at most. -/
theorem exists_view_ofNat {n : Nat} (hn : n < 2 ^ 53) :
    ∃ m e, (ofNat n).view = .finite false m e ∧ (m : ℚ) * 2 ^ e = n := by
  rcases Nat.eq_zero_or_pos n with rfl | hpos
  · exact ⟨0, -1074, by decide, by simp⟩
  · have hlog : n.log2 ≤ 52 := by
      have := (Nat.log2_lt hpos.ne').mpr hn
      omega
    -- the significand has its leading bit in the first of the fifty-three places
    have hlow : 2 ^ 52 ≤ n * 2 ^ (52 - n.log2) :=
      calc 2 ^ 52 = 2 ^ n.log2 * 2 ^ (52 - n.log2) := by
            rw [← Nat.pow_add, Nat.add_sub_cancel' hlog]
        _ ≤ n * 2 ^ (52 - n.log2) := Nat.mul_le_mul_right _ (Nat.log2_self_le hpos.ne')
    have hhigh : n * 2 ^ (52 - n.log2) < 2 ^ 53 :=
      calc n * 2 ^ (52 - n.log2) < 2 ^ (n.log2 + 1) * 2 ^ (52 - n.log2) :=
            Nat.mul_lt_mul_of_pos_right Nat.lt_log2_self (Nat.two_pow_pos _)
        _ = 2 ^ 53 := by
            rw [← Nat.pow_add]
            congr 1
            omega
    have hvalue : ((n * 2 ^ (52 - n.log2) : Nat) : ℚ) * 2 ^ ((n.log2 : Int) - 52) = n := by
      rw [Nat.cast_mul, Nat.cast_pow, Nat.cast_ofNat, ← zpow_natCast, mul_assoc,
        ← zpow_add₀ two_ne_zero, Nat.cast_sub hlog, Nat.cast_ofNat, sub_add_sub_cancel', sub_self,
        zpow_zero, mul_one]
    have hview :=
      view_ofMagnitude (e := (n.log2 : Int) - 52) ⟨hhigh, by omega, by omega, Or.inl hlow⟩
    refine ⟨_, _, ?_, hvalue⟩
    rw [ofNat, ofRatio_of_roundsTo hview (Nat.mul_pos hpos (Nat.two_pow_pos _)) Nat.one_pos]
    · exact hview
    · rw [Nat.cast_one, div_one]
      exact roundsTo_self hvalue

/-- The quotient of two counts is their ratio, rounded once. -/
theorem ofNat_div_ofNat {a b : Nat} (ha : a < 2 ^ 53) (hb : 0 < b) (hb' : b < 2 ^ 53) :
    ofNat a / ofNat b = ofRatio false a b := by
  obtain ⟨m, e, hm, hvalue⟩ := exists_view_ofNat ha
  obtain ⟨n, f, hn, hvalue'⟩ := exists_view_ofNat hb'
  have hn0 : n ≠ 0 := by
    rintro rfl
    rw [Nat.cast_zero, zero_mul] at hvalue'
    exact hb.ne (by exact_mod_cast hvalue')
  show div (ofNat a) (ofNat b) = _
  rw [div, hm, hn]
  simp only [if_neg hn0]
  -- both numbers are exact, so their quotient is the ratio that is rounded
  refine ofRatio_congr _ (scaleRatio_pos two_pos (Nat.pos_of_ne_zero hn0) _ _) hb ?_
  refine (ratio_scaleRatio 2 (e - f) m n).trans ?_
  rw [← hvalue, ← hvalue', Nat.cast_ofNat, zpow_sub₀ two_ne_zero]
  field_simp

end CoChange.Binary64
