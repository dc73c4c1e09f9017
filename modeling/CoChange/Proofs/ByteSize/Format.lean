import CoChange.Proofs.Binary64.Truncation
import CoChange.Proofs.ByteSize.Parse

/-!
# Written sizes come near

The unit that a size is written in and the unit that is read are chosen apart from each other, and
the number between them is rounded to one decimal place, read, rounded to a floating point number
and cut off.

* **`parse_amount`**: what is read as a number is read as a number of units with the name of a unit
  behind it.
* **`displayPower_spec`**: a size is written in a unit that it reaches.
* **`parse_format`**: so a size of fifty-three bits is read back, exactly if it is a multiple of its
  unit, and a twentieth of the unit and one byte off at most if it is not.
-/

namespace CoChange

open Decimal (roundDiv rounds_roundDiv le_roundDiv roundDiv_le)

/-- A number with one decimal place is rounded once. -/
theorem Binary64.ofDecimal_tenths {tenths : Nat} (hpos : 0 < tenths) (hfew : tenths < 2 ^ 53) :
    ofDecimal false tenths (-1) = ofRatio false tenths 10 := by
  have hlog : tenths.log2 < 53 := (Nat.log2_lt hpos.ne').mpr hfew
  rw [ofDecimal, if_neg hpos.ne']
  simp only
  rw [if_neg (by omega), if_neg (by omega)]
  rfl

namespace ByteSize

/-! ## Tenths -/

/-- The digits of a number of tenths, with the point left out, are those of the number. -/
theorem ofDigits_tenths (tenths : Nat) :
    Decimal.ofDigits (Nat.toDigits 10 (tenths / 10) ++ Nat.toDigits 10 (tenths % 10)) = tenths := by
  rcases Nat.lt_or_ge tenths 10 with hfew | hmany
  · -- the zero before the point makes no difference
    rw [Nat.div_eq_of_lt hfew, Nat.mod_eq_of_lt hfew]
    exact (Decimal.ofDigits_replicate_append 1 _).trans (Decimal.ofDigits_toDigits tenths)
  · have hdigits := Nat.toDigits_of_base_le (by decide) hmany
    rw [Nat.toDigits_of_lt_base (Nat.mod_lt tenths (by decide)), ← hdigits,
      Decimal.ofDigits_toDigits]

/-- A number of tenths is written as a numeral: digits, a point and one more digit. -/
theorem numeral_renderTenths (tenths : Nat) :
    Numeral (renderTenths tenths).toList
      (Nat.toDigits 10 (tenths / 10)) (Nat.toDigits 10 (tenths % 10)) [] 0 where
  parts := by
    obtain ⟨d, ds, hds, -⟩ := Json.exists_toDigits_cons (tenths % 10)
    rw [renderTenths, String.toList_append, String.toList_append, Decimal.toList_toString,
      Decimal.toList_toString, hds, pointed_cons, List.append_nil, List.append_assoc]
    rfl
  whole_ne := Nat.toDigits_ne_nil
  whole_digits := Decimal.isDigit_toDigits _
  unpadded h := by
    rw [Decimal.head?_toDigits h]
    rfl
  fraction_digits := Decimal.isDigit_toDigits _
  exponent := .none
  marked := .inl Nat.toDigits_ne_nil

/-- **A number with one decimal place is read as its tenths.** Its digits without the point are
those of the tenths, and the point stands in front of the last one. -/
theorem parse?_renderTenths (tenths : Nat) :
    Decimal.Literal.parse? (renderTenths tenths).toList = some ⟨false, tenths, -1⟩ := by
  have hread := (numeral_renderTenths tenths).parse? false
  rw [signed, if_neg Bool.false_ne_true, Decimal.Literal.ofParts, ofDigits_tenths,
    Nat.toDigits_of_lt_base (Nat.mod_lt _ (by decide))] at hread
  exact hread

/-! ## Numbers of units -/

/-- What can be the number in front of the name of a unit. -/
structure IsAmount (amount : String) : Prop where
  ne_empty : amount ≠ ""
  isNumberChar : ∀ c ∈ amount.toList, isNumberChar c = true

/-- The digits of a number are an amount. -/
theorem isAmount_toString (n : Nat) : IsAmount (toString n) where
  ne_empty := Decimal.toString_ne_empty n
  isNumberChar := by
    rw [Decimal.toList_toString]
    exact fun c hc => isNumberChar_of_isDigit (Decimal.isDigit_toDigits n c hc)

/-- A number of tenths can stand as the amount of a byte size. -/
theorem isAmount_renderTenths (tenths : Nat) : IsAmount (renderTenths tenths) where
  ne_empty h := by
    rw [renderTenths, String.append_eq_empty_iff] at h
    exact Decimal.toString_ne_empty _ h.2
  isNumberChar := by
    rw [renderTenths, String.toList_append, String.toList_append]
    exact List.forall_mem_append.mpr ⟨List.forall_mem_append.mpr
      ⟨(isAmount_toString _).isNumberChar, List.forall_mem_singleton.mpr rfl⟩,
      (isAmount_toString _).isNumberChar⟩

/-- The name of a unit is one of its spellings. -/
theorem unitLabel_mem_spellings :
    ∀ u ≤ 4, String.ofList ((unitLabel u).toList.map Char.toUpper) ∈ spellings u := by
  decide +kernel

variable {amount : String} {power r : Nat}

/-- A number with a blank and the name of a unit behind it. -/
def IsAmount.layout (h : IsAmount amount) (hpower : power ≤ 4) : Layout where
  left := []
  amount := amount.toList
  gap := [' ']
  unit := (unitLabel power).toList
  right := []
  power := power
  blank_left := Text.blank_nil
  amount_ne := mt String.toList_eq_nil_iff.mp h.ne_empty
  isNumberChar := h.isNumberChar
  blank_gap := Text.blank_space
  spelled := unitLabel_mem_spellings power hpower
  blank_right := Text.blank_nil

/-- What is written of an amount and a unit is the amount, a blank and the label of the unit. -/
theorem IsAmount.text_layout (h : IsAmount amount) (hpower : power ≤ 4) :
    (h.layout hpower).text = amount ++ " " ++ unitLabel power := by
  rw [← String.toList_inj]
  simp [Layout.text, layout]

/-- **What is read as a number is read as a number of units with the name of a unit behind it.**
Between the two there is one blank, and the amount has no character that a unit begins with. -/
theorem parse_amount (h : IsAmount amount) (hpower : power ≤ 4) {literal : Decimal.Literal}
    (hread : Decimal.Literal.parse? amount.toList = some literal)
    (hfloor : (inBytes literal power).floor? = some r) (hword : r ≤ 2 ^ 53) :
    parse (amount ++ " " ++ unitLabel power) = .ok r := by
  have hparse := (h.layout hpower).parse_text hread
  rw [h.text_layout, show (h.layout hpower).power = power from rfl, hfloor] at hparse
  exact hparse.trans (if_pos (hword.trans_lt (by decide)))

/-! ## Written sizes -/

variable {bytes : Nat}

/-- The unit that a size is shown in is at most a terabyte, and at most the size itself unless it is
a byte. -/
theorem displayPower_spec (n : Nat) :
    displayPower n ≤ 4 ∧ (displayPower n = 0 ∨ 1024 ^ displayPower n ≤ n) := by
  unfold displayPower
  split_ifs with hbytes hkilo hmega hgiga
  · exact ⟨by decide, .inl rfl⟩
  · exact ⟨by decide, .inr (Nat.le_of_not_lt hbytes)⟩
  · exact ⟨by decide, .inr (Nat.le_of_not_lt hkilo)⟩
  · exact ⟨by decide, .inr (Nat.le_of_not_lt hmega)⟩
  · exact ⟨by decide, .inr (Nat.le_of_not_lt hgiga)⟩

/-- Below the precision of a double, a size is shown as a whole number of its unit if it is one, and
else in tenths, the half-way cases to the even one. -/
theorem format_of_lt (h : bytes < 2 ^ 53) :
    format bytes = (if bytes % 1024 ^ displayPower bytes = 0 then
      toString (bytes / 1024 ^ displayPower bytes)
      else renderTenths (roundDiv (10 * bytes) (1024 ^ displayPower bytes))) ++ " " ++
      unitLabel (displayPower bytes) := by
  rw [format, roundToDouble_of_lt h]

/-- **Multiples of a unit are read back.** The number of units is a double, and multiplying it by
the unit is exact below the bound. -/
theorem parse_whole (h : bytes < 2 ^ 53) (hpower : power ≤ 4) (hunit : 1024 ^ power ∣ bytes) :
    parse (toString (bytes / 1024 ^ power) ++ " " ++ unitLabel power) = .ok bytes := by
  have hread := Decimal.Literal.parse?_digits
    Nat.toDigits_ne_nil (Decimal.isDigit_toDigits (bytes / 1024 ^ power))
  rw [Decimal.ofDigits_toDigits, ← Decimal.toList_toString] at hread
  have hbound : bytes < Binary64.bound := h.trans_le (Binary64.two_pow_le_bound (by decide))
  refine parse_amount (isAmount_toString _) hpower hread ?_ h.le
  rw [inBytes_whole _ hpower, Nat.div_mul_cancel hunit, Binary64.floor?_ofNat,
    roundToDouble_of_lt h, if_pos hbound]

/-- Rounded to tenths, a number of units is a twentieth of the unit off at most. -/
theorem abs_tenths_sub_le {unit : Nat} (hunit : 0 < unit) (n : Nat) :
    |(roundDiv (10 * n) unit : ℚ) / 10 * unit - n| ≤ unit / 20 := by
  have hcast : (0 : ℚ) < unit := Nat.cast_pos.mpr hunit
  obtain ⟨hlow, hhigh⟩ := rounds_roundDiv (10 * n) hunit
  rw [Nat.cast_mul, Nat.cast_ofNat, le_div_iff₀ hcast] at hlow
  rw [Nat.cast_mul, Nat.cast_ofNat, div_le_iff₀ hcast] at hhigh
  rw [abs_le]
  constructor <;> linarith

/-- The tenths of a unit that is reached are ten at least, and `2 ^ 53` bytes at most. -/
theorem tenths_between (h : bytes < 2 ^ 53) (hpower : power ≤ 4) (hreached : 1024 ^ power ≤ bytes) :
    10 ≤ roundDiv (10 * bytes) (1024 ^ power) ∧
    roundDiv (10 * bytes) (1024 ^ power) ≤ 10 * 2 ^ (53 - 10 * power) := by
  have hunit : 0 < 1024 ^ power := Nat.pow_pos (by decide)
  have hcast : (0 : ℚ) < (1024 ^ power : Nat) := Nat.cast_pos.mpr hunit
  have hsplit : 2 ^ (53 - 10 * power) * 1024 ^ power = 2 ^ 53 := by
    rw [unit_eq_two_pow, ← Nat.pow_add, Nat.sub_add_cancel (by omega)]
  constructor
  · refine le_roundDiv hunit ((le_div_iff₀ hcast).mpr ?_)
    exact_mod_cast Nat.mul_le_mul_left 10 hreached
  · refine roundDiv_le hunit ((div_le_iff₀ hcast).mpr ?_)
    have hle : 10 * bytes ≤ 10 * 2 ^ (53 - 10 * power) * 1024 ^ power := by
      rw [Nat.mul_assoc, hsplit]
      omega
    exact_mod_cast hle

/-- So many tenths of a unit are `2 ^ 53` bytes at most. -/
theorem tenths_fit {tenths : Nat} (hpower : power ≤ 4) (h : tenths ≤ 10 * 2 ^ (53 - 10 * power)) :
    (tenths : ℚ) / (10 : Nat) * 2 ^ (10 * power) ≤ 2 ^ 53 := by
  have hle : (tenths : ℚ) ≤ 10 * 2 ^ (53 - 10 * power) := by exact_mod_cast h
  calc (tenths : ℚ) / (10 : Nat) * 2 ^ (10 * power) ≤ 2 ^ (53 - 10 * power) * 2 ^ (10 * power) := by
        refine mul_le_mul_of_nonneg_right ?_ (pow_pos two_pos _).le
        push_cast
        linarith
    _ = 2 ^ 53 := by rw [← pow_add, Nat.sub_add_cancel (by omega)]

/-- **Other sizes are read with an error**: that of the decimal place, and less than a byte from
what follows. -/
theorem exists_parse_tenths (h : bytes < 2 ^ 53) (hpower : power ≤ 4) (hone : power ≠ 0)
    (hreached : 1024 ^ power ≤ bytes) :
    ∃ r : Nat, parse (renderTenths (roundDiv (10 * bytes) (1024 ^ power)) ++
      " " ++ unitLabel power) = .ok r ∧
      |(r : ℚ) - bytes| ≤ 1024 ^ power / 20 + 1 := by
  have hpos : 0 < 1024 ^ power := Nat.pow_pos (by decide)
  have herror := abs_tenths_sub_le hpos bytes
  obtain ⟨hlow, hhigh⟩ := tenths_between h hpower hreached
  generalize roundDiv (10 * bytes) (1024 ^ power) = tenths at herror hlow hhigh ⊢
  have hfew : tenths < 2 ^ 53 := by
    have := Nat.pow_le_pow_right two_pos (show 53 - 10 * power ≤ 43 by omega)
    omega
  have hunit : (1024 : ℚ) ^ power = 2 ^ (10 * power) := by
    exact_mod_cast unit_eq_two_pow power
  have hten : 1 ≤ (tenths : ℚ) / (10 : Nat) := by
    have : (10 : ℚ) ≤ tenths := by exact_mod_cast hlow
    push_cast
    linarith
  obtain ⟨r, hfloor, hword, hnear⟩ :=
    Binary64.exists_floor?_mul_two_pow
      (by decide) hten (show 10 * power < 53 by omega) (tenths_fit hpower hhigh)
  refine ⟨r, parse_amount (isAmount_renderTenths tenths)
    hpower (parse?_renderTenths tenths) ?_ hword, ?_⟩
  · rw [inBytes, unit_eq_two_pow, Decimal.Literal.toBinary64,
      Binary64.ofDecimal_tenths (by omega) hfew]
    exact hfloor
  · -- the tenths are off by a twentieth of the unit, and the fraction of a byte is lost
    have htriangle := abs_sub_le (r : ℚ) ((tenths : ℚ) / 10 * 2 ^ (10 * power)) bytes
    push_cast at herror hnear
    rw [hunit] at herror ⊢
    linarith

/-- **Written sizes come near.** A size of fifty-three bits is written as a number and the name of a
unit. What is written is read, as the same size if that is a multiple of the unit, and otherwise as
a size that is a twentieth of the unit and one byte off at most. -/
theorem parse_format (h : bytes < 2 ^ 53) :
    ∃ amount power r, format bytes = amount ++ " " ++ unitLabel power ∧
      (∀ c ∈ amount.toList, isNumberChar c = true) ∧ power ≤ 4 ∧ parse (format bytes) = .ok r ∧
      (1024 ^ power ∣ bytes → r = bytes) ∧
      (¬ 1024 ^ power ∣ bytes → |(r : ℚ) - bytes| ≤ 1024 ^ power / 20 + 1) := by
  obtain ⟨hpower, hreached⟩ := displayPower_spec bytes
  have hformat := format_of_lt h
  by_cases hunit : 1024 ^ displayPower bytes ∣ bytes
  · rw [if_pos (Nat.mod_eq_zero_of_dvd hunit)] at hformat
    refine ⟨_, _, bytes, hformat, (isAmount_toString _).isNumberChar, hpower, ?_, fun _ => rfl,
      fun hnot => absurd hunit hnot⟩
    rw [hformat]
    exact parse_whole h hpower hunit
  · -- everything is a multiple of a byte
    have hone : displayPower bytes ≠ 0 := by
      intro hzero
      rw [hzero, Nat.pow_zero] at hunit
      exact hunit (Nat.one_dvd bytes)
    obtain ⟨r, hparse, hnear⟩ := exists_parse_tenths h hpower hone (hreached.resolve_left hone)
    rw [if_neg (mt Nat.dvd_of_mod_eq_zero hunit)] at hformat
    refine ⟨_, _, r, hformat, (isAmount_renderTenths _).isNumberChar,
      hpower, ?_, fun hdvd => absurd hdvd hunit,
      fun _ => hnear⟩
    rw [hformat]
    exact hparse

/-- A size just below a unit is written, and read, as that unit. -/
theorem parse_format_sample :
    1048575 < 2 ^ 53 ∧ format 1048575 = "1024.0 KB" ∧ parse "1024.0 KB" = .ok 1048576 ∧
    ∃ amount power, "1024.0 KB" = amount ++ " " ++ unitLabel power ∧ power ≤ 4 ∧
      (¬ 1024 ^ power ∣ 1048575 → |(1048576 : ℚ) - 1048575| ≤ 1024 ^ power / 20 + 1) := by
  have hformat : format 1048575 = "1024.0 KB" := by decide +kernel
  have hparse : parse "1024.0 KB" = .ok 1048576 := by decide +kernel
  obtain ⟨amount, power, r, hunit, -, hpower, hread, -, hnear⟩ :=
    parse_format (show 1048575 < 2 ^ 53 by decide)
  rw [hformat] at hunit hread
  obtain rfl : 1048576 = r := Except.ok.inj (hparse.symm.trans hread)
  exact ⟨by decide, hformat, hparse, amount, power, hunit, hpower, by exact_mod_cast hnear⟩

end ByteSize

end CoChange
