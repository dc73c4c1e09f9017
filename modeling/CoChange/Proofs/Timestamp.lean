import CoChange.Proofs.Text
import CoChange.Proofs.Text.Trim
import CoChange.Timestamp

/-!
# Written points in time are read back

* **`dayNumber_yearOf_monthOf`**: the year, the month and the day of the month of a day give the day
  back. The year is an estimate put right by one (`daysBeforeYear_bounds`), and within a year there
  are two tables of months only (`monthOf_congr`).
* **`parse?_render`**: a point in time is read back from its text, if the year can be read and the
  nanoseconds are those of a second (`Timestamp.Valid`).
-/

namespace CoChange.Timestamp

/-! ## The calendar -/

/-- The next year begins after as many days as the year has. -/
theorem daysBeforeYear_succ (year : Int) :
    daysBeforeYear (year + 1) = daysBeforeYear year + if isLeapYear year then 366 else 365 := by
  unfold daysBeforeYear isLeapYear
  by_cases h4 : year % 4 = 0
  · by_cases h100 : year % 100 = 0
    · by_cases h400 : year % 400 = 0
      · simp only [h4, h100, h400, BEq.rfl, bne_self_eq_false, Bool.false_or, Bool.true_and,
          if_true]
        omega
      · have hb : (year % 400 == 0) = false := by simpa using h400
        simp only [h4, h100, hb, BEq.rfl, bne_self_eq_false, Bool.or_self, Bool.and_false,
          Bool.false_eq_true, if_false]
        omega
    · have hb : (year % 100 != 0) = true := by simpa using h100
      simp only [h4, hb, BEq.rfl, Bool.true_or, Bool.and_self, if_true]
      omega
  · have hb : (year % 4 == 0) = false := by simpa using h4
    simp only [hb, Bool.false_and, Bool.false_eq_true, if_false]
    omega

/-- The days before a year are about as many as the mean length of a year says. -/
theorem daysBeforeYear_bounds (year : Int) :
    146097 * (year - 1970) - 600 ≤ 400 * daysBeforeYear year ∧
      400 * daysBeforeYear year ≤ 146097 * (year - 1970) + 600 := by
  simp only [daysBeforeYear]
  omega

/-- **The year of a day is the one that the day lies in.** The first guess comes from the mean
length of a year, and is put right by one year at most. -/
theorem daysBeforeYear_yearOf (day : Int) :
    daysBeforeYear (yearOf day) ≤ day ∧ day < daysBeforeYear (yearOf day + 1) := by
  unfold yearOf
  -- the guess from the mean length of a year is at most one year off
  have hguess := daysBeforeYear_bounds (1970 + day * 400 / 146097)
  have hbefore := daysBeforeYear_bounds (1970 + day * 400 / 146097 - 1)
  have hafter := daysBeforeYear_bounds (1970 + day * 400 / 146097 + 1)
  have hafter' := daysBeforeYear_bounds (1970 + day * 400 / 146097 + 1 + 1)
  simp only
  split
  · rename_i h
    rw [Int.sub_add_cancel]
    exact ⟨by omega, h⟩
  · split
    · rename_i h
      exact ⟨h, by omega⟩
    · rename_i h h'
      exact ⟨by omega, by omega⟩

theorem daysInMonth_congr {year year' : Int} (h : isLeapYear year = isLeapYear year')
    (month : Nat) :
    daysInMonth year month = daysInMonth year' month := by
  rw [daysInMonth, daysInMonth, h]

theorem daysBeforeMonth_congr {year year' : Int} (h : isLeapYear year = isLeapYear year')
    (month : Nat) : daysBeforeMonth year month = daysBeforeMonth year' month := by
  simp only [daysBeforeMonth, daysInMonth_congr h]

theorem monthOf_congr {year year' : Int} (h : isLeapYear year = isLeapYear year')
    (dayOfYear : Nat) :
    monthOf year dayOfYear = monthOf year' dayOfYear := by
  simp only [monthOf, daysBeforeMonth_congr h]

theorem daysInMonth_le (year : Int) (month : Nat) : daysInMonth year month ≤ 31 := by
  unfold daysInMonth
  repeat' split
  all_goals omega

/-- A month and a day of it that make up a day of a year. -/
structure IsDate (year : Int) (dayOfYear month day : Nat) : Prop where
  month_pos : 1 ≤ month
  month_le : month ≤ 12
  day_pos : 1 ≤ day
  day_le : day ≤ daysInMonth year month
  sum : daysBeforeMonth year month + (day - 1) = dayOfYear

instance (year : Int) (dayOfYear month day : Nat) : Decidable (IsDate year dayOfYear month day) :=
  decidable_of_iff (1 ≤ month ∧ month ≤ 12 ∧ 1 ≤ day ∧ day ≤ daysInMonth year month ∧
    daysBeforeMonth year month + (day - 1) = dayOfYear)
    ⟨fun ⟨a, b, c, d, e⟩ => ⟨a, b, c, d, e⟩, fun ⟨a, b, c, d, e⟩ => ⟨a, b, c, d, e⟩⟩

theorem isDate_monthOf_leap :
    ∀ d < 366, IsDate 2000 d (monthOf 2000 d).1 (monthOf 2000 d).2 := by
  decide +kernel

theorem isDate_monthOf_common :
    ∀ d < 365, IsDate 2001 d (monthOf 2001 d).1 (monthOf 2001 d).2 := by
  decide +kernel

/-- **The month of a day of a year, and the day of the month, make up the day.** Whole months are
taken off as long as they fit, and the length of February goes by the year. -/
theorem isDate_monthOf {year : Int} {day : Nat}
    (h : (day : Int) < if isLeapYear year then 366 else 365) :
    IsDate year day (monthOf year day).1 (monthOf year day).2 := by
  -- only whether the year has a leap day matters, so one year of each kind will do
  have transfer : ∀ year' : Int, isLeapYear year = isLeapYear year' →
      IsDate year' day (monthOf year' day).1 (monthOf year' day).2 →
      IsDate year day (monthOf year day).1 (monthOf year day).2 := by
    intro year' hleap hdate
    rw [monthOf_congr hleap]
    exact ⟨hdate.month_pos, hdate.month_le, hdate.day_pos, daysInMonth_congr hleap _ ▸ hdate.day_le,
      daysBeforeMonth_congr hleap _ ▸ hdate.sum⟩
  cases hleap : isLeapYear year with
  | true =>
    rw [hleap, if_pos rfl] at h
    exact transfer 2000 hleap (isDate_monthOf_leap day (by omega))
  | false =>
    rw [hleap, if_neg (by simp)] at h
    exact transfer 2001 hleap (isDate_monthOf_common day (by omega))

def dayOfYear (day : Int) : Nat := (day - daysBeforeYear (yearOf day)).toNat

/-- A day is the day of a month in its year, as the calendar counts them. -/
theorem isDate_dayOfYear (day : Int) :
    IsDate (yearOf day) (dayOfYear day) (monthOf (yearOf day) (dayOfYear day)).1
      (monthOf (yearOf day) (dayOfYear day)).2 := by
  obtain ⟨hfrom, hto⟩ := daysBeforeYear_yearOf day
  rw [daysBeforeYear_succ] at hto
  refine isDate_monthOf ?_
  rw [dayOfYear, Int.toNat_of_nonneg (by omega)]
  omega

/-- **A day is given back by its year, month and day of the month.** So a date tells its day, and
the two directions of the calendar agree. -/
theorem dayNumber_yearOf_monthOf (day : Int) :
    dayNumber (yearOf day) (monthOf (yearOf day) (dayOfYear day)).1
      (monthOf (yearOf day) (dayOfYear day)).2 = day := by
  have hsum := (isDate_dayOfYear day).sum
  have hfrom := (daysBeforeYear_yearOf day).1
  have hday : (dayOfYear day : Int) = day - daysBeforeYear (yearOf day) :=
    Int.toNat_of_nonneg (by omega)
  rw [dayNumber]
  omega

/-! ## Parts of the text -/

/-- A text that begins with something else than a blank. -/
theorem skipBlanks_cons {c : Char} (h : Text.isBlank c = false) (cs : List Char) :
    skipBlanks (c :: cs) = c :: cs :=
  Text.trimLeft_cons h cs

theorem skipBlanks_digits {ds : List Char} (hds : ∀ c ∈ ds, c.isDigit = true) (hne : ds ≠ [])
    (rest : List Char) : skipBlanks (ds ++ rest) = ds ++ rest := by
  cases ds with
  | nil => exact absurd rfl hne
  | cons d ds => exact skipBlanks_cons (Text.isBlank_of_isDigit (hds d List.mem_cons_self)) _

/-- Digits that fill the width, or end before it, are all taken. -/
theorem takeWhile_take_digits {width : Nat} {ds rest : List Char}
    (hds : ∀ c ∈ ds, c.isDigit = true)
    (hwidth : ds.length = width ∨ (ds.length ≤ width ∧ Decimal.NoDigit rest)) :
    ((ds ++ rest).take width).takeWhile Char.isDigit = ds := by
  rcases hwidth with hlength | ⟨hlength, hrest⟩
  · rw [← hlength, List.take_left]
    exact List.takeWhile_eq_self_iff.mpr hds
  · rw [List.take_append, List.take_of_length_le hlength]
    refine Decimal.takeWhile_digits hds fun c hc => hrest c ?_
    -- what is left of the rest begins as the rest does
    cases rest with
    | nil => simp at hc
    | cons d rest =>
      cases hn : width - ds.length with
      | zero => rw [hn] at hc; simp at hc
      | succ n => rw [hn] at hc; exact hc

/-- A number is taken from its digits, up to the width or to where they end. -/
theorem takeNumber?_digits {width : Nat} {ds rest : List Char} (hds : ∀ c ∈ ds, c.isDigit = true)
    (hne : ds ≠ []) (hwidth : ds.length = width ∨ (ds.length ≤ width ∧ Decimal.NoDigit rest)) :
    takeNumber? width (ds ++ rest) = some (Decimal.ofDigits ds, rest) := by
  have hempty : ds.isEmpty = false := List.isEmpty_eq_false_iff.mpr hne
  rw [takeNumber?, takeWhile_take_digits hds hwidth]
  simp only [hempty, Bool.false_eq_true, if_false, List.drop_left]

theorem toList_pad (width n : Nat) :
    (pad width n).toList =
      List.replicate (width - (Nat.toDigits 10 n).length) '0' ++ Nat.toDigits 10 n := by
  rw [pad, String.toList_append, String.toList_ofList (l := List.replicate _ _),
    Decimal.toList_toString, String.length, Decimal.toList_toString]

/-- A number that is filled up with zeros. -/
structure IsPadded (width n : Nat) (ds : List Char) : Prop where
  digits : ∀ c ∈ ds, c.isDigit = true
  value : Decimal.ofDigits ds = n
  nonempty : ds ≠ []
  length : n < 10 ^ width → ds.length = width

/-- A number is padded with zeros to a width, or is longer than that by itself. -/
theorem isPadded_pad (width : Nat) (hwidth : 0 < width) (n : Nat) :
    IsPadded width n (pad width n).toList := by
  rw [toList_pad]
  refine ⟨fun c hc => ?_, ?_, ?_, fun h => ?_⟩
  · rcases List.mem_append.mp hc with hc | hc
    · rw [(List.mem_replicate.mp hc).2]
      rfl
    · exact Decimal.isDigit_toDigits n c hc
  · rw [Decimal.ofDigits_replicate_append, Decimal.ofDigits_toDigits]
  · exact List.append_ne_nil_of_right_ne_nil _ Nat.toDigits_ne_nil
  · have hlength := (Nat.length_toDigits_le_iff (b := 10) (by decide) hwidth).mpr h
    rw [List.length_append, List.length_replicate]
    omega

/-- A field of two digits is taken back as the number that was padded, if that is in the range. -/
theorem takeField?_pad {low high n : Nat} (hlow : low ≤ n) (hhigh : n ≤ high) (hn : n < 100)
    (rest : List Char) :
    takeField? low high ((pad 2 n).toList ++ rest) = some (n, rest) := by
  have hpad := isPadded_pad 2 (by decide) n
  rw [takeField?, skipBlanks_digits hpad.digits hpad.nonempty,
    takeNumber?_digits hpad.digits hpad.nonempty (Or.inl (hpad.length hn)), hpad.value]
  simp [hlow, hhigh]

theorem takeMark?_cons {mark : Char} (h : Text.isBlank mark = false) (rest : List Char) :
    takeMark? mark (mark :: rest) = some rest := by
  rw [takeMark?, skipBlanks_cons h]
  simp

/-- A year of four digits is taken, without a sign. -/
theorem takeYear?_digits {ds rest : List Char} (hds : ∀ c ∈ ds, c.isDigit = true) (hne : ds ≠ [])
    (hlength : ds.length = 4) :
    takeYear? (ds ++ rest) = some ((Decimal.ofDigits ds : Int), rest) := by
  have hread : takeNumber? 4 (ds ++ rest) = some (Decimal.ofDigits ds, rest) :=
    takeNumber?_digits hds hne (Or.inl hlength)
  have hskip := skipBlanks_digits hds hne rest
  obtain ⟨d, ds', rfl⟩ := List.exists_cons_of_ne_nil hne
  have hd : d.isDigit = true := hds d List.mem_cons_self
  rw [takeYear?, hskip]
  split
  · rename_i heq
    rw [(List.cons.inj heq).1] at hd
    exact absurd hd (by decide)
  · rename_i heq
    rw [(List.cons.inj heq).1] at hd
    exact absurd hd (by decide)
  · rw [hread, Option.map_some]

/-- A year with a sign may have any number of digits. -/
theorem takeYear?_signed {ds rest : List Char} (hds : ∀ c ∈ ds, c.isDigit = true) (hne : ds ≠ [])
    (hrest : Decimal.NoDigit rest) {year : Int} (hvalue : Decimal.ofDigits ds = year.natAbs) :
    takeYear? ((if year < 0 then "-" else "+").toList ++ (ds ++ rest)) = some (year, rest) := by
  have hread : takeNumber? (ds ++ rest).length (ds ++ rest) = some (year.natAbs, rest) := by
    rw [takeNumber?_digits hds hne (Or.inr ⟨by rw [List.length_append]; omega, hrest⟩), hvalue]
  by_cases hneg : year < 0
  · have habs : -(year.natAbs : Int) = year := by omega
    rw [if_pos hneg]
    show takeYear? ('-' :: (ds ++ rest)) = _
    rw [takeYear?, skipBlanks_cons (by decide)]
    simp only
    rw [hread, Option.map_some, habs]
  · have habs : (year.natAbs : Int) = year := by omega
    rw [if_neg hneg]
    show takeYear? ('+' :: (ds ++ rest)) = _
    rw [takeYear?, skipBlanks_cons (by decide)]
    simp only
    rw [hread, Option.map_some, habs]

/-- A year is read back; what follows it is no digit. -/
theorem takeYear?_renderYear (year : Int) {rest : List Char} (hrest : Decimal.NoDigit rest) :
    takeYear? ((renderYear year).toList ++ rest) = some (year, rest) := by
  rw [renderYear]
  by_cases hplain : 0 ≤ year ∧ year ≤ 9999
  · rw [if_pos (by simpa using hplain)]
    have hpad := isPadded_pad 4 (by decide) year.toNat
    rw [takeYear?_digits hpad.digits hpad.nonempty (hpad.length (by omega)), hpad.value,
      Int.toNat_of_nonneg hplain.1]
  · rw [if_neg (by simpa using hplain), String.toList_append, List.append_assoc]
    -- a year of more than four digits has a sign
    have hpad := isPadded_pad 4 (by decide) year.natAbs
    exact takeYear?_signed hpad.digits hpad.nonempty hrest hpad.value

theorem noDigit_zone : Decimal.NoDigit ['Z'] := by
  intro c hc
  rw [List.head?_cons, Option.mem_some_iff] at hc
  rw [← hc]
  rfl

/-- Up to nine digits behind a point are read, and stand for that many of nine. -/
theorem takeFraction?_point {ds : List Char} (hds : ∀ c ∈ ds, c.isDigit = true) (hne : ds ≠ [])
    (hlength : ds.length ≤ 9) :
    takeFraction? ('.' :: (ds ++ ['Z'])) =
      some (Decimal.ofDigits ds * 10 ^ (9 - ds.length), ['Z']) := by
  have hempty : ds.isEmpty = false := List.isEmpty_eq_false_iff.mpr hne
  rw [takeFraction?, takeWhile_take_digits hds (Or.inr ⟨hlength, noDigit_zone⟩)]
  simp only [hempty, Bool.false_eq_true, if_false, Decimal.dropWhile_digits hds noDigit_zone]

theorem toList_point_append (s : String) (rest : List Char) :
    ("." ++ s).toList ++ rest = '.' :: (s.toList ++ rest) := by
  rw [String.toList_append, List.append_assoc]
  rfl

/-- A fraction of a second is read back: what is not written is zeros. -/
theorem takeFraction?_renderFraction {nanos : Nat} (h : nanos < 1000000000) :
    takeFraction? ((renderFraction nanos).toList ++ ['Z']) = some (nanos, ['Z']) := by
  have hread : ∀ width n, 0 < width → width ≤ 9 → n < 10 ^ width →
      takeFraction? (("." ++ pad width n).toList ++ ['Z']) =
        some (n * 10 ^ (9 - width), ['Z']) := by
    intro width n hpos hwidth hn
    have hpad := isPadded_pad width hpos n
    rw [toList_point_append, takeFraction?_point hpad.digits hpad.nonempty
      (by rw [hpad.length hn]; exact hwidth), hpad.value, hpad.length hn]
  rw [renderFraction]
  -- as many digits are written as are needed: none, three, six or nine
  by_cases hzero : nanos = 0
  · rw [if_pos hzero, hzero]
    rfl
  by_cases hmilli : nanos % 1000000 = 0
  · have hvalue : nanos / 1000000 * 10 ^ (9 - 3) = nanos := by omega
    rw [if_neg hzero, if_pos hmilli, hread 3 _ (by decide) (by decide) (by omega), hvalue]
  by_cases hmicro : nanos % 1000 = 0
  · have hvalue : nanos / 1000 * 10 ^ (9 - 6) = nanos := by omega
    rw [if_neg hzero, if_neg hmilli, if_pos hmicro, hread 6 _ (by decide) (by decide) (by omega),
      hvalue]
  · have hvalue : nanos * 10 ^ (9 - 9) = nanos := by omega
    rw [if_neg hzero, if_neg hmilli, if_neg hmicro, hread 9 _ (by decide) (by decide) (by omega),
      hvalue]

/-! ## Points in time -/

/-- A point in time that has a text which is read: of a year that is not too far away, and with
nanoseconds of one second, or of a leap second at the end of a minute. -/
structure Valid (t : Timestamp) : Prop where
  year : (yearOf (t.seconds / 86400)).natAbs ≤ 262142
  nanos : t.nanos < 1000000000 ∨ (t.nanos < 2000000000 ∧ t.seconds % 60 = 59)

theorem toList_joined (y m d h n s f : String) :
    (y ++ "-" ++ m ++ "-" ++ d ++ "T" ++ h ++ ":" ++ n ++ ":" ++ s ++ f ++ "Z").toList =
      y.toList ++ '-' :: (m.toList ++ '-' :: (d.toList ++ 'T' :: (h.toList ++ ':' ::
        (n.toList ++ ':' :: (s.toList ++ (f.toList ++ ['Z'])))))) := by
  simp

/-- A date is taken from its year, month and day, one behind the other. -/
theorem takeDate?_of_parts {cs c₁ c₂ rest : List Char} {year : Int} {month day : Nat}
    (hyear : takeYear? cs = some (year, '-' :: c₁))
    (hmonth : takeField? 1 12 c₁ = some (month, '-' :: c₂))
    (hday : takeField? 1 31 c₂ = some (day, rest)) :
    takeDate? cs = some ((year, month, day), rest) := by
  have hdash : ∀ cs, takeMark? '-' ('-' :: cs) = some cs := takeMark?_cons rfl
  simp [takeDate?, hyear, hdash, hmonth, hday]

/-- A time of day is taken from its hour, minute, second and fraction, one behind the other. -/
theorem takeTime?_of_parts {cs c₁ c₂ c₃ rest : List Char} {hour minute second nanos : Nat}
    (hhour : takeField? 0 23 cs = some (hour, ':' :: c₁))
    (hminute : takeField? 0 59 c₁ = some (minute, ':' :: c₂))
    (hsecond : takeField? 0 60 c₂ = some (second, c₃))
    (hfraction : takeFraction? c₃ = some (nanos, rest)) :
    takeTime? cs = some ((hour, minute, second, nanos), rest) := by
  have hcolon : ∀ cs, takeMark? ':' (':' :: cs) = some cs := takeMark?_cons rfl
  simp [takeTime?, hhour, hcolon, hminute, hsecond, hfraction]

/-- What is read from a date and a time in UTC. -/
theorem parse?_of_parts (text : String) {year : Int} {month day hour minute second nanos : Nat}
    {cs : List Char} (hdate : takeDate? text.toList = some ((year, month, day), 'T' :: cs))
    (htime : takeTime? cs = some ((hour, minute, second, nanos), ['Z']))
    (hdays : day ≤ daysInMonth year month) (hfar : year.natAbs ≤ 262142) :
    parse? text = some ⟨dayNumber year month day * 86400 +
        (hour * 3600 + minute * 60 + min second 59 : Nat) - 0,
      if second = 60 then nanos + 1000000000 else nanos⟩ := by
  have hzone : takeOffset? (skipBlanks ['Z']) = some (0, []) := rfl
  -- nothing is left behind the zone, and all parts are in range
  have hlast : (!(skipBlanks []).isEmpty || decide (day > daysInMonth year month) ||
      decide (86400 ≤ (0 : Int).natAbs) || decide (262142 < year.natAbs)) = false := by
    simp [skipBlanks, Text.trimLeft, hdays, hfar]
  have hseparator : takeSeparator? ('T' :: cs) = some cs := rfl
  simp only [parse?, hdate, hseparator, htime, hzone, hlast, Option.bind_eq_bind, Option.bind_some,
    Bool.false_eq_true, if_false]
  rfl

/-- **A point in time is read back from its text.** Each part of the text is taken as it was padded,
and the date gives the day back. -/
theorem parse?_render {t : Timestamp} (h : t.Valid) : parse? t.render = some t := by
  obtain ⟨seconds, nanos⟩ := t
  obtain ⟨hyear, hnanos⟩ := h
  have hdate := isDate_dayOfYear (seconds / 86400)
  have hnumber := dayNumber_yearOf_monthOf (seconds / 86400)
  simp only at hyear hnanos
  have hmonth := hdate.month_le
  have hdays : (monthOf (yearOf (seconds / 86400)) (dayOfYear (seconds / 86400))).2 ≤ 31 :=
    Nat.le_trans hdate.day_le (daysInMonth_le _ _)
  have hdash : ∀ cs, Decimal.NoDigit ('-' :: cs) := fun cs c hc => by
    rw [List.head?_cons, Option.mem_some_iff] at hc
    rw [← hc]
    rfl
  have hread := parse?_of_parts (render ⟨seconds, nanos⟩)
    (by
      rw [render, toList_joined]
      exact takeDate?_of_parts (takeYear?_renderYear _ (hdash _))
        (takeField?_pad hdate.month_pos hdate.month_le (by omega) _)
        (takeField?_pad hdate.day_pos hdays (by omega) _))
    (takeTime?_of_parts
      (takeField?_pad (Nat.zero_le ((seconds % 86400).toNat / 3600)) (by omega) (by omega) _)
      (takeField?_pad (Nat.zero_le ((seconds % 86400).toNat / 60 % 60)) (by omega) (by omega) _)
      (takeField?_pad (Nat.zero_le ((seconds % 86400).toNat % 60 + nanos / 1000000000)) (by omega)
        (by omega) _)
      (takeFraction?_renderFraction (Nat.mod_lt nanos (by decide))))
    hdate.day_le hyear
  rw [hnumber] at hread
  refine hread.trans (congrArg some ?_)
  rw [Timestamp.mk.injEq]
  constructor
  · omega
  · -- a leap second is the last second of its minute with more than a second of nanoseconds
    split <;> omega

end CoChange.Timestamp
