import CoChange.Proofs.Binary64.Text
import CoChange.Proofs.ByteSize.Rounding
import CoChange.Proofs.Text.Trim

/-!
# Written sizes are read

A size is written as a number, often only digits (`Written`), and the name of a unit in either case.

* **`Layout.parse_text`**: in any size, the number and the unit are found whatever blanks are around
  and between.
* **`parse_written`**: digits are read as the nearest double, so exactly where the number has
  fifty-three significant bits, and are refused as too large where the nearest double does not fit
  into a word.
* **`size_read_inexactly`**: sizes of more significant bits, of which one is read as another one,
  and one is refused that fits into a word.
-/

namespace CoChange

/-! ## Upper case -/

namespace Text

variable {c : Char} {cs : List Char}

/-- In the first half of the bytes, upper case is that of a single character. -/
theorem upperChar_of_ascii (h : c.toNat < 0x80) : upperChar c = [c.toUpper] := if_pos h

/-- A text of ASCII is mapped character by character. -/
theorem toUpper_of_ascii (h : ∀ c ∈ cs, c.toNat < 0x80) : toUpper cs = cs.map Char.toUpper := by
  rw [toUpper, List.map_eq_flatMap]
  exact List.flatMap_congr fun c hc => upperChar_of_ascii (h c hc)

/-- The code points of the blanks. -/
def blankCodes : List Nat :=
  List.range' 9 5 ++ [0x20, 0x85, 0xA0, 0x1680] ++
    List.range' 0x2000 11 ++ [0x2028, 0x2029, 0x202F, 0x205F, 0x3000]

/-- The blanks are those of a list, so that what holds of all of them can be looked up. -/
theorem mem_blankCodes (h : isBlank c = true) : c.toNat ∈ blankCodes := by
  simp only [isBlank, Bool.or_eq_true, Bool.and_eq_true, decide_eq_true_eq, beq_iff_eq] at h
  simp only [blankCodes, List.mem_append, List.mem_range'_1, List.mem_cons, List.not_mem_nil,
    or_false]
  omega

/-- No blank has another upper case. -/
theorem upperChar_blankCodes : ∀ n ∈ blankCodes, upperChar (Char.ofNat n) = [Char.ofNat n] := by
    decide +kernel

/-- Blanks have no case. -/
theorem toUpper_of_blank (h : Blank cs) : toUpper cs = cs := by
  have hchar (c : Char) (hc : c ∈ cs) : upperChar c = [c] := by
    have hcode := upperChar_blankCodes _ (mem_blankCodes (h c hc))
    rwa [Char.ofNat_toNat] at hcode
  rw [toUpper, List.flatMap_congr hchar]
  exact List.flatMap_singleton' cs

/-- Upper case goes along a text. -/
theorem toUpper_append (cs cs' : List Char) : toUpper (cs ++ cs') = toUpper cs ++ toUpper cs' :=
  List.flatMap_append

theorem toNat_of_isDigit (h : c.isDigit = true) : 48 ≤ c.toNat ∧ c.toNat ≤ 57 :=
  Char.isDigit_iff_toNat.mp h

theorem toNat_of_isUpper (h : c.isUpper = true) : 65 ≤ c.toNat ∧ c.toNat ≤ 90 := by
  have hcode : 'A'.val ≤ c.val ∧ c.val ≤ 'Z'.val := of_decide_eq_true h
  exact hcode.imp UInt32.le_iff_toNat_le.mp UInt32.le_iff_toNat_le.mp

/-- Only small letters of ASCII have another upper case in ASCII. -/
theorem toUpper_cases (c : Char) : (97 ≤ c.toNat ∧ c.toNat ≤ 122) ∨ c.toUpper = c := by
  by_cases hlower : 'a'.val ≤ c.val ∧ c.val ≤ 'z'.val
  · exact .inl (hlower.imp UInt32.le_iff_toNat_le.mp UInt32.le_iff_toNat_le.mp)
  · exact .inr (dif_neg hlower)

/-- Only letters of ASCII become capital letters of ASCII. -/
theorem toNat_of_isUpper_toUpper (h : c.toUpper.isUpper = true) : 65 ≤ c.toNat ∧ c.toNat ≤ 122 := by
  rcases toUpper_cases c with hlower | hsame
  · omega
  · rw [hsame] at h
    have hcode := toNat_of_isUpper h
    omega

end Text

/-! ## Digits -/

/-- A row of digits is a literal, without a sign and with nothing behind the point. -/
theorem Decimal.Literal.parse?_digits {ds : List Char} (hne : ds ≠ [])
    (hds : ∀ c ∈ ds, c.isDigit = true) :
    Decimal.Literal.parse? ds = some ⟨false, Decimal.ofDigits ds, 0⟩ := by
  obtain ⟨d, rest, rfl⟩ := List.exists_cons_of_ne_nil hne
  have hd := hds d List.mem_cons_self
  have hspan : Decimal.spanDigits (d :: rest ++ []) = (d :: rest, []) :=
    Decimal.spanDigits_append hds fun _ h => by simp at h
  rw [List.append_nil] at hspan
  rw [parse?]
  · simp [hspan, exponent?, ofParts]
  · exact fun r heq => ne_of_isDigit hd rfl (List.cons.inj heq).1
  · exact fun r heq => ne_of_isDigit hd rfl (List.cons.inj heq).1

namespace ByteSize

/-! ## Sizes and their parts -/

/-- The names of the unit that is a power of 1024. -/
def spellings : Nat → List String
  | 0 => ["", "B", "BYTES"]
  | 1 => ["K", "KB", "KIB"]
  | 2 => ["M", "MB", "MIB"]
  | 3 => ["G", "GB", "GIB"]
  | 4 => ["T", "TB", "TIB"]
  | _ => []

/-- Every spelling of a unit is in capitals and is read as the power that it stands for. -/
theorem spellings_spec : ∀ p, ∀ s ∈ spellings p, (∀ c ∈ s.toList, c.isUpper = true) ∧
    unitPower? s.toList = some p
  | 0 | 1 | 2 | 3 | 4 => by decide +kernel
  | _ + 5 => fun _ h => absurd h List.not_mem_nil

/-- The parts of a size: what may be a number and the name of a unit in either case, with blanks
around and between. -/
structure Layout where
  left : List Char
  amount : List Char
  gap : List Char
  unit : List Char
  right : List Char
  power : Nat
  blank_left : Text.Blank left
  amount_ne : amount ≠ []
  isNumberChar : ∀ c ∈ amount, isNumberChar c = true
  blank_gap : Text.Blank gap
  spelled : String.ofList (unit.map Char.toUpper) ∈ spellings power
  blank_right : Text.Blank right

/-- Digits and the point lie in a range of a few characters, so what holds of them can be
decided. -/
theorem toNat_of_isNumberChar {c : Char} (h : isNumberChar c = true) :
    46 ≤ c.toNat ∧ c.toNat ≤ 57 := by
  rw [isNumberChar, Bool.or_eq_true, decide_eq_true_iff] at h
  rcases h with h | rfl
  · have := Text.toNat_of_isDigit h
    omega
  · decide

theorem isNumberChar_of_isDigit {c : Char} (h : c.isDigit = true) : isNumberChar c = true := by
  rw [isNumberChar, h, Bool.true_or]

/-- What may stand in an amount is no blank, so nothing of an amount is trimmed. -/
theorem isBlank_of_isNumberChar {c : Char} (h : isNumberChar c = true) :
    Text.isBlank c = false := by
  have := toNat_of_isNumberChar h
  exact Text.isBlank_of_toNat (by omega)

/-- Numbers have no case. -/
theorem toUpper_of_isNumberChar {cs : List Char} (h : ∀ c ∈ cs, isNumberChar c = true) :
    Text.toUpper cs = cs := by
  have hcode (c : Char) (hc : c ∈ cs) := toNat_of_isNumberChar (h c hc)
  have hsame (c : Char) (hc : c ∈ cs) : c.toUpper = c :=
    (Text.toUpper_cases c).resolve_left (by have := hcode c hc; omega)
  rw [Text.toUpper_of_ascii fun c hc => by have := hcode c hc; omega, List.map_congr_left hsame,
    List.map_id']

/-- The floating point number that a number of units is as bytes. -/
def inBytes (literal : Decimal.Literal) (power : Nat) : Binary64 :=
  literal.toBinary64 * Binary64.ofNat (1024 ^ power)

theorem unit_eq_two_pow (power : Nat) : 1024 ^ power = 2 ^ (10 * power) := by
  rw [Nat.pow_mul]

/-- A whole number of units is rounded once. -/
theorem inBytes_whole (n : Nat) {power : Nat} (h : power ≤ 4) :
    inBytes ⟨false, n, 0⟩ power = .ofNat (n * 1024 ^ power) := by
  show Binary64.ofDecimal false n 0 * Binary64.ofNat (1024 ^ power) = _
  rw [unit_eq_two_pow, Binary64.ofDecimal_zero, Binary64.ofNat_mul_two_pow n (by omega)]

namespace Layout

variable (l : Layout)

def text : String := String.ofList (l.left ++ l.amount ++ l.gap ++ l.unit ++ l.right)

def capitals : List Char := l.unit.map Char.toUpper

theorem isUpper_capitals : ∀ c ∈ l.capitals, c.isUpper = true := by
  have h := (spellings_spec l.power _ l.spelled).1
  rwa [String.toList_ofList] at h

/-- What the unit of a layout comes to in capitals is read as its power. -/
theorem unitPower?_capitals : unitPower? l.capitals = some l.power := by
  have h := (spellings_spec l.power _ l.spelled).2
  rwa [String.toList_ofList] at h

/-- The unit of a size is at most a terabyte. -/
theorem power_le : l.power ≤ 4 := by
  by_contra hlarge
  have hspelled := l.spelled
  obtain ⟨k, hk⟩ := Nat.exists_eq_add_of_le' (show 5 ≤ l.power by omega)
  rw [hk] at hspelled
  exact absurd hspelled List.not_mem_nil

theorem toNat_of_mem_unit {c : Char} (hc : c ∈ l.unit) : 65 ≤ c.toNat ∧ c.toNat ≤ 122 :=
  Text.toNat_of_isUpper_toUpper (l.isUpper_capitals _ (List.mem_map_of_mem hc))

theorem toUpper_unit : Text.toUpper l.unit = l.capitals :=
  Text.toUpper_of_ascii fun c hc => by have := l.toNat_of_mem_unit hc; omega

/-- Nothing is trimmed from a unit in capitals. -/
theorem trim_capitals : Text.trim l.capitals = l.capitals := by
  refine Text.trim_of_no_blank fun c hc => ?_
  have := Text.toNat_of_isUpper (l.isUpper_capitals c hc)
  exact Text.isBlank_of_toNat (by omega)

theorem isBlank_of_mem_amount {c : Char} (hc : c ∈ l.amount) : Text.isBlank c = false :=
  isBlank_of_isNumberChar (l.isNumberChar c hc)

theorem toUpper_behind : Text.toUpper (l.gap ++ l.unit) = l.gap ++ l.capitals := by
  rw [Text.toUpper_append, Text.toUpper_of_blank l.blank_gap, l.toUpper_unit]

/-- What stands behind the amount, trimmed and in capitals, is the unit. -/
theorem trim_behind : Text.trim (Text.toUpper (l.gap ++ l.unit)) = l.capitals := by
  have htrim : Text.trim (l.gap ++ l.capitals ++ []) = Text.trim l.capitals :=
    Text.trim_padded l.blank_gap Text.blank_nil
  rw [List.append_nil] at htrim
  rw [l.toUpper_behind, htrim, l.trim_capitals]

/-- Neither a blank nor a letter belongs to a number. -/
theorem stops_behind : Stops ByteSize.isNumberChar (Text.toUpper (l.gap ++ l.unit)) := by
  rw [l.toUpper_behind]
  intro c hc
  by_contra hnumber
  have hcode := toNat_of_isNumberChar ((Bool.not_eq_false _).mp hnumber)
  rcases List.mem_append.mp (List.mem_of_mem_head? hc) with hc | hc
  · have hblank := l.blank_gap c hc
    rw [Text.isBlank_of_toNat (by omega)] at hblank
    exact absurd hblank (by decide)
  · have := Text.toNat_of_isUpper (l.isUpper_capitals c hc)
    omega

/-- Between the blanks around it a size begins with its number and ends with the name of its
unit. -/
theorem trim_text (hunit : l.unit ≠ []) :
    Text.trim l.text.toList = l.amount ++ (l.gap ++ l.unit) := by
  have htrim : Text.trim (l.left ++ (l.amount ++ (l.gap ++ l.unit)) ++ l.right) =
      Text.trim (l.amount ++ (l.gap ++ l.unit)) := Text.trim_padded l.blank_left l.blank_right
  rw [← List.append_assoc, ← List.append_assoc, ← List.append_assoc] at htrim
  rw [text, String.toList_ofList, htrim, List.append_assoc]
  refine Text.trim_of_ends (fun c hc => ?_) fun c hc => ?_
  · rw [List.head?_append_of_ne_nil _ l.amount_ne] at hc
    exact l.isBlank_of_mem_amount (List.mem_of_mem_head? hc)
  · rw [← List.append_assoc, List.getLast?_append_of_ne_nil _ hunit] at hc
    have := l.toNat_of_mem_unit (List.mem_of_mem_getLast? hc)
    exact Text.isBlank_of_toNat (by omega)

/-- What is left of a size between blanks: its number, and behind it the name of its unit with
blanks before it. -/
theorem exists_trim : ∃ rest, Text.trim l.text.toList = l.amount ++ rest ∧
    Stops ByteSize.isNumberChar (Text.toUpper rest) ∧
    Text.trim (Text.toUpper rest) = l.capitals := by
  by_cases hunit : l.unit = []
  · -- without a unit the blanks behind the number belong to those at the end
    refine ⟨[], ?_, fun _ h => by simp [Text.toUpper] at h, ?_⟩
    · have htrim : Text.trim (l.left ++ l.amount ++ (l.gap ++ l.right)) = Text.trim l.amount :=
        Text.trim_padded l.blank_left (Text.blank_append.mpr ⟨l.blank_gap, l.blank_right⟩)
      rw [text, String.toList_ofList, hunit, List.append_nil, List.append_nil,
        List.append_assoc _ l.gap, htrim]
      exact Text.trim_of_no_blank fun c hc => l.isBlank_of_mem_amount hc
    · rw [capitals, hunit]
      rfl
  · exact ⟨l.gap ++ l.unit, l.trim_text hunit, l.stops_behind, l.trim_behind⟩

variable {literal : Decimal.Literal}

/-- **The number and the unit of a size are found**, and their product is cut off. Blanks at the
ends are trimmed, blanks in the middle are skipped, and the unit is looked up in any case. -/
theorem parse_text (hread : Decimal.Literal.parse? l.amount = some literal) : parse l.text =
    match (inBytes literal l.power).floor? with
    | some bytes => if bytes < 2 ^ 64 then
        .ok bytes else .error (.tooLarge (inBytes literal l.power))
    | none => .error (.tooLarge (inBytes literal l.power)) := by
  obtain ⟨rest, htrim, hstops, hunit⟩ := l.exists_trim
  have hspan : (Text.toUpper (Text.trim l.text.toList)).span ByteSize.isNumberChar =
      (l.amount, Text.toUpper rest) := by
    rw [htrim, Text.toUpper_append, toUpper_of_isNumberChar l.isNumberChar]
    exact span_append_stops l.isNumberChar hstops
  have hamount : l.amount.isEmpty = false := List.isEmpty_eq_false_iff.mpr l.amount_ne
  rw [parse]
  simp only [hspan, hamount, hread, hunit, l.unitPower?_capitals, Bool.false_eq_true, if_false]
  rfl

end Layout

/-! ## Written sizes -/

/-- A size as it is written: digits and the name of a unit in either case, with blanks around and
between. -/
structure Written where
  left : List Char
  digits : List Char
  gap : List Char
  unit : List Char
  right : List Char
  power : Nat
  blank_left : Text.Blank left
  digits_ne : digits ≠ []
  isDigit : ∀ c ∈ digits, c.isDigit = true
  blank_gap : Text.Blank gap
  spelled : String.ofList (unit.map Char.toUpper) ∈ spellings power
  blank_right : Text.Blank right

namespace Written

def text (w : Written) : String := String.ofList (w.left ++ w.digits ++ w.gap ++ w.unit ++ w.right)

def number (w : Written) : Nat := Decimal.ofDigits w.digits

def bytes (w : Written) : Nat := w.number * 1024 ^ w.power

variable (w : Written)

/-- The parts of a written size. -/
def layout : Layout :=
  ⟨w.left, w.digits, w.gap, w.unit, w.right, w.power, w.blank_left, w.digits_ne,
    fun c hc => isNumberChar_of_isDigit (w.isDigit c hc), w.blank_gap, w.spelled, w.blank_right⟩

/-- **The digits and the unit of a written size are found, and their product is rounded once.** -/
theorem parse_text : parse w.text =
    if roundToDouble w.bytes < 2 ^ 64 then
      .ok (roundToDouble w.bytes) else .error (.tooLarge (.ofNat w.bytes)) := by
  have hparse := w.layout.parse_text (Decimal.Literal.parse?_digits w.digits_ne w.isDigit)
  have hbytes : inBytes ⟨false, Decimal.ofDigits w.layout.amount, 0⟩ w.layout.power =
      .ofNat w.bytes :=
    inBytes_whole _ w.layout.power_le
  rw [hbytes, Binary64.floor?_ofNat] at hparse
  refine hparse.trans ?_
  rcases Nat.lt_or_ge (roundToDouble w.bytes) Binary64.bound with hfinite | hinfinite
  · rw [if_pos hfinite]
  · -- what is infinite is too large as well
    have hbound : 2 ^ 64 ≤ Binary64.bound := Binary64.two_pow_le_bound (by decide)
    rw [if_neg (Nat.not_lt.mpr hinfinite), if_neg (Nat.not_lt.mpr (hbound.trans hinfinite))]

end Written

/-- **A written size is read as the nearest double.** If that does not fit into a word, the size is
refused as too large. So a size is read exactly if its number has fifty-three significant bits, and
always refused if it does not fit into a word itself. -/
theorem parse_written (w : Written) :
    ((∀ r, NearestDouble w.bytes r ↔ r = roundToDouble w.bytes) ∧
      parse w.text = if roundToDouble w.bytes < 2 ^ 64 then .ok (roundToDouble w.bytes)
        else .error (.tooLarge (.ofNat w.bytes))) ∧
    (SignificantBits 53 w.number →
      parse w.text = if w.bytes < 2 ^ 64 then
        .ok w.bytes else .error (.tooLarge (.ofNat w.bytes))) ∧
    (2 ^ 64 ≤ w.bytes → parse w.text = .error (.tooLarge (.ofNat w.bytes))) := by
  have hparse := w.parse_text
  refine ⟨⟨fun r => nearestDouble_iff, hparse⟩, fun hbits => ?_, fun hlarge => ?_⟩
  · obtain ⟨m, k, hm, hnumber⟩ := hbits
    have hbytes : SignificantBits 53 w.bytes := by
      refine ⟨m, k + 10 * w.power, hm, ?_⟩
      rw [Written.bytes, hnumber, Nat.mul_assoc, Nat.pow_add, Nat.pow_mul 2 10]
    rw [hparse, hbytes.roundToDouble_eq_self]
  · have hle :=
      (nearestDouble_roundToDouble w.bytes).le_of_le (significantBits_two_pow 52 64) hlarge
    rw [hparse, if_neg (Nat.not_lt.mpr hle)]

namespace Sample

/-- A number of bytes without a unit. -/
def bare (n : Nat) : Written :=
  ⟨[], Nat.toDigits 10 n, [], [],
    [], 0, Text.blank_nil, Nat.toDigits_ne_nil, Decimal.isDigit_toDigits n,
    Text.blank_nil, List.mem_cons_self, Text.blank_nil⟩

/-- A size with a zero in front, in mixed case and with blanks around and between. -/
def padded : Written :=
  ⟨['\t'], ['0', '5', '1', '2'],
    [' '], ['m', 'I', 'b'], ['\u00A0', '\n'], 2, by decide, by decide, by decide,
    by decide, by decide +kernel, by decide⟩

end Sample

/-- Blanks around the size, a leading zero and any case of the unit make no difference. The least
number that is no size any more is refused with itself. -/
theorem parse_written_sample :
    SignificantBits 53 Sample.padded.number ∧ parse "\t0512 mIb\u00A0\n" = .ok 536870912 ∧
    2 ^ 64 ≤ (Sample.bare (2 ^ 64)).bytes ∧
    parse "18446744073709551616" = .error (.tooLarge (.ofNat (2 ^ 64))) := by
  have hbits : SignificantBits 53 Sample.padded.number := significantBits_of_lt (by decide +kernel)
  have hlarge : 2 ^ 64 ≤ (Sample.bare (2 ^ 64)).bytes := by decide +kernel
  have hread := (parse_written Sample.padded).2.1 hbits
  have hrefused := (parse_written (Sample.bare (2 ^ 64))).2.2 hlarge
  exact ⟨hbits, hread, hlarge, hrefused⟩

/-- **Not every size is read exactly.** Of two sizes that fit into a word, one is read as its even
neighbour, and the other one, the last there is, is refused as too large. -/
theorem size_read_inexactly :
    (Sample.bare 9007199254740993).text = "9007199254740993" ∧
    (Sample.bare 9007199254740993).bytes = 9007199254740993 ∧
    parse "9007199254740993" = .ok 9007199254740992 ∧
    (Sample.bare (2 ^ 64 - 1)).text = "18446744073709551615" ∧
    (Sample.bare (2 ^ 64 - 1)).bytes = 2 ^ 64 - 1 ∧
    parse "18446744073709551615" = .error (.tooLarge (.ofNat (2 ^ 64 - 1))) := by
  decide +kernel

end ByteSize

end CoChange
