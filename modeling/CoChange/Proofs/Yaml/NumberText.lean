import CoChange.Arithmetic
import CoChange.Proofs.Yaml.PlainText
import CoChange.Proofs.Yaml.Scalar
import CoChange.Yaml.Reader

/-!
# Numbers are plain scalars

A natural number of one word and a finite floating point number (`Json.Number.Legible`) are written
as plain scalars (**`plain_renderNumber`**) that stand for them (**`plainValue_renderNumber`**).
-/

namespace CoChange

/-- A number that is read back from YAML, and from JSON, too, if a floating point number is rounded
back there: a natural number of one word, or a finite floating point number. -/
def Json.Number.Legible : Json.Number → Prop
  | .int z => 0 ≤ z ∧ z < UInt64.size
  | .float x => x.isFinite = true

/-- The floating point number that a number is, if it is one. -/
def Json.Number.floats : Json.Number → List Binary64
  | .int _ => []
  | .float x => [x]

/-- Such a number is read back from JSON, if a floating point number is rounded back. -/
theorem Json.Number.Legible.readable {reader : Json.FloatReader} {n : Json.Number} (h : n.Legible)
    (hreads : ∀ x ∈ n.floats, reader.ReadsBack x) : n.Readable reader := by
  cases n with
  | int z =>
    obtain ⟨n, rfl⟩ := Int.eq_ofNat_of_zero_le h.1
    exact readable_nat (Int.ofNat_lt.mp h.2)
  | float x => exact readable_float h (hreads x List.mem_cons_self)

namespace Yaml

/-! ## The characters of a number -/

/-- Whether a character may stand in a written number. -/
def isNumeric (c : Char) : Bool := c.isDigit || c = '.' || c = 'e' || c = '+' || c = '-'

theorem isNumeric_of_isDigit {c : Char} (h : c.isDigit = true) : isNumeric c = true := by
  simp [isNumeric, h]

theorem isNumeric_toDigits (n : Nat) : ∀ c ∈ Nat.toDigits 10 n, isNumeric c = true := fun c hc =>
  isNumeric_of_isDigit (Decimal.isDigit_toDigits n c hc)

/-- The exponent of a number has only characters of numbers. -/
theorem isNumeric_exponent {mark : List Char} {place : Int} (h : ExponentText mark place) :
    ∀ c ∈ mark, isNumeric c = true := by
  have hdigits := isNumeric_toDigits place.natAbs
  cases h with
  | none => simp
  | negative => exact List.forall_mem_cons.mpr ⟨rfl, List.forall_mem_cons.mpr ⟨rfl, hdigits⟩⟩
  | plus => exact List.forall_mem_cons.mpr ⟨rfl, List.forall_mem_cons.mpr ⟨rfl, hdigits⟩⟩
  | bare => exact List.forall_mem_cons.mpr ⟨rfl, hdigits⟩

/-- A number as it is written has only characters of numbers. -/
theorem isNumeric_numeral {text whole fraction mark : List Char} {place : Int}
    (h : Numeral text whole fraction mark place) : ∀ c ∈ text, isNumeric c = true := by
  have hpointed : ∀ c ∈ pointed fraction, isNumeric c = true := by
    cases hf : fraction with
    | nil => exact fun c hc => absurd hc List.not_mem_nil
    | cons d ds =>
      rw [pointed_cons, List.forall_mem_cons]
      exact ⟨rfl, fun c hc => isNumeric_of_isDigit (h.fraction_digits c (hf ▸ hc))⟩
  rw [h.parts, List.forall_mem_append, List.forall_mem_append]
  exact ⟨fun c hc => isNumeric_of_isDigit (h.whole_digits c hc),
    hpointed, isNumeric_exponent h.exponent⟩

/-- Inside a text, only colons and the marks of comments are ambiguous. -/
theorem hasIndicator_eq_false {cs : List Char} (h : ∀ c ∈ cs, c ≠ ':' ∧ c ≠ '#') (before : Char) :
    hasIndicator (some before) cs = false := by
  induction cs generalizing before with
  | nil => rfl
  | cons c cs ih =>
    rw [List.forall_mem_cons] at h
    rw [hasIndicator, ih h.2, isIndicator]
    simp [h.1]

/-- No character of a number has a meaning of its own in a plain text, and each can be printed. -/
theorem numeric_cases {c : Char} (h : isNumeric c = true) :
    c ≠ ':' ∧ c ≠ '#' ∧ c ≠ ' ' ∧ isPrintable c = true ∧ isBreak c = false := by
  -- the codes lie between that of `+` and that of `9`, the letter `e` apart
  have hrange : (0x2B ≤ c.toNat ∧ c.toNat ≤ 0x39 ∨ c.toNat = 0x65) := by
    simp only [isNumeric, Bool.or_eq_true, decide_eq_true_eq] at h
    rcases h with (((h | rfl) | rfl) | rfl) | rfl
    · simp only [Char.isDigit, Bool.and_eq_true, decide_eq_true_eq] at h
      have hlow : '0'.toNat ≤ c.toNat := h.1
      have hhigh : c.toNat ≤ '9'.toNat := h.2
      have : '0'.toNat = 0x30 := rfl
      have : '9'.toNat = 0x39 := rfl
      omega
    all_goals decide
  refine ⟨ne_of_toNat_ne ?_, ne_of_toNat_ne ?_, ne_of_toNat_ne ?_, isPrintable_iff.mpr ?_, ?_⟩
  · have : ':'.toNat = 0x3A := rfl
    omega
  · have : '#'.toNat = 0x23 := rfl
    omega
  · have : ' '.toNat = 0x20 := rfl
    omega
  · omega
  · rw [isBreak, decide_eq_false_iff_not]
    simp only [List.mem_cons, List.not_mem_nil, or_false]
    omega

/-- **A number is plain.** Its characters have no meaning of their own, and a sign in front of a
digit has none either. -/
theorem plain_numeric {d : Char} {ds : List Char} (hd : d.isDigit = true)
    (hds : ∀ c ∈ ds, isNumeric c = true) (negative : Bool) : Plain (signed negative (d :: ds)) := by
  -- a digit does not begin anything else, and a sign is followed by a digit
  have hdigit : d ∉ reservedStarts ∧ d ≠ '?' ∧ d ≠ ':' ∧ d ≠ '-' :=
    ⟨fun hmem => absurd hd (by
      have hall : ∀ c ∈ reservedStarts, c.isDigit = false := by decide
      rw [hall d hmem]; decide), ne_of_isDigit hd rfl, ne_of_isDigit hd rfl, ne_of_isDigit hd rfl⟩
  have hall : ∀ c ∈ d :: ds, isNumeric c = true :=
    List.forall_mem_cons.mpr ⟨isNumeric_of_isDigit hd, hds⟩
  have hsigned : ∀ c ∈ signed negative (d :: ds), isNumeric c = true := by
    cases negative with
    | true => exact List.forall_mem_cons.mpr ⟨rfl, hall⟩
    | false => exact hall
  have hmarks : ∀ c ∈ d :: ds, c ≠ ':' ∧ c ≠ '#' := fun c hc =>
    ⟨(numeric_cases (hall c hc)).1, (numeric_cases (hall c hc)).2.1⟩
  refine ⟨by cases negative <;> simp [signed], ?_, fun c hc => ?_, fun h => ?_, fun h => ?_⟩
  · cases negative with
    | true =>
      have hend : isBlankOrEnd (some d) = false := by
        rw [← Bool.not_eq_true, isBlankOrEnd_of_isPrintable
          (numeric_cases (hall d List.mem_cons_self)).2.2.2.1
          (numeric_cases (hall d List.mem_cons_self)).2.2.2.2]
        exact (numeric_cases (hall d List.mem_cons_self)).2.2.1
      rw [signed, if_pos rfl, hasIndicator, hasIndicator_eq_false hmarks, isIndicator,
        List.head?_cons, hend]
      decide
    | false =>
      rw [signed, if_neg Bool.false_ne_true, hasIndicator,
        hasIndicator_eq_false fun c hc => hmarks c (List.mem_cons_of_mem _ hc), isIndicator]
      simp [hdigit]
  · exact (numeric_cases (hsigned c hc)).2.2.2
  · exact (numeric_cases (hsigned _ (List.mem_of_mem_head? h))).2.2.1 rfl
  · exact (numeric_cases (hsigned _ (List.mem_of_getLast? h))).2.2.1 rfl

/-! ## Written numbers -/

/-- **A written number is a plain scalar.** It is written with digits, a sign, a point and a mark
only. -/
theorem plain_renderNumber {n : Json.Number} (h : n.Legible) : Plain (renderNumber n) := by
  cases n with
  | int z =>
    obtain ⟨n, rfl⟩ := Int.eq_ofNat_of_zero_le h.1
    obtain ⟨d, ds, hds, hd⟩ := Json.exists_toDigits_cons n
    have htext : renderNumber (.int n) = signed false (d :: ds) :=
      (Decimal.toList_toString n).trans hds
    rw [htext]
    exact plain_numeric hd
      (fun c hc => isNumeric_toDigits n c (hds ▸ List.mem_cons_of_mem _ hc)) false
  | float x =>
    obtain ⟨negative, text, whole, fraction, mark, place, hnumeral, htext, -⟩ :=
      render_spec .yaml rfl h
    obtain ⟨d, ds, hds, hd⟩ := hnumeral.exists_cons
    have htext : renderNumber (.float x) = signed negative (d :: ds) := hds ▸ htext
    rw [htext]
    exact plain_numeric hd
      (fun c hc => isNumeric_numeral hnumeral c (hds ▸ List.mem_cons_of_mem _ hc)) negative

/-- **A written number stands for the number.** It is no other word that a plain scalar may stand
for. -/
theorem plainValue_renderNumber {n : Json.Number} (h : n.Legible) :
    plainValue (String.ofList (renderNumber n)) = .ok (.number n) := by
  cases n with
  | int z =>
    obtain ⟨n, rfl⟩ := Int.eq_ofNat_of_zero_le h.1
    have hresolve : Scalar.resolve (toString (n : Int)) = .int n :=
      Scalar.resolve_nat (Int.ofNat_lt.mp h.2)
    rw [renderNumber.eq_def, String.ofList_toList, plainValue]
    simp only [hresolve]
  | float x =>
    have hresolve := Scalar.resolve_render h
    rw [renderNumber.eq_def, String.ofList_toList, plainValue]
    simp only [hresolve]
    exact congrArg Except.ok (if_pos h)

end Yaml

end CoChange
