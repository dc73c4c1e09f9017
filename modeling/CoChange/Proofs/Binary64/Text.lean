import Mathlib.Algebra.Order.Field.Power
import Mathlib.Tactic.NormNum
import CoChange.Arithmetic
import CoChange.Binary64.Text
import CoChange.Proofs.Decimal.Shortest
import CoChange.Proofs.Json

/-!
# Written floating point numbers are read back

A finite number is written as a numeral: digits, a point with further digits or none, and an
exponent or none (`Numeral`), which reads back:

* **`numeral_positional`**, **`numeral_scientific`**: both notations make numerals of the same
  value.
* **`render_spec`**: so a written number is a numeral that stands for it.
* **`Numeral.parse?`**, **`Numeral.readMagnitude`**: a numeral is read as what it stands for.
* **`Json.Number.readable_float`**: so a written number is read back from JSON, if the reader rounds
  it back.
-/

namespace CoChange

open Decimal (ofDigits spanDigits exponent? Literal NoDigit)
open Json (Delimits)

/-! ## Numerals -/

/-- A point with digits behind it; without digits there is no point. -/
def pointed : List Char → List Char
  | [] => []
  | ds => '.' :: ds

theorem pointed_cons (d : Char) (ds : List Char) : pointed (d :: ds) = '.' :: d :: ds := rfl

/-- The exponent of a numeral, as it is written. -/
inductive ExponentText : List Char → Int → Prop
  | none : ExponentText [] 0
  | negative {place : Int} (h : place < 0) :
      ExponentText ('e' :: '-' :: Nat.toDigits 10 place.natAbs) place
  | plus {place : Int} (h : 0 ≤ place) :
      ExponentText ('e' :: '+' :: Nat.toDigits 10 place.natAbs) place
  | bare {place : Int} (h : 0 ≤ place) : ExponentText ('e' :: Nat.toDigits 10 place.natAbs) place

/-- A text with digits before and behind a point and with an exponent. -/
structure Numeral (text whole fraction mark : List Char) (place : Int) : Prop where
  parts : text = whole ++ (pointed fraction ++ mark)
  whole_ne : whole ≠ []
  whole_digits : ∀ c ∈ whole, c.isDigit = true
  unpadded : whole.head? = some '0' → whole = ['0']
  fraction_digits : ∀ c ∈ fraction, c.isDigit = true
  exponent : ExponentText mark place
  /-- It cannot be taken for an integer. -/
  marked : fraction ≠ [] ∨ mark ≠ []

section Reading

variable {text whole fraction mark rest : List Char} {place : Int}

theorem ne_of_isDigit {c d : Char} (hc : c.isDigit = true) (hd : d.isDigit = false) : c ≠ d := by
  rintro rfl
  rw [hc] at hd
  exact absurd hd (by decide)

theorem spanDigits_toDigits (n : Nat) (hrest : Delimits rest) :
    spanDigits (Nat.toDigits 10 n ++ rest) = (Nat.toDigits 10 n, rest) :=
  Decimal.spanDigits_append (Decimal.isDigit_toDigits n) fun c hc => (hrest c hc).1

/-- **An exponent is read back.** Its digits end where the numeral ends, so no digit behind it is
taken in. -/
theorem ExponentText.read (h : ExponentText mark place) (hrest : Delimits rest) :
    exponent? (mark ++ rest) = some (place, rest) := by
  obtain ⟨d, ds, hds, hd⟩ := Json.exists_toDigits_cons place.natAbs
  have hspan := spanDigits_toDigits place.natAbs hrest
  have hvalue := Decimal.ofDigits_toDigits place.natAbs
  rw [hds] at hspan hvalue
  cases h with
  | none => exact Json.exponent?_of_delimits hrest
  | negative h =>
    rw [hds, List.cons_append, List.cons_append, exponent?]
    simp only [true_or, if_true, hspan, hvalue, Option.some.injEq, Prod.mk.injEq, and_true]
    omega
  | plus h =>
    rw [hds, List.cons_append, List.cons_append, exponent?]
    simp only [true_or, if_true, hspan, hvalue, Bool.false_eq_true, if_false, Option.some.injEq,
      Prod.mk.injEq, and_true]
    omega
  | bare h =>
    rw [List.cons_append] at hspan
    rw [hds, List.cons_append, List.cons_append, exponent?]
    simp only [true_or, if_true, hspan, hvalue, Bool.false_eq_true, if_false, Option.some.injEq,
      Prod.mk.injEq, and_true]
    · omega
    -- the first digit is no sign
    · exact fun r heq => ne_of_isDigit hd rfl (List.cons.inj heq).1
    · exact fun r heq => ne_of_isDigit hd rfl (List.cons.inj heq).1

/-- The mark of an exponent is empty or begins with its letter. -/
theorem ExponentText.head (h : ExponentText mark place) :
    mark = [] ∨ ∃ rest, mark = 'e' :: rest := by
  cases h with
  | none => exact Or.inl rfl
  | negative h => exact Or.inr ⟨_, rfl⟩
  | plus h => exact Or.inr ⟨_, rfl⟩
  | bare h => exact Or.inr ⟨_, rfl⟩

/-- Digits end at an exponent. -/
theorem ExponentText.noDigit (h : ExponentText mark place) (hrest : Delimits rest) :
    NoDigit (mark ++ rest) := by
  rcases h.head with rfl | ⟨mark, rfl⟩
  · exact fun c hc => (hrest c hc).1
  · rintro c hc
    rw [List.cons_append, List.head?_cons, Option.mem_some_iff] at hc
    exact hc ▸ rfl

variable (h : Numeral text whole fraction mark place)

include h in
/-- The digits before the point are read. -/
theorem Numeral.span_whole (hrest : Delimits rest) :
    spanDigits (text ++ rest) = (whole, pointed fraction ++ (mark ++ rest)) := by
  rw [h.parts, List.append_assoc, List.append_assoc]
  refine Decimal.spanDigits_append h.whole_digits ?_
  cases fraction with
  | nil => exact h.exponent.noDigit hrest
  | cons d ds =>
    rintro c hc
    rw [pointed_cons, List.cons_append, List.head?_cons, Option.mem_some_iff] at hc
    exact hc ▸ rfl

include h in
/-- The digits behind the point are read. -/
theorem Numeral.span_fraction (hrest : Delimits rest) :
    spanDigits (fraction ++ (mark ++ rest)) = (fraction, mark ++ rest) :=
  Decimal.spanDigits_append h.fraction_digits (h.exponent.noDigit hrest)

include h in
/-- Behind the digits before the point stands the point or the exponent. -/
theorem Numeral.exists_mark :
    ∃ c rest, pointed fraction ++ mark = c :: rest ∧ (c = '.' ∨ c = 'e') := by
  cases fraction with
  | nil =>
    rcases h.exponent.head with rfl | ⟨mark, rfl⟩
    · exact absurd h.marked (by simp)
    · exact ⟨'e', mark, rfl, Or.inr rfl⟩
  | cons d ds => exact ⟨'.', _, rfl, Or.inl rfl⟩

include h in
/-- What follows a zero at the start of a numeral. -/
theorem Numeral.second {c : Char} {cs : List Char} (htext : text = '0' :: c :: cs) :
    c = '.' ∨ c = 'e' := by
  obtain ⟨d, ds, hmark, hd⟩ := h.exists_mark
  have hparts := h.parts
  rw [hmark, htext] at hparts
  have hzero : whole = ['0'] := by
    refine h.unpadded ?_
    cases hw : whole with
    | nil => exact absurd hw h.whole_ne
    | cons a as =>
      rw [hw, List.cons_append, List.cons.injEq] at hparts
      rw [List.head?_cons, hparts.1]
  rw [hzero] at hparts
  rw [(List.cons.inj (List.cons.inj hparts).2).1]
  exact hd

include h in
/-- Behind the whole part, the next character is a point exactly where there is a fraction, since
the mark of an exponent is none. -/
theorem Numeral.mark_ne_point (rest' : List Char) :
    mark ++ rest ≠ '.' :: rest' ∨ fraction ≠ [] := by
  by_contra hnot
  rw [not_or, not_not, not_not] at hnot
  rcases h.exponent.head with rfl | ⟨mark, rfl⟩
  · exact h.marked.elim (· hnot.2) (· rfl)
  · rw [List.cons_append, List.cons.injEq] at hnot
    exact absurd hnot.1.1 (by decide)

include h in
/-- **A numeral is read from JSON** as the number that its parts are rounded to. What is rounded,
and how, is left to the reader of floats; the parts are those of the numeral. -/
theorem Numeral.readMagnitude (floats : Json.FloatReader) (negative : Bool)
    (hrest : Delimits rest) :
    Json.readMagnitude floats negative (text ++ rest) =
      match floats negative whole fraction place with
      | none => .error .numberOutOfRange
      | some x => .ok (.float x, rest) := by
  -- no digits are missing, and no zero is superfluous
  have hwell : ¬ (whole.isEmpty = true ∨ (1 < whole.length ∧ whole.head? = some '0')) := by
    rintro (hempty | ⟨hlong, hzero⟩)
    · exact h.whole_ne (List.isEmpty_iff.mp hempty)
    · rw [h.unpadded hzero] at hlong
      exact absurd hlong (by decide)
  have hfraction : Json.readFraction (pointed fraction ++ (mark ++ rest)) =
      .ok ((fraction, !fraction.isEmpty), mark ++ rest) := by
    cases hf : fraction with
    | nil =>
      unfold Json.readFraction
      split
      · rename_i heq
        exact absurd hf ((h.mark_ne_point _).resolve_left (not_not.mpr heq))
      · rfl
    | cons d ds =>
      have hspan := h.span_fraction hrest
      rw [hf] at hspan
      rw [pointed_cons, List.cons_append, Json.readFraction, hspan]
      rfl
  -- the point or the exponent keeps it from being read as an integer
  have hread : ¬ ((!!fraction.isEmpty) = true ∧ rest.length = (mark ++ rest).length) := by
    rintro ⟨hempty, hlength⟩
    rw [List.length_append] at hlength
    have hmark := h.marked.resolve_left (not_not.mpr (by simpa using hempty))
    have := List.length_pos_iff.mpr hmark
    omega
  rw [Json.readMagnitude, h.span_whole hrest]
  simp only
  rw [if_neg hwell, hfraction, ok_bind]
  simp only [h.exponent.read hrest]
  rw [if_neg hread]
  cases floats negative whole fraction place <;> rfl

/-- What a text of a number begins with if it is negative. -/
def signed (negative : Bool) (text : List Char) : List Char :=
  if negative then '-' :: text else text

include h in
/-- A numeral begins with a digit. -/
theorem Numeral.exists_cons : ∃ d ds, text = d :: ds ∧ d.isDigit = true := by
  cases hw : whole with
  | nil => exact absurd hw h.whole_ne
  | cons d ds =>
    refine ⟨d, ds ++ (pointed fraction ++ mark),
      ?_, h.whole_digits d (by rw [hw]; exact List.mem_cons_self)⟩
    rw [h.parts, hw, List.cons_append]

theorem delimits_nil : Delimits [] := fun c hc => by simp at hc

/-- A sign in front of digits is read by itself. -/
theorem parse?_signed {d : Char} (hd : d.isDigit = true) (ds : List Char) (negative : Bool) :
    Literal.parse? (signed negative (d :: ds)) =
      (Literal.parse? (d :: ds)).map fun l => { l with negative := negative } := by
  have hminus (r : List Char) (heq : d :: ds = '-' :: r) : False :=
    ne_of_isDigit hd rfl (List.cons.inj heq).1
  have hplus (r : List Char) (heq : d :: ds = '+' :: r) : False :=
    ne_of_isDigit hd rfl (List.cons.inj heq).1
  cases negative with
  | true =>
    rw [signed, if_pos rfl, Literal.parse?, Literal.parse?]
    · simp [Option.map_bind, Literal.ofParts]
    · exact hminus
    · exact hplus
  | false =>
    rw [signed, if_neg Bool.false_ne_true, Literal.parse?]
    · simp [Option.map_bind, Literal.ofParts]
    · exact hminus
    · exact hplus

include h in
/-- **A numeral is read as a literal.** The sign is taken off first, and the point and the mark of
the exponent are found behind it. -/
theorem Numeral.parse? (negative : Bool) :
    Literal.parse? (signed negative text) = some (.ofParts negative whole fraction place) := by
  obtain ⟨d, ds, htext, hd⟩ := h.exists_cons
  have hminus (r : List Char) (heq : text = '-' :: r) : False :=
    ne_of_isDigit hd rfl (List.cons.inj (htext ▸ heq)).1
  have hplus (r : List Char) (heq : text = '+' :: r) : False :=
    ne_of_isDigit hd rfl (List.cons.inj (htext ▸ heq)).1
  have hwhole := h.span_whole delimits_nil
  have hfraction := h.span_fraction delimits_nil
  have hexponent := h.exponent.read delimits_nil
  rw [List.append_nil] at hwhole hexponent hfraction
  have hdigits : whole.isEmpty = false := by simpa using h.whole_ne
  have hread : Literal.parse? text = some (.ofParts false whole fraction place) := by
    rw [Literal.parse?]
    · simp only [hwhole]
      cases fraction with
      | nil =>
        -- without a fraction there is an exponent
        rcases h.exponent.head with rfl | ⟨mark, rfl⟩
        · exact absurd h.marked (by simp)
        · simp [pointed, hexponent, hdigits]
      | cons d ds =>
        rw [List.cons_append] at hfraction
        simp [pointed_cons, hfraction, hexponent, hdigits]
    · exact hminus
    · exact hplus
  rw [htext] at hread ⊢
  rw [parse?_signed hd, hread]
  rfl

end Reading

/-! ## Both notations -/

section Notation

variable {style : NumberStyle} {ds : List Char}

theorem ofDigits_append_zeros (cs : List Char) (n : Nat) :
    ofDigits (cs ++ List.replicate n '0') = ofDigits cs * 10 ^ n := by
  rw [Decimal.ofDigits_eq, Decimal.ofDigits_eq, Nat.ofDigitChars_append,
    Nat.ofDigitChars_replicate_zero, Nat.mul_comm]

/-- The text is a numeral of the value. -/
def NumeralOf (text : List Char) (value : ℚ) : Prop :=
  ∃ whole fraction mark place, Numeral text whole fraction mark place ∧
    (ofDigits (whole ++ fraction) : ℚ) * 10 ^ (place - fraction.length) = value

/-- Zeros and a point may follow all the digits. -/
theorem numeralOf_zeros (hne : ds ≠ []) (hds : ∀ c ∈ ds, c.isDigit = true)
    (hhead : ds.head? ≠ some '0') (n : Nat) : NumeralOf (ds ++ List.replicate n '0' ++ ['.', '0'])
      (ofDigits ds * 10 ^ (n : Int)) := by
  refine ⟨ds ++ List.replicate n '0',
    ['0'], [], 0, ⟨?_, ?_, ?_, ?_, ?_, .none, Or.inl (by simp)⟩, ?_⟩
  · simp [pointed]
  · simp [hne]
  · intro c hc
    rcases List.mem_append.mp hc with hc | hc
    · exact hds c hc
    · rw [(List.mem_replicate.mp hc).2]
      rfl
  · intro hzero
    rw [List.head?_append_of_ne_nil _ hne] at hzero
    exact absurd hzero hhead
  · simp
  · -- the zero behind the point is one digit more, and one place
    have hzeros : ds ++ List.replicate n '0' ++ ['0'] = ds ++ List.replicate (n + 1) '0' := by
      rw [List.replicate_succ', List.append_assoc]
    rw [hzeros, ofDigits_append_zeros]
    push_cast
    rw [mul_assoc, ← zpow_natCast, ← zpow_add₀ (by norm_num)]
    congr 2
    simp

/-- The point may stand between the digits. -/
theorem numeralOf_split (hne : ds ≠ []) (hds : ∀ c ∈ ds, c.isDigit = true)
    (hhead : ds.head? ≠ some '0')
    {places : Nat} (hpos : 0 < places) (hplaces : places < ds.length) :
    NumeralOf (ds.take (ds.length - places) ++ '.' :: ds.drop (ds.length - places))
      (ofDigits ds * 10 ^ (-places : Int)) := by
  have hfraction : ds.drop (ds.length - places) ≠ [] := by
    rw [Ne, List.drop_eq_nil_iff]
    omega
  -- the point stands in front of the last `places` digits
  refine ⟨ds.take (ds.length - places), ds.drop (ds.length - places), [], 0,
    ⟨?_, ?_, ?_, ?_, ?_, .none, Or.inl hfraction⟩, ?_⟩
  · obtain ⟨d, rest, hdrop⟩ := List.exists_cons_of_ne_nil hfraction
    rw [hdrop, pointed_cons, List.append_nil]
  · rw [Ne, List.take_eq_nil_iff]
    rintro (hzero | hnil)
    · omega
    · exact hne hnil
  · exact fun c hc => hds c (List.mem_of_mem_take hc)
  · intro hzero
    rw [List.head?_take, if_neg (by omega)] at hzero
    exact absurd hzero hhead
  · exact fun c hc => hds c (List.mem_of_mem_drop hc)
  · rw [List.take_append_drop, List.length_drop]
    congr 2
    omega

/-- A zero and a point may stand before all the digits, with zeros in between. -/
theorem numeralOf_below (hne : ds ≠ []) (hds : ∀ c ∈ ds, c.isDigit = true) {places : Nat}
    (hplaces : ds.length ≤ places) :
    NumeralOf ('0' :: '.' :: (List.replicate (places - ds.length) '0' ++ ds))
      (ofDigits ds * 10 ^ (-places : Int)) := by
  refine ⟨['0'], List.replicate (places - ds.length) '0' ++ ds, [], 0,
    ⟨?_, by simp, by simp, by simp, ?_, .none, Or.inl (by simp [hne])⟩, ?_⟩
  · cases hfraction : List.replicate (places - ds.length) '0' ++ ds with
    | nil => exact absurd (List.append_eq_nil_iff.mp hfraction).2 hne
    | cons d rest => simp [pointed_cons]
  · intro c hc
    rcases List.mem_append.mp hc with hc | hc
    · rw [(List.mem_replicate.mp hc).2]
      rfl
    · exact hds c hc
  · -- zeros in front change no value
    have hzeros : ['0'] ++ (List.replicate (places - ds.length) '0' ++ ds) =
        List.replicate (places - ds.length + 1) '0' ++ ds := rfl
    rw [hzeros, Decimal.ofDigits_replicate_append, List.length_append, List.length_replicate]
    congr 2
    omega

/-- **Positional notation writes a numeral of the same value.** The cases are where the point
stands: behind all digits, among them, or in front of them with zeros in between. -/
theorem numeral_positional (hstyle : style.pointZero = true) (hne : ds ≠ [])
    (hds : ∀ c ∈ ds, c.isDigit = true) (hhead : ds.head? ≠ some '0') (k : Int) :
    NumeralOf (style.positional ds k) (ofDigits ds * 10 ^ k) := by
  cases k with
  | ofNat n =>
    rw [NumberStyle.positional, if_pos hstyle]
    exact numeralOf_zeros hne hds hhead n
  | negSucc n =>
    rw [NumberStyle.positional, Int.negSucc_eq, ← Nat.cast_succ]
    by_cases hplaces : n + 1 < ds.length
    · rw [if_pos hplaces]
      exact numeralOf_split hne hds hhead (Nat.succ_pos n) hplaces
    · rw [if_neg hplaces]
      exact numeralOf_below hne hds (Nat.le_of_not_lt hplaces)

/-- **Scientific notation writes a numeral of the same value.** The point stands behind the first
digit, so the exponent is that of the digits with as many places more as follow. -/
theorem numeral_scientific (style : NumberStyle) (hne : ds ≠ []) (hds : ∀ c ∈ ds, c.isDigit = true)
    (lead : Int) :
    NumeralOf (style.scientific ds lead) (ofDigits ds * 10 ^ (lead + 1 - ds.length)) := by
  obtain ⟨d, rest, rfl⟩ := List.exists_cons_of_ne_nil hne
  obtain ⟨mark, hmark, hne, htext⟩ : ∃ mark, ExponentText mark lead ∧ mark ≠ [] ∧
      style.scientific (d :: rest) lead = d :: pointed rest ++ mark := by
    -- the exponent has a minus sign, a plus sign or none
    rcases lt_or_ge lead 0 with hlead | hlead
    · refine ⟨_, .negative hlead, by simp, ?_⟩
      cases rest <;> simp [NumberStyle.scientific, pointed, hlead]
    · have hnot := Int.not_lt.mpr hlead
      cases hplus : style.plusExponent with
      | true =>
        refine ⟨_, .plus hlead, by simp, ?_⟩
        cases rest <;> simp [NumberStyle.scientific, pointed, hnot, hplus]
      | false =>
        refine ⟨_, .bare hlead, by simp, ?_⟩
        cases rest <;> simp [NumberStyle.scientific, pointed, hnot, hplus]
  refine ⟨[d], rest, mark, lead, ⟨?_, by simp, ?_, ?_, ?_, hmark, Or.inr hne⟩, ?_⟩
  · rw [htext]
    simp
  · simpa using hds d List.mem_cons_self
  · simp
  · exact fun c hc => hds c (List.mem_cons_of_mem _ hc)
  · rw [List.length_cons]
    congr 2
    push_cast
    ring

end Notation

/-! ## Numbers -/

section Render

variable {x : Binary64}

/-- Zero is written with one digit on each side of the point, and with its sign. So it is read back
as the same of the two zeros. -/
theorem render_zero (style : NumberStyle) (hstyle : style.pointZero = true)
    {negative : Bool} {e : Int} (hview : x.view = .finite negative 0 e) :
    (style.render x).toList = signed negative ['0', '.', '0'] ∧
      (Literal.ofParts negative ['0'] ['0'] 0).toBinary64 = x := by
  constructor
  · have hzero : style.positional ['0'] 0 = ['0', '.', '0'] := by
      show ['0'] ++ List.replicate 0 '0' ++ (if style.pointZero then ['.', '0'] else []) = _
      rw [if_pos hstyle]
      rfl
    rw [NumberStyle.render, hview]
    simp only [if_true, String.toList_ofList]
    rw [hzero]
    rfl
  · have hzero : ofDigits (['0'] ++ ['0']) = 0 := rfl
    rw [Literal.toBinary64, Literal.ofParts, hzero, Binary64.ofDecimal, if_pos rfl]
    exact Binary64.ofMagnitude_of_view hview

/-- A number other than zero is written as a numeral of its shortest decimal. -/
theorem render_shortest (style : NumberStyle) (hstyle : style.pointZero = true)
    {negative : Bool} {m : Nat} {e : Int} (hview : x.view = .finite negative m e) (hm : 0 < m) :
    ∃ text, (style.render x).toList = signed negative text ∧
      NumeralOf text (Decimal.shortest m e).value := by
  obtain ⟨-, hdigits⟩ := Decimal.shortest_spec (Binary64.normal_of_view hview) hm
  have hrender : (style.render x).toList = signed negative
      (if style.isPositional ((Decimal.shortest m e).exponent +
          (Nat.toDigits 10 (Decimal.shortest m e).digits).length - 1)
        then style.positional (Nat.toDigits 10 (Decimal.shortest m e).digits)
          (Decimal.shortest m e).exponent
        else style.scientific (Nat.toDigits 10 (Decimal.shortest m e).digits)
          ((Decimal.shortest m e).exponent +
            (Nat.toDigits 10 (Decimal.shortest m e).digits).length - 1)) := by
    rw [NumberStyle.render, hview]
    simp only [if_neg (Nat.ne_of_gt hm), String.toList_ofList]
    rfl
  refine ⟨_, hrender, ?_⟩
  have hne : Nat.toDigits 10 (Decimal.shortest m e).digits ≠ [] := Nat.toDigits_ne_nil
  have hds := Decimal.isDigit_toDigits (Decimal.shortest m e).digits
  split
  · have hhead : (Nat.toDigits 10 (Decimal.shortest m e).digits).head? ≠ some '0' := fun h =>
      hdigits (Decimal.head?_toDigits h)
    have hnumeral := numeral_positional hstyle hne hds hhead (Decimal.shortest m e).exponent
    rwa [Decimal.ofDigits_toDigits] at hnumeral
  · have hnumeral := numeral_scientific style hne hds
      ((Decimal.shortest m e).exponent + (Nat.toDigits 10 (Decimal.shortest m e).digits).length - 1)
    rwa [Decimal.ofDigits_toDigits, sub_add_cancel, add_sub_cancel_right] at hnumeral

/-- **A finite number is written as a numeral that is read as the number.** The cases are zero and,
for all other numbers, the notation that their leading digit asks for. -/
theorem render_spec (style : NumberStyle) (hstyle : style.pointZero = true)
    (hx : x.isFinite = true) :
    ∃ negative text whole fraction mark place, Numeral text whole fraction mark place ∧
      (style.render x).toList = signed negative text ∧
      (Literal.ofParts negative whole fraction place).toBinary64 = x := by
  obtain ⟨negative, m, e, hview⟩ := Binary64.isFinite_iff_view.mp hx
  rcases Nat.eq_zero_or_pos m with rfl | hm
  · obtain ⟨hrender, hread⟩ := render_zero style hstyle hview
    exact ⟨negative, ['0', '.', '0'], ['0'], ['0'], [], 0,
      ⟨rfl, by simp, by simp, by simp, by simp, .none, Or.inl (by simp)⟩, hrender, hread⟩
  · obtain ⟨text, hrender, whole, fraction, mark, place, hnumeral, hvalue⟩ :=
      render_shortest style hstyle hview hm
    -- the shortest decimal is one that rounds to the number
    obtain ⟨hround, -⟩ := Decimal.shortest_spec (Binary64.normal_of_view hview) hm
    exact ⟨negative, text, whole, fraction, mark, place, hnumeral, hrender,
      Binary64.ofDecimal_of_roundsTo hview hm (hvalue ▸ hround)⟩

end Render

/-! ## In JSON -/

namespace Json

variable {floats : FloatReader} {x : Binary64}

/-- **A finite number is written in JSON as a numeral.** What is read of it, with anything behind
that does not go on with it, is what its parts are rounded to. -/
theorem Number.exists_parts (hx : x.isFinite = true) :
    ∃ negative whole fraction place,
      (Literal.ofParts negative whole fraction place).toBinary64 = x ∧
      (∃ c cs, (Number.float x).render.toList = c :: cs ∧ (c = '-' ∨ c.isDigit = true)) ∧
      ∀ (floats : FloatReader) (rest : List Char), Delimits rest →
        readNumber floats ((Number.float x).render.toList ++ rest) =
          match floats negative whole fraction place with
          | none => .error .numberOutOfRange
          | some y => .ok (.float y, rest) := by
  obtain ⟨negative, text, whole, fraction, mark, place, hnumeral, htext, hread⟩ :=
    render_spec .json rfl hx
  obtain ⟨d, ds, hcons, hd⟩ := hnumeral.exists_cons
  have hrender : (Number.float x).render.toList = signed negative text := htext
  refine ⟨negative, whole, fraction, place, hread, ?_, fun floats rest hrest => ?_⟩
  · rw [hrender, hcons]
    cases negative with
    | true => exact ⟨_, _, rfl, Or.inl rfl⟩
    | false => exact ⟨_, _, rfl, Or.inr hd⟩
  · rw [hrender, ← hnumeral.readMagnitude floats negative hrest]
    cases negative with
    | true => rfl
    | false => rw [signed, if_neg Bool.false_ne_true,
        hcons, List.cons_append, readNumber_of_isDigit hd]

/-- **A finite number is readable if the reader reads it back.** The text is a numeral, whose parts
are handed to the reader. -/
theorem Number.readable_float (hx : x.isFinite = true) (h : floats.ReadsBack x) :
    Readable floats (.float x) := by
  obtain ⟨negative, whole, fraction, place, -, hstarts, hread⟩ := Number.exists_parts hx
  refine ⟨hstarts, fun rest hrest => ?_⟩
  -- what the reader makes of the parts is seen where the number stands alone
  have halone := hread floats [] delimits_nil
  rw [List.append_nil] at halone
  rw [FloatReader.ReadsBack, halone] at h
  rw [hread floats rest hrest]
  cases hparts : floats negative whole fraction place with
  | none =>
    rw [hparts] at h
    cases h
  | some y =>
    rw [hparts] at h
    obtain rfl : y = x := Number.float.inj (Prod.mk.inj (Except.ok.inj h)).1
    rfl

/-- **A reader that rounds once reads all finite numbers back.** It rounds the value of the numeral,
which is that of the shortest decimal, and that is nearest to the number. -/
theorem FloatReader.exact_readsBack (hx : x.isFinite = true) : exact.ReadsBack x := by
  obtain ⟨negative, whole, fraction, place, hvalue, -, hread⟩ := Number.exists_parts hx
  have halone := hread exact [] delimits_nil
  have hparts : exact negative whole fraction place = some x := by
    rw [exact, hvalue]
    exact if_pos hx
  rw [List.append_nil, hparts] at halone
  exact halone

/-- A reader that rounds in steps does not: it reads `0.09090909090909091` one place too high. -/
example : ¬ FloatReader.stepwise.ReadsBack (.ofRatio false 1 11) := by
  decide +kernel

end Json

end CoChange
