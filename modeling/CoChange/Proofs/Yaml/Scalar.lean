import CoChange.Arithmetic
import CoChange.Proofs.Binary64.Text
import CoChange.Yaml.Scalar

/-!
# What unquoted scalars stand for

* **`resolve_nat`**, **`resolve_render`**: a written number stands for the number.
* **`resolve_of_not_needsQuotes`**: a text that needs no quotes stands for itself.
-/

namespace CoChange.Yaml.Scalar

open Decimal (ofDigits)

/-! ## Digits -/

/-- A decimal digit is a digit to the base ten, with the value it has in order. -/
theorem digit?_of_isDigit {c : Char} (h : c.isDigit = true) :
    digit? 10 c = some (c.toNat - '0'.toNat) := by
  have hle : c.toNat - '0'.toNat < 10 := by
    simp only [Char.isDigit, Bool.and_eq_true, decide_eq_true_eq] at h
    have hnine : c.toNat ≤ '9'.toNat := h.2
    have : '9'.toNat = 57 := rfl
    have : '0'.toNat = 48 := rfl
    omega
  rw [digit?]
  simp only [h, if_true]
  rw [if_pos hle]

/-- Digits stand for their number. -/
theorem natOf?_digits {cs : List Char} (hne : cs ≠ []) (h : ∀ c ∈ cs, c.isDigit = true) :
    natOf? 10 cs = some (ofDigits cs) := by
  -- generalized over the number read so far
  have hfold : ∀ (cs : List Char), (∀ c ∈ cs, c.isDigit = true) → ∀ n,
      cs.foldlM (fun n c => (digit? 10 c).map (10 * n + ·)) n =
        some (cs.foldl (fun n c => 10 * n + (c.toNat - '0'.toNat)) n) := by
    intro cs
    induction cs with
    | nil => exact fun _ _ => rfl
    | cons c cs ih =>
      intro h n
      rw [List.forall_mem_cons] at h
      rw [List.foldlM_cons, digit?_of_isDigit h.1, List.foldl_cons]
      exact ih h.2 _
  rw [natOf?, if_neg (by simpa using hne)]
  exact hfold cs h 0

/-- What has a character that is no digit stands for no number. -/
theorem natOf?_eq_none {cs : List Char} {c : Char} (hc : c ∈ cs) (hdigit : digit? 10 c = none) :
    natOf? 10 cs = none := by
  -- generalized over the number read so far
  have hfold : ∀ (cs : List Char), c ∈ cs → ∀ n,
      cs.foldlM (fun n c => (digit? 10 c).map (10 * n + ·)) n = none := by
    intro cs
    induction cs with
    | nil => exact fun h => absurd h List.not_mem_nil
    | cons d cs ih =>
      intro h n
      rw [List.foldlM_cons]
      rcases List.mem_cons.mp h with rfl | h
      · rw [hdigit]
        rfl
      · cases digit? 10 d with
        | none => rfl
        | some v => exact ih h _
  rw [natOf?, if_neg (by simpa using List.ne_nil_of_mem hc)]
  exact hfold cs hc 0

/-! ## The parts of a number -/

section Parts

variable {d : Char} {ds : List Char}

/-- What begins with a digit has no sign. -/
theorem splitSign_digit (hd : d.isDigit = true) : splitSign (d :: ds) = (false, d :: ds) := by
  unfold splitSign
  split
  · rename_i heq
    exact absurd (List.cons.inj heq).1 (ne_of_isDigit hd rfl)
  · rename_i heq
    exact absurd (List.cons.inj heq).1 (ne_of_isDigit hd rfl)
  · rfl

/-- What begins with a digit behind its sign. -/
theorem splitSign_signed (hd : d.isDigit = true) (negative : Bool) :
    splitSign (signed negative (d :: ds)) = (negative, d :: ds) := by
  cases negative with
  | true => rfl
  | false => exact splitSign_digit hd

/-- What has no letter in its second place is in base ten. -/
theorem splitBase_ten (h : ∀ c rest, d :: ds = '0' :: c :: rest → c ≠ 'x' ∧ c ≠ 'o' ∧ c ≠ 'b') :
    splitBase (d :: ds) = (10, d :: ds) := by
  unfold splitBase
  split
  · rename_i heq
    exact absurd rfl (h _ _ heq).1
  · rename_i heq
    exact absurd rfl (h _ _ heq).2.1
  · rename_i heq
    exact absurd rfl (h _ _ heq).2.2
  · rfl

/-- A zero is superfluous only in front of a digit. -/
theorem isPaddedDigits_signed (hd : d.isDigit = true)
    (h : ∀ c rest, d :: ds = '0' :: c :: rest → c.isDigit = false) (negative : Bool) :
    isPaddedDigits (signed negative (d :: ds)) = false := by
  rw [isPaddedDigits, splitSign_signed hd]
  simp only
  split
  · rename_i c rest heq
    rw [List.all_cons, h _ _ heq, Bool.false_and]
  · rfl

/-- No words stand for what begins with a digit, or with a sign and a digit. -/
theorem not_mem_words {s : String} {words : List String} {negative : Bool}
    (hwords : ∀ w ∈ words, w.toList.head?.all (fun c => !c.isDigit && c != '-') = true)
    (hs : s.toList = signed negative (d :: ds)) (hd : d.isDigit = true) : s ∉ words := by
  intro hmem
  have h := hwords s hmem
  cases negative with
  | true =>
    rw [hs, signed, if_pos rfl, List.head?_cons, Option.all_some, Bool.and_eq_true] at h
    exact absurd h.2 (by decide)
  | false =>
    rw [hs, signed, if_neg Bool.false_ne_true, List.head?_cons, Option.all_some, hd] at h
    exact absurd h (by simp)

/-- What begins with a digit, or with a sign and a digit, stands for the floating point number that
it is a literal of. -/
theorem float?_signed {l : Decimal.Literal} (hd : d.isDigit = true) (negative : Bool)
    (hparse : Decimal.Literal.parse? (signed negative (d :: ds)) = some l)
    (hfinite : l.toBinary64.isFinite = true) :
    float? (signed negative (d :: ds)) = some l.toBinary64 := by
  -- none of the words for what is no finite number begins so
  have hplus : ∀ rest, signed negative (d :: ds) ≠ '+' :: rest := by
    cases negative with
    | true => simp [signed]
    | false => exact fun rest heq => ne_of_isDigit hd rfl (List.cons.inj heq).1
  have hpoint : ∀ rest, signed negative (d :: ds) ≠ '.' :: rest := by
    cases negative with
    | true => simp [signed]
    | false => exact fun rest heq => ne_of_isDigit hd rfl (List.cons.inj heq).1
  have hminus : ∀ rest, signed negative (d :: ds) ≠ '-' :: '.' :: rest := by
    cases negative with
    | true => exact fun rest heq => ne_of_isDigit hd rfl (List.cons.inj (List.cons.inj heq).2).1
    | false => exact fun rest heq => ne_of_isDigit hd rfl (List.cons.inj heq).1
  have hhead : (signed negative (d :: ds)).head? ≠ some '+' := by
    intro heq
    obtain ⟨rest, hrest⟩ := List.head?_eq_some_iff.mp heq
    exact hplus rest hrest
  rw [float?]
  · simp only [List.map_cons, List.map_nil, List.mem_cons, List.not_mem_nil, or_false]
    rw [if_neg, if_neg, if_neg, if_neg]
    · simp only [hparse, hfinite, if_true]
    · simp [hhead]
    · rintro (heq | heq | heq) <;> exact hpoint _ heq
    · rintro (heq | heq | heq) <;> exact hminus _ heq
    · rintro (heq | heq | heq) <;> exact hpoint _ heq
  · exact hplus

end Parts

/-! ## Numbers -/

/-- **A written natural number stands for the number.** It has no sign and no zero in front, so no
other base is tried. -/
theorem resolve_nat {n : Nat} (h : n < 2 ^ 64) : resolve (toString n) = .int n := by
  obtain ⟨d, ds, hcons, hd⟩ := Json.exists_toDigits_cons n
  -- a number is written without leading zeros
  have hunpadded : ∀ c rest, d :: ds ≠ '0' :: c :: rest := by
    intro c rest heq
    rw [← hcons] at heq
    have hzero := Decimal.head?_toDigits (n := n) (by rw [heq]; rfl)
    rw [hzero] at heq
    exact absurd heq (by simp)
  have hs : (toString n).toList = signed false (d :: ds) := (Decimal.toList_toString n).trans hcons
  have hpadded := isPaddedDigits_signed hd (fun c rest heq => absurd heq (hunpadded c rest)) false
  have hint : int? (signed false (d :: ds)) = some (n : Int) := by
    have hbase : splitBase (d :: ds) = (10, d :: ds) :=
      splitBase_ten fun c rest heq => absurd heq (hunpadded c rest)
    have hnat : natOf? 10 (d :: ds) = some n := by
      rw [← hcons, natOf?_digits Nat.toDigits_ne_nil (Decimal.isDigit_toDigits n),
        Decimal.ofDigits_toDigits]
    rw [int?, splitSign_signed hd]
    simp [hbase, hpadded, hnat]
  have hfits : fitsWord n = true := by
    rw [fitsWord, Bool.and_eq_true, decide_eq_true_iff, decide_eq_true_iff]
    omega
  rw [resolve, if_neg (not_mem_words (by decide) hs hd), if_neg (not_mem_words (by decide) hs hd),
    if_neg (not_mem_words (by decide) hs hd), hs, hint]
  simp only [hfits, if_true]

/-- **A written floating point number stands for the number.** With its point or its exponent it is
no whole number. -/
theorem resolve_render {x : Binary64} (hx : x.isFinite = true) :
    resolve (NumberStyle.yaml.render x) = .float x := by
  obtain ⟨negative, text, whole, fraction, mark, place, hnumeral, htext, hread⟩ :=
    render_spec .yaml rfl hx
  obtain ⟨d, ds, hcons, hd⟩ := hnumeral.exists_cons
  have hs : (NumberStyle.yaml.render x).toList = signed negative (d :: ds) := hcons ▸ htext
  -- the point or the mark of the exponent keeps it from being an integer
  have hmark : ∀ c, c = '.' ∨ c = 'e' →
      digit? 10 c = none ∧ c.isDigit = false ∧ c ≠ 'x' ∧ c ≠ 'o' ∧ c ≠ 'b' := by
    rintro c (rfl | rfl) <;> exact ⟨rfl, rfl, by decide, by decide, by decide⟩
  have hpadded := isPaddedDigits_signed hd
    (fun c rest heq => (hmark c (hnumeral.second (hcons.trans heq))).2.1) negative
  have hint : int? (signed negative (d :: ds)) = none := by
    have hbase : splitBase (d :: ds) = (10, d :: ds) :=
      splitBase_ten fun c rest heq => (hmark c (hnumeral.second (hcons.trans heq))).2.2
    have hnat : natOf? 10 (d :: ds) = none := by
      obtain ⟨c, rest, hrest, hc⟩ := hnumeral.exists_mark
      refine natOf?_eq_none (c := c) ?_ (hmark c hc).1
      rw [← hcons, hnumeral.parts, hrest]
      simp
    rw [int?, splitSign_signed hd]
    simp [hbase, hpadded, hnat]
  have hfloat : float? (signed negative (d :: ds)) = some x := by
    have hparse := hnumeral.parse? negative
    rw [hcons] at hparse
    rw [float?_signed hd negative hparse (by rw [hread]; exact hx), hread]
  rw [resolve, if_neg (not_mem_words (by decide) hs hd), if_neg (not_mem_words (by decide) hs hd),
    if_neg (not_mem_words (by decide) hs hd), hs, hint]
  simp only [hpadded, Bool.false_eq_true, if_false, hfloat]

/-- **A text that needs no quotes stands for itself.** The writer puts quotes around every text that
could be taken for something else. -/
theorem resolve_of_not_needsQuotes {s : String} (h : needsQuotes s = false) : resolve s = text := by
  rw [needsQuotes, Bool.or_eq_false_iff, bne_eq_false_iff_eq] at h
  exact h.1

end CoChange.Yaml.Scalar
