import CoChange.Arithmetic
import CoChange.Proofs.Yaml.PlainText

/-!
# Quoted texts are read back

* **`takeSingleQuoted_inside`**: a text between single quotes is read back, with its separators of
  lines.
* **`takeDoubleQuoted_body`**: every text is read back from between double quotes: each character is
  read back from the way it is written (`standsFor_escape`).
-/

namespace CoChange.Yaml

/-! ## Pairs of neighbours -/

/-- A text has no pair of such characters exactly if its first character does not begin one and the
rest has none. -/
theorem hasPair_cons {p q : Char → Bool} {c : Char} {cs : List Char} :
    hasPair p q (c :: cs) = false ↔
    (p c = true → ∀ d ∈ cs.head?, q d = false) ∧ hasPair p q cs = false := by
  cases cs with
  | nil => simp [hasPair]
  | cons d cs =>
    rw [hasPair, Bool.or_eq_false_iff, Bool.and_eq_false_imp]
    simp

/-! ## Single quotes -/

section Single

variable {cs text gap rest : List Char} {column indent : Nat}

/-- What can stand between single quotes: the only line breaks are the separators of lines and
paragraphs, and no space stands at either side of them. -/
structure Quotable (cs : List Char) : Prop where
  printable : ∀ c ∈ cs, isPrintable c = true
  oneLine : '\n' ∉ cs
  before : hasPair (· = ' ') isBreak cs = false
  after : hasPair isBreak (· = ' ') cs = false

theorem Quotable.tail {c : Char} (h : Quotable (c :: cs)) : Quotable cs where
  printable d hd := h.printable d (List.mem_cons_of_mem _ hd)
  oneLine hmem := h.oneLine (List.mem_cons_of_mem _ hmem)
  before := (hasPair_cons.mp h.before).2
  after := (hasPair_cons.mp h.after).2

/-- What a gap between words reads as if its first line break is no line feed. -/
theorem text_breaks {first : Char} (hfirst : first ≠ '\n') (others : List Char) :
    (Gap.breaks (some first) others).text = others ++ [first] := by
  unfold Gap.text
  split
  · rename_i heq
    simp at heq
  · rename_i heq
    simp only [Gap.breaks.injEq, Option.some.injEq] at heq
    exact absurd heq.1 hfirst
  · rename_i heq
    simp only [Gap.breaks.injEq, Option.some.injEq] at heq
    exact absurd heq.1 hfirst
  · rename_i heq
    simp only [Gap.breaks.injEq] at heq
    rw [← heq.1, ← heq.2]
    rfl

/-- The indentation of a line is no part of the text. -/
theorem takeSingleQuoted_blanks (first : Option Char) (others : List Char) (n : Nat) :
    takeSingleQuoted column text (.breaks first others) false (blanks n ++ rest) =
      takeSingleQuoted (column + n) text (.breaks first others) false rest := by
  induction n generalizing column with
  | zero => rfl
  | succ n ih =>
    rw [blanks_succ, List.cons_append, takeSingleQuoted]
    simp only [show isBreak ' ' = false from rfl, show isBlank ' ' = true from rfl, Gap.blank,
      Bool.false_eq_true, if_false, if_true]
    rw [ih]
    congr 1
    omega

/-- The closing quote ends the text. -/
theorem takeSingleQuoted_close (g : Gap) (hcolumn : 0 < column) (hrest : rest.head? ≠ some '\'') :
    takeSingleQuoted column text g false ('\'' :: rest) = .ok ⟨(g.text ++ text).reverse, rest⟩ := by
  rw [takeSingleQuoted]
  simp only [show isBreak '\'' = false from rfl, show isBlank '\'' = false from rfl,
    Nat.ne_of_gt hcolumn, Bool.false_eq_true, if_false, if_true, decide_false, Bool.false_and]
  cases rest with
  | nil => rfl
  | cons c rest =>
    have hc : c ≠ '\'' := fun heq => hrest (by rw [heq]; rfl)
    rw [takeSingleQuoted]
    simp only [if_true, if_neg hc]

/-- A character that is no space is added to the text behind the gap. -/
theorem takeSingleQuoted_char {c : Char} (text rest : List Char) (g : Gap) (hcolumn : 0 < column)
    (hbreak : isBreak c = false) (hblank : isBlank c = false) : ∃ column', 0 < column' ∧
      takeSingleQuoted column text g false ((if c = '\'' then ['\'', '\''] else [c]) ++ rest) =
        takeSingleQuoted column' (c :: (g.text ++ text)) (.blanks []) false rest := by
  -- a quote is written twice, and the second one is read together with the first
  by_cases hc : c = '\''
  · subst hc
    refine ⟨column + 1 + 1, by omega, ?_⟩
    rw [if_pos rfl, List.cons_append, List.singleton_append, takeSingleQuoted]
    simp only [hbreak, hblank, Nat.ne_of_gt hcolumn, Bool.false_eq_true, if_false, if_true,
      decide_false, Bool.false_and]
    rw [takeSingleQuoted]
    simp only [if_true]
    rfl
  · refine ⟨column + 1, by omega, ?_⟩
    rw [if_neg hc, List.singleton_append, takeSingleQuoted]
    simp only [hbreak, hblank, hc, Nat.ne_of_gt hcolumn, Bool.false_eq_true, if_false, decide_false,
      Bool.false_and]
    rfl

mutual

/-- The rest of a text is read on a line of it. -/
theorem takeSingleQuoted_inside (cs : List Char) {text gap : List Char} {column : Nat}
    (h : Quotable cs) (hindent : 0 < indent) (hcolumn : 0 < column) (hrest : rest.head? ≠ some '\'')
    (hgap : gap ≠ [] → ∀ c ∈ cs.head?, isBreak c = false) :
    takeSingleQuoted column text (.blanks gap)
      false (singleQuoted indent false cs ++ '\'' :: rest) =
      .ok ⟨(gap ++ text).reverse ++ cs, rest⟩ := by
  match cs with
  | [] =>
    rw [singleQuoted, if_neg Bool.false_ne_true, List.nil_append,
      takeSingleQuoted_close _ hcolumn hrest, List.append_nil]
    rfl
  | c :: cs =>
    have hprint := h.printable c List.mem_cons_self
    rw [singleQuoted]
    cases hbreak : isBreak c with
    | true =>
      -- a line break: there is no space in front of it
      have hempty : gap = [] := by
        cases gap with
        | nil => rfl
        | cons d ds =>
          have := hgap (List.cons_ne_nil d ds) c rfl
          rw [hbreak] at this
          exact absurd this (by decide)
      have hline : c ≠ '\n' := fun heq => h.oneLine (heq ▸ List.mem_cons_self)
      rw [if_pos rfl, List.cons_append, takeSingleQuoted]
      simp only [hbreak, Bool.false_eq_true, if_false, if_true, Gap.lineBreak]
      rw [takeSingleQuoted_line cs h.tail hindent hrest hline ((hasPair_cons.mp h.after).1 hbreak),
        hempty]
      simp
    | false =>
      rw [if_neg Bool.false_ne_true, if_neg Bool.false_ne_true, List.nil_append, List.append_assoc]
      by_cases hspace : c = ' '
      · subst hspace
        rw [if_neg (by decide), List.singleton_append, takeSingleQuoted]
        simp only [hbreak, show isBlank ' ' = true from rfl, Gap.blank, Bool.false_eq_true,
          if_false, if_true]
        rw [takeSingleQuoted_inside cs h.tail hindent (Nat.succ_pos column) hrest fun _ =>
          (hasPair_cons.mp h.before).1 (by decide)]
        simp
      · have hblank := isBlank_eq_false hprint hspace
        obtain ⟨column', hcolumn', hread⟩ := takeSingleQuoted_char text
          (singleQuoted indent false cs ++ '\'' :: rest) (.blanks gap) hcolumn hbreak hblank
        rw [hread, takeSingleQuoted_inside cs h.tail hindent hcolumn' hrest fun h => absurd rfl h]
        simp [Gap.text]

/-- The rest of a text is read from the start of a line. -/
theorem takeSingleQuoted_line (cs : List Char) {text others : List Char} {first : Char}
    (h : Quotable cs)
    (hindent : 0 < indent) (hrest : rest.head? ≠ some '\'') (hfirst : first ≠ '\n')
    (hspace : ∀ c ∈ cs.head?, decide (c = ' ') = false) :
    takeSingleQuoted 0 text (.breaks (some first) others) false
        (singleQuoted indent true cs ++ '\'' :: rest) =
      .ok ⟨(others ++ first :: text).reverse ++ cs, rest⟩ := by
  match cs with
  | [] =>
    rw [singleQuoted, if_pos rfl, takeSingleQuoted_blanks,
      takeSingleQuoted_close _ (by omega) hrest, text_breaks hfirst]
    simp
  | c :: cs =>
    have hprint := h.printable c List.mem_cons_self
    rw [singleQuoted]
    cases hbreak : isBreak c with
    | true =>
      -- a further break is held back with the others
      rw [if_pos rfl, List.cons_append, takeSingleQuoted]
      simp only [hbreak, Bool.false_eq_true, if_false, if_true, Gap.lineBreak]
      rw [takeSingleQuoted_line cs h.tail hindent hrest hfirst ((hasPair_cons.mp h.after).1 hbreak)]
      simp
    | false =>
      have hblank := isBlank_eq_false hprint (of_decide_eq_false (hspace c rfl))
      obtain ⟨column', hcolumn', hread⟩ := takeSingleQuoted_char text
        (singleQuoted indent false cs ++ '\'' :: rest) (.breaks (some first) others)
        (show 0 < 0 + indent by omega) hbreak hblank
      rw [if_neg Bool.false_ne_true, if_pos rfl, List.append_assoc, List.append_assoc,
        takeSingleQuoted_blanks, hread,
        takeSingleQuoted_inside cs h.tail hindent hcolumn' hrest fun h => absurd rfl h,
        text_breaks hfirst]
      simp

end

end Single

/-! ## Escapes -/

section Escapes

variable {text gap rest : List Char} {column : Nat}

/-- The number that hexadecimal digits continue. -/
def hexNumber? (value : Nat) (ds : List Char) : Option Nat :=
  ds.foldlM (fun v c => (hexValue? c).map (16 * v + ·)) value

/-- A number of hexadecimal digits is read digit by digit, each of which has to be one. -/
theorem hexNumber?_cons {c : Char} {ds : List Char} {value v : Nat} :
    hexNumber? value (c :: ds) = some v ↔
    ∃ d, hexValue? c = some d ∧ hexNumber? (16 * value + d) ds = some v := by
  rw [hexNumber?, List.foldlM_cons]
  cases hexValue? c with
  | none => simp
  | some d => simp [hexNumber?]

theorem hexValue?_capital : ∀ d < 16, hexValue? (Nat.digitChar d).toUpper = some d := by
  decide

/-- The digits of a number, in capitals, are read back as the number. -/
theorem hexNumber?_digits (n : Nat) :
    hexNumber? 0 ((Nat.toDigits 16 n).map Char.toUpper) = some n := by
  induction n using Nat.strongRecOn with
  | ind n ih =>
    by_cases hn : n < 16
    · rw [Nat.toDigits_of_lt_base hn, List.map_singleton, hexNumber?_cons]
      exact ⟨n, hexValue?_capital n hn, by simp [hexNumber?]⟩
    · have hlast := hexValue?_capital (n % 16) (Nat.mod_lt n (by decide))
      have hmore := ih (n / 16) (by omega)
      rw [hexNumber?] at hmore ⊢
      rw [Nat.toDigits_of_base_le (by decide) (by omega), List.map_append, List.foldlM_append,
        hmore]
      simp only [List.map_singleton, Option.bind_eq_bind, Option.bind_some, List.foldlM_cons,
        List.foldlM_nil, hlast, Option.map_some]
      show some (16 * (n / 16) + n % 16) = some n
      rw [Nat.div_add_mod]

/-- **A number in base sixteen is read back.** Zeros in front of the digits add nothing. -/
theorem hexNumber?_capitalHex (width n : Nat) : hexNumber? 0 (capitalHex width n) = some n := by
  have hzeros : ∀ k ds, hexNumber? 0 (List.replicate k '0' ++ ds) = hexNumber? 0 ds := by
    intro k ds
    induction k with
    | zero => rfl
    | succ k ih => exact ih
  rw [capitalHex, hzeros, hexNumber?_digits]

theorem length_capitalHex {width n : Nat} (hwidth : 0 < width) (hn : n < 16 ^ width) :
    (capitalHex width n).length = width := by
  have := (Nat.length_toDigits_le_iff (by decide) hwidth).mpr hn
  simp only [capitalHex, List.length_append, List.length_replicate, List.length_map]
  omega

/-- The digits of an escape are read as its character. -/
theorem takeDoubleQuoted_hex (column : Nat) (text rest : List Char) {ds : List Char} {value v : Nat}
    (hne : ds ≠ []) (hv : hexNumber? value ds = some v) (hvalid : v.isValidChar) :
    takeDoubleQuoted column text .empty (.hex ds.length value) (ds ++ rest) =
      takeDoubleQuoted (column + ds.length) (Char.ofNat v :: text) .empty .none rest := by
  induction ds generalizing column value with
  | nil => exact absurd rfl hne
  | cons c ds ih =>
    obtain ⟨d, hd, hmore⟩ := hexNumber?_cons.mp hv
    rw [List.cons_append, takeDoubleQuoted]
    simp only [hd, List.length_cons]
    -- the last digit completes the character
    cases ds with
    | nil =>
      have hlast : 16 * value + d = v := by simpa [hexNumber?] using hmore
      subst hlast
      rw [if_neg (by simp), if_pos hvalid]
      rfl
    | cons c' ds =>
      rw [if_pos (by simp), Nat.add_sub_cancel, ih _ (List.cons_ne_nil c' ds) hmore,
        List.length_cons]
      congr 1
      omega

/-- At a backslash, the blanks that were pending belong to the text, and an escape has started. -/
theorem takeDoubleQuoted_backslash {c : Char} (hcolumn : 0 < column) :
    takeDoubleQuoted column text (.blanks gap) .none ('\\' :: c :: rest) =
      takeDoubleQuoted (column + 1) (gap ++ text) .empty .started (c :: rest) := by
  conv => lhs; rw [takeDoubleQuoted]
  simp only [show isBreak '\\' = false from rfl, show isBlank '\\' = false from rfl,
    Nat.ne_of_gt hcolumn, Bool.false_eq_true, if_false, if_true, decide_false, Bool.false_and,
    Gap.text]
  rfl

/-- Between double quotes the characters are read as a single one, whatever stands around them. -/
def StandsFor (cs : List Char) (c : Char) : Prop :=
  ∀ ⦃column : Nat⦄ (text gap rest : List Char), 0 < column → ∃ column' text' gap', 0 < column' ∧
    gap' ++ text' = c :: (gap ++ text) ∧
      takeDoubleQuoted column text (.blanks gap) .none (cs ++ rest) =
        takeDoubleQuoted column' text' (.blanks gap') .none rest

/-- A character that can be printed stands for itself, unless it has a meaning in quotes. -/
theorem standsFor_self {c : Char} (hprint : isPrintable c = true) (hbreak : isBreak c = false)
    (hquote : c ≠ '"') (hslash : c ≠ '\\') : StandsFor [c] c := by
  intro column text gap rest hcolumn
  rw [List.singleton_append, takeDoubleQuoted]
  by_cases hspace : c = ' '
  · -- a space may turn out to be one of those in front of a line break
    refine ⟨column + 1, text, c :: gap, Nat.succ_pos _, rfl, ?_⟩
    have hblank : isBlank c = true := (isBlank_of_isPrintable hprint).mpr hspace
    simp only [hbreak, hblank, Bool.false_eq_true, if_false, if_true, Gap.blank]
  · refine ⟨column + 1, c :: (gap ++ text), [], Nat.succ_pos _, rfl, ?_⟩
    have hblank := isBlank_eq_false hprint hspace
    simp only [hbreak, hblank, hquote, hslash, Nat.ne_of_gt hcolumn, Bool.false_eq_true, if_false,
      decide_false, Bool.false_and, Gap.text]
    rfl

/-- A backslash and the letter that is short for a character stand for it. -/
theorem standsFor_letter {c letter : Char} (hletter : shortEscapes.lookup c.toNat = some letter) :
    StandsFor ['\\', letter] c := by
  intro column text gap rest hcolumn
  have hall : ∀ p ∈ shortEscapes, isBreak p.2 = false ∧
      letterEscapes.lookup p.2 = some p.1 := by decide
  obtain ⟨before, after, hmem, -⟩ := List.lookup_eq_some_iff.mp hletter
  obtain ⟨hbreak, hback⟩ := hall (c.toNat, letter) (by rw [hmem]; simp)
  refine ⟨column + 1 + 1, c :: (gap ++ text), [], Nat.succ_pos _, rfl, ?_⟩
  rw [List.cons_append, List.singleton_append, takeDoubleQuoted_backslash hcolumn, takeDoubleQuoted]
  simp only [hbreak, hback, Bool.false_eq_true, if_false, Char.ofNat_toNat]
  rfl

/-- A backslash, a letter for the width and that many digits stand for the character with the
number. -/
theorem standsFor_hex {c letter : Char} {width : Nat} (hletter : letterEscapes.lookup letter = none)
    (hwidth : hexEscapes.lookup letter = some width) (hbreak : isBreak letter = false)
    (hpos : 0 < width) (hn : c.toNat < 16 ^ width) :
    StandsFor ('\\' :: letter :: capitalHex width c.toNat) c := by
  intro column text gap rest hcolumn
  have hlength := length_capitalHex hpos hn
  have hne : capitalHex width c.toNat ≠ [] := List.ne_nil_of_length_pos (by omega)
  have hdigits := takeDoubleQuoted_hex (column + 1 + 1) (gap ++ text) rest hne
    (hexNumber?_capitalHex width c.toNat) c.valid
  rw [hlength, Char.ofNat_toNat] at hdigits
  refine ⟨column + 1 + 1 + width, c :: (gap ++ text), [], by omega, rfl, ?_⟩
  rw [List.cons_append, List.cons_append, takeDoubleQuoted_backslash hcolumn, takeDoubleQuoted]
  simp only [hbreak, hletter, hwidth, Bool.false_eq_true, if_false]
  exact hdigits

/-- **A character is read back from the way it is written.** The cases are those of the writer: the
character itself, a short escape, and its number in two, four or eight digits. -/
theorem standsFor_escape (c : Char) : StandsFor (escape c) c := by
  unfold escape
  simp only
  split
  · rename_i hplain
    simp only [Bool.and_eq_true, Bool.not_eq_true', bne_iff_ne] at hplain
    obtain ⟨⟨⟨hprint, hbreak⟩, hquote⟩, hslash⟩ := hplain
    exact standsFor_self hprint hbreak hquote hslash
  · -- the number of digits depends on the size of the code
    split
    · rename_i hletter
      exact standsFor_letter hletter
    · split
      · exact standsFor_hex rfl rfl rfl (by decide) (by omega)
      · split
        · exact standsFor_hex rfl rfl rfl (by decide) (by omega)
        · have hmax : c.toNat < 0x110000 := by
            rcases c.valid with h | ⟨-, h⟩
            · exact Nat.lt_trans h (by decide)
            · exact h
          exact standsFor_hex rfl rfl rfl (by decide) (by omega)

/-- **Every text is read back from between double quotes.** The induction is on the text, one
character or escape at a time. -/
theorem takeDoubleQuoted_body (cs : List Char) (hcolumn : 0 < column) :
    takeDoubleQuoted column text (.blanks gap) .none (cs.flatMap escape ++ '"' :: rest) =
      .ok ⟨(gap ++ text).reverse ++ cs, rest⟩ := by
  induction cs generalizing column text gap with
  | nil =>
    rw [List.flatMap_nil, List.nil_append, takeDoubleQuoted]
    simp only [show isBreak '"' = false from rfl, show isBlank '"' = false from rfl,
      Nat.ne_of_gt hcolumn, Bool.false_eq_true, if_false, if_true, decide_false, Bool.false_and,
      Gap.text, List.append_nil]
  | cons c cs ih =>
    obtain ⟨column', text', gap', hcolumn', htext, hread⟩ := standsFor_escape c text gap
      (cs.flatMap escape ++ '"' :: rest) hcolumn
    rw [List.flatMap_cons, List.append_assoc, hread, ih hcolumn', htext]
    simp

end Escapes

end CoChange.Yaml
