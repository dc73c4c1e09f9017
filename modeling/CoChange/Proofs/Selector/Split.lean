import CoChange.Selector.Split
import Mathlib.Data.List.Basic
import Mathlib.Data.List.Count
import Mathlib.Data.List.Infix

/-!
# The parts of a text outside quotes

* **`intercalate_splitOutsideQuotes`**: the parts, with the separator between them, are the text.
* **`splitOutsideQuotes_of_encloses`**, **`splitOutsideQuotes_append`**: a text whose quotes are
  closed and that has no sign of the separator outside them is one part, and what follows it behind
  a separator is split on its own.
* **`cutsWhereMet_splitFrom`**: a scan cuts at the separators that it meets outside quotes and not
  inside another separator that it cuts at.
* **`balanced_splitFrom`**: quotes that are closed in the text are closed in every part.
* **`cut_at_separators_outside_quotes`**: both, and that nothing is lost, for a whole text.

The separators that are met are two equal signs. `Encloses` asks that no single one stands outside
the quotes: behind a text that ends in one, the separator would be found a sign too early. What is
cut in any text is told by its *seams*, the positions at which a separator stood between two parts.
-/

namespace CoChange

/-- Whether all signs of a kind stand inside quotes, and the quotes are closed at the end. `quoted`
says whether the text starts inside quotes. -/
def Encloses (mark : Char) : (quoted : Bool) → List Char → Prop
  | quoted, [] => quoted = false
  | quoted, c :: rest =>
    if c = '"' then Encloses mark (!quoted) rest else (quoted = true ∨ c ≠ mark) ∧
      Encloses mark quoted rest

/-- All quotes of a text are closed: their number is even. -/
def Balanced (cs : List Char) : Prop := cs.count '"' % 2 = 0

instance (cs : List Char) : Decidable (Balanced cs) := inferInstanceAs (Decidable (_ = 0))

/-- The separator stands at a position of a text, with an even number of quotes before it. -/
def StandsOutside (separator text : List Char) (p : Nat) : Prop :=
  separator <+: text.drop p ∧ Balanced (text.take p)

/-- The positions of the separator between parts, the first of which starts at the given
position. -/
def seams (separator : List Char) (start : Nat) : List (List Char) → List Nat
  | part :: next :: rest =>
    (start + part.length) :: seams separator (start + part.length + separator.length) (next :: rest)
  | _ => []

variable {separator cs rest current text : List Char} {mark : Char} {quoted : Bool}
    {skip start p : Nat}

/-! ## Nothing is lost -/

/-- A text has at least one part. -/
theorem splitFrom_ne_nil : splitFrom separator quoted skip current cs ≠ [] := by
  fun_induction splitFrom <;> simp_all

/-- **The parts with the separator between them are what was read.** The induction is on the text
that is still to be read. -/
theorem intercalate_splitFrom (hsep : separator ≠ []) :
    separator.intercalate (splitFrom separator quoted skip current cs) =
      current.reverse ++ cs.drop skip := by
  fun_induction splitFrom with
  | case1 quoted skip current => rw [List.intercalate_singleton, List.drop_nil, List.append_nil]
  | case2 quoted current skip c rest ih => exact ih
  | case3 quoted current rest ih => rw [ih, List.reverse_cons, List.append_assoc]; rfl
  | case4 quoted current c rest hc hmet ih =>
    -- what is passed over next is the rest of the separator
    obtain ⟨tail, htail⟩ := List.isPrefixOf_iff_prefix.mp (Bool.and_eq_true_iff.mp hmet).2
    have hrest : rest.drop (separator.length - 1) = tail := by
      have hdrop : (c :: rest).drop separator.length = tail := by rw [← htail, List.drop_left]
      rwa [← Nat.sub_add_cancel (List.length_pos_iff.mpr hsep), List.drop_succ_cons] at hdrop
    rw [List.intercalate_cons_of_ne_nil splitFrom_ne_nil, ih, hrest, ← htail]
    simp only [List.reverse_nil, List.nil_append, List.drop_zero, List.append_assoc]
  | case5 quoted current c rest hc hmet ih => rw [ih, List.reverse_cons, List.append_assoc]; rfl

/-- **The parts of a text with the separator between them are the text.** So nothing is lost and
nothing added by the cutting. -/
theorem intercalate_splitOutsideQuotes (hsep : separator ≠ []) (text : List Char) :
    separator.intercalate (splitOutsideQuotes separator text) = text :=
  intercalate_splitFrom hsep

/-! ## One step of the scan -/

/-- In the middle of a separator the rest of it is dropped, whatever it is. -/
theorem splitFrom_skip (current : List Char) (skip : Nat) (cs : List Char) :
    splitFrom separator quoted skip current cs =
      splitFrom separator quoted 0 current (cs.drop skip) := by
  induction skip generalizing cs with
  | zero => rfl
  | succ skip ih =>
    cases cs with
    | nil => simp only [splitFrom, List.drop_nil]
    | cons c rest => rw [splitFrom, ih, List.drop_succ_cons]

/-- A quote opens or closes quoted text, and belongs to its part. -/
theorem splitFrom_quote (current rest : List Char) :
    splitFrom separator quoted 0 current ('"' :: rest) =
      splitFrom separator (!quoted) 0 ('"' :: current) rest := by
  rw [splitFrom, if_pos rfl]

/-- A separator outside quotes ends the part that is read. -/
theorem splitFrom_cut (hsep : separator ≠ []) (hquote : '"' ∉ separator)
    (current rest : List Char) :
    splitFrom separator false 0 current (separator ++ rest) =
      current.reverse :: splitFrom separator false 0 [] rest := by
  obtain ⟨c, tail, rfl⟩ := List.exists_cons_of_ne_nil hsep
  have hc : c ≠ '"' := fun h => hquote (h ▸ List.mem_cons_self)
  have hmet : (!false && (c :: tail).isPrefixOf (c :: (tail ++ rest))) = true :=
    List.isPrefixOf_iff_prefix.mpr ⟨rest, rfl⟩
  rw [List.cons_append, splitFrom, if_neg hc, if_pos hmet, splitFrom_skip]
  show _ :: splitFrom _ _ _ _ ((tail ++ rest).drop tail.length) = _
  rw [List.drop_left]

/-- All other characters belong to the part that is read. -/
theorem splitFrom_other {c : Char} (hc : c ≠ '"') (h : quoted = true ∨ ¬ separator <+: c :: rest)
    (current : List Char) :
    splitFrom separator quoted 0 current (c :: rest) =
      splitFrom separator quoted 0 (c :: current) rest := by
  have hunmet : ¬ (!quoted && separator.isPrefixOf (c :: rest)) = true := by
    rw [Bool.and_eq_true, Bool.not_eq_true', List.isPrefixOf_iff_prefix]
    rintro ⟨rfl, hmet⟩
    exact h.elim Bool.false_ne_true fun h => h hmet
  rw [splitFrom, if_neg hc, if_neg hunmet]

/-- What the steps of a scan keep is true of every scan. -/
theorem splitFrom_induction {P : Bool → List Char → List Char → Prop} (hsep : separator ≠ [])
    (nil : ∀ quoted current, P quoted current [])
    (quote : ∀ quoted current rest, P (!quoted) ('"' :: current) rest →
      P quoted current ('"' :: rest))
    (cut : ∀ current rest, P false [] rest → P false current (separator ++ rest))
    (other : ∀ quoted current c rest, c ≠ '"' → (quoted = true ∨ ¬ separator <+: c :: rest) →
      P quoted (c :: current) rest → P quoted current (c :: rest))
    (quoted : Bool) (current cs : List Char) : P quoted current cs := by
  induction hn : cs.length using Nat.strongRecOn generalizing quoted current cs with
  | ind n ih =>
    subst hn
    cases cs with
    | nil => exact nil quoted current
    | cons c rest =>
      have hrest : rest.length < (c :: rest).length := Nat.lt_succ_self _
      by_cases hc : c = '"'
      · subst hc
        exact quote _ _ _ (ih _ hrest _ _ _ rfl)
      by_cases hmet : quoted = false ∧ separator <+: c :: rest
      · obtain ⟨rfl, behind, heq⟩ := hmet
        -- a separator is not empty, so less is left behind it
        have hbehind : behind.length < (c :: rest).length := by
          have := List.length_pos_iff.mpr hsep
          rw [← heq, List.length_append]
          omega
        rw [← heq]
        exact cut _ _ (ih _ hbehind _ _ _ rfl)
      · refine other _ _ _ _ hc ?_ (ih _ hrest _ _ _ rfl)
        rwa [not_and_or, Bool.not_eq_false] at hmet

/-! ## Texts that enclose the separator -/

@[simp]
theorem encloses_nil : Encloses mark quoted [] ↔ quoted = false := Iff.rfl

@[simp]
theorem encloses_quote : Encloses mark quoted ('"' :: cs) ↔ Encloses mark (!quoted) cs := Iff.rfl

/-- A character that is no quote is enclosed if it stands in quotes or is not the mark. -/
theorem encloses_cons {c : Char} (hc : c ≠ '"') :
    Encloses mark quoted (c :: cs) ↔ (quoted = true ∨ c ≠ mark) ∧ Encloses mark quoted cs := by
  rw [Encloses, if_neg hc]

/-- What is enclosed from a quoted state and leaves it goes on with what is enclosed from
outside. -/
theorem Encloses.append (h : Encloses mark quoted cs) (hrest : Encloses mark false rest) :
    Encloses mark quoted (cs ++ rest) := by
  induction cs generalizing quoted with
  | nil => rw [encloses_nil.mp h]; exact hrest
  | cons c tail ih =>
    by_cases hc : c = '"'
    · subst hc
      exact encloses_quote.mpr (ih (encloses_quote.mp h))
    · have h := (encloses_cons hc).mp h
      exact (encloses_cons hc).mpr ⟨h.1, ih h.2⟩

/-- Text without quotes and without the sign. -/
theorem encloses_of_free (h : ∀ c ∈ cs, c ≠ '"' ∧ c ≠ mark) : Encloses mark false cs := by
  induction cs with
  | nil => rfl
  | cons c tail ih =>
    have hc := h c List.mem_cons_self
    exact (encloses_cons hc.1).mpr ⟨.inr hc.2, ih fun d hd => h d (List.mem_cons_of_mem c hd)⟩

/-- A quoted text, whatever else stands in it. -/
theorem encloses_quoted {value : List Char} (h : '"' ∉ value) :
    Encloses mark false ('"' :: (value ++ ['"'])) := by
  have hclose : Encloses mark true (value ++ ['"']) := by
    induction value with
    | nil => rfl
    | cons c tail ih =>
      rw [List.mem_cons, not_or] at h
      exact (encloses_cons (Ne.symm h.1)).mpr ⟨.inl rfl, ih h.2⟩
  exact encloses_quote.mpr hclose

/-- Reading on behind a text that encloses the sign: all of it belongs to the part that is read. -/
theorem splitFrom_append (h : Encloses mark quoted cs) (current rest : List Char) :
    splitFrom [mark, mark] quoted 0 current (cs ++ rest) =
      splitFrom [mark, mark] false 0 (cs.reverse ++ current) rest := by
  induction cs generalizing quoted current with
  | nil => rw [encloses_nil.mp h]; rfl
  | cons c tail ih =>
    rw [List.reverse_cons, List.append_assoc, List.cons_append]
    by_cases hc : c = '"'
    · subst hc
      rw [splitFrom_quote, ih (encloses_quote.mp h)]
      rfl
    · -- a sign of the separator is met inside quotes only
      have h := (encloses_cons hc).mp h
      have hunmet := h.1.imp_right fun hmark (hmet : [mark, mark] <+: c :: (tail ++ rest)) =>
        hmark (List.cons_prefix_cons.mp hmet).1.symm
      rw [splitFrom_other hc hunmet, ih h.2]
      rfl

/-- **A text that encloses the sign is one part.** The sign only occurs where a quote is open, or
not twice in a row. -/
theorem splitOutsideQuotes_of_encloses (h : Encloses mark false cs) :
    splitOutsideQuotes [mark, mark] cs = [cs] := by
  have hall := splitFrom_append h [] []
  rw [List.append_nil, List.append_nil, splitFrom, List.reverse_reverse] at hall
  exact hall

/-- **A text that encloses the sign is the first part of what goes on with a separator.** The first
cut is made there, because no quote is open at that place and the sign was met nowhere before. -/
theorem splitOutsideQuotes_append (hmark : mark ≠ '"') (h : Encloses mark false cs)
    (rest : List Char) :
    splitOutsideQuotes [mark, mark] (cs ++ [mark, mark] ++ rest) =
      cs :: splitOutsideQuotes [mark, mark] rest := by
  have hquote : '"' ∉ [mark, mark] := by
    rw [List.mem_pair, or_self]
    exact hmark.symm
  rw [splitOutsideQuotes, List.append_assoc, splitFrom_append h, List.append_nil,
    splitFrom_cut (List.cons_ne_nil _ _) hquote, List.reverse_reverse]
  rfl

/-! ## Seams -/

/-- The seam behind the first part stands at its end, and the others follow behind the separator. -/
theorem seams_cons {parts : List (List Char)} (h : parts ≠ []) (part : List Char) :
    seams separator start (part :: parts) =
      (start + part.length) :: seams separator (start + part.length + separator.length) parts := by
  obtain ⟨next, rest, rfl⟩ := List.exists_cons_of_ne_nil h
  rw [seams]

/-- No seam lies in front of the place where the parts begin. -/
theorem le_of_mem_seams {parts : List (List Char)} (h : p ∈ seams separator start parts) :
    start ≤ p := by
  fun_induction seams separator start parts with
  | case1 start part next rest ih =>
    rcases List.mem_cons.mp h with rfl | h
    · exact Nat.le_add_right ..
    · have := ih h
      omega
  | case2 => exact absurd h List.not_mem_nil

/-- Seams come one after the other, with room for the separator in between. -/
theorem pairwise_seams (separator : List Char) (start : Nat) (parts : List (List Char)) :
    (seams separator start parts).Pairwise fun p q => p + separator.length ≤ q := by
  fun_induction seams separator start parts with
  | case1 start part next rest ih =>
    exact List.pairwise_cons.mpr ⟨fun q hq => le_of_mem_seams hq, ih⟩
  | case2 => exact List.Pairwise.nil

/-! ## Where a scan cuts -/

/-- The number of quotes before a position of the rest of a text is even. -/
def ClosedAt (quoted : Bool) (cs : List Char) (i : Nat) : Prop :=
  ((cs.take i).count '"' + quoted.toNat) % 2 = 0

theorem closedAt_zero : ClosedAt quoted cs 0 ↔ quoted = false := by
  rw [ClosedAt, List.take_zero, List.count_nil]
  cases quoted <;> decide

theorem closedAt_quote_succ {i : Nat} : ClosedAt quoted ('"' :: rest) (i + 1) ↔
    ClosedAt (!quoted) rest i := by
  have htoggle : (1 + quoted.toNat) % 2 = (!quoted).toNat := by cases quoted <;> rfl
  rw [ClosedAt, ClosedAt, List.take_succ_cons, List.count_cons_self]
  omega

theorem closedAt_cons_succ {c : Char} (hc : c ≠ '"') {i : Nat} :
    ClosedAt quoted (c :: rest) (i + 1) ↔ ClosedAt quoted rest i := by
  rw [ClosedAt, ClosedAt, List.take_succ_cons, List.count_cons_of_ne hc]

/-- A separator without quotes opens and closes nothing. -/
theorem closedAt_append (hquote : '"' ∉ separator) {i : Nat} :
    ClosedAt quoted (separator ++ rest) (separator.length + i) ↔ ClosedAt quoted rest i := by
  rw [ClosedAt, ClosedAt, List.take_length_add_append, List.count_append,
    List.count_eq_zero_of_not_mem hquote, Nat.zero_add]

/-- No seam lies in what was read before. -/
theorem le_of_mem_seams_splitFrom (hsep : separator ≠ []) (hquote : '"' ∉ separator)
    (h : p ∈ seams separator start (splitFrom separator quoted 0 current cs)) :
    start + current.length ≤ p := by
  induction quoted, current, cs using splitFrom_induction hsep with
  | nil => exact absurd h List.not_mem_nil
  | quote quoted current rest ih =>
    rw [splitFrom_quote] at h
    exact Nat.le_of_succ_le (ih h)
  | cut current rest ih =>
    rw [splitFrom_cut hsep hquote, seams_cons splitFrom_ne_nil, List.length_reverse] at h
    rcases List.mem_cons.mp h with rfl | h
    · exact Nat.le_refl _
    · -- the first seam stands right here, and all others behind it
      have := le_of_mem_seams h
      omega
  | other quoted current c rest hc hunmet ih =>
    rw [splitFrom_other hc hunmet] at h
    exact Nat.le_of_succ_le (ih h)

/-- The separator stands at a position of the rest of a text, outside quotes. -/
def MetAt (separator : List Char) (quoted : Bool) (cs : List Char) (i : Nat) : Prop :=
  separator <+: cs.drop i ∧ ClosedAt quoted cs i

theorem metAt_zero : MetAt separator quoted cs 0 ↔ separator <+: cs ∧ quoted = false := by
  rw [MetAt, closedAt_zero, List.drop_zero]

theorem metAt_quote_succ {i : Nat} :
    MetAt separator quoted ('"' :: rest) (i + 1) ↔ MetAt separator (!quoted) rest i := by
  rw [MetAt, MetAt, closedAt_quote_succ, List.drop_succ_cons]

theorem metAt_cons_succ {c : Char} (hc : c ≠ '"') {i : Nat} :
    MetAt separator quoted (c :: rest) (i + 1) ↔ MetAt separator quoted rest i := by
  rw [MetAt, MetAt, closedAt_cons_succ hc, List.drop_succ_cons]

/-- So it does not change where separators are met behind it. -/
theorem metAt_append (hquote : '"' ∉ separator) {i : Nat} :
    MetAt separator quoted (separator ++ rest) (separator.length + i) ↔
    MetAt separator quoted rest i := by
  rw [MetAt, MetAt, closedAt_append hquote, List.drop_length_add_append]

/-- No separator starts with a quote. -/
theorem not_metAt_quote (hsep : separator ≠ []) (hquote : '"' ∉ separator) :
    ¬ MetAt separator quoted ('"' :: rest) 0 := by
  rw [metAt_zero]
  rintro ⟨hmet, -⟩
  obtain ⟨c, tail, rfl⟩ := List.exists_cons_of_ne_nil hsep
  exact hquote ((List.cons_prefix_cons.mp hmet).1 ▸ List.mem_cons_self)

/-- The seams of what is read from here on are the positions at which the separator is met, unless
it overlaps another one that is cut out. Positions are counted from where the part that is read
starts. -/
def CutsWhereMet (separator : List Char) (quoted : Bool) (current cs : List Char) : Prop :=
  ∀ start i, start + current.length +
    i ∈ seams separator start (splitFrom separator quoted 0 current cs) ↔
    MetAt separator quoted cs i ∧
    ∀ q ∈ seams separator start (splitFrom separator quoted 0 current cs),
      ¬ (q < start + current.length + i ∧ start + current.length + i < q + separator.length)

/-- A character at which no separator starts belongs to the part that is read. -/
theorem CutsWhereMet.read (hsep : separator ≠ []) (hquote : '"' ∉ separator) {c : Char}
    {next : Bool} (hstep : splitFrom separator quoted 0 current (c :: rest) =
      splitFrom separator next 0 (c :: current) rest)
    (hzero : ¬ MetAt separator quoted (c :: rest) 0)
    (hsucc : ∀ i, MetAt separator quoted (c :: rest) (i + 1) ↔ MetAt separator next rest i)
    (h : CutsWhereMet separator next (c :: current) rest) :
      CutsWhereMet separator quoted current (c :: rest) := by
  intro start i
  rw [hstep]
  cases i with
  | zero =>
    -- a seam at the start of what is read would lie in front of the character in hand
    refine iff_of_false (fun hmem => ?_) fun hmet => hzero hmet.1
    exact Nat.not_succ_le_self _ (le_of_mem_seams_splitFrom hsep hquote hmem)
  | succ i =>
    have hpos : start + (c :: current).length + i = start + current.length + (i + 1) := by
      rw [List.length_cons]
      omega
    rw [← hpos, h start i, hsucc]

/-- A separator outside quotes is cut out, and the next part starts behind it. -/
theorem CutsWhereMet.cut (hsep : separator ≠ []) (hquote : '"' ∉ separator)
    (h : CutsWhereMet separator false [] rest) :
    CutsWhereMet separator false current (separator ++ rest) := by
  intro start i
  rw [splitFrom_cut hsep hquote, seams_cons splitFrom_ne_nil, List.length_reverse]
  have hlater {q : Nat} (hq : q ∈ seams separator (start + current.length + separator.length)
      (splitFrom separator false 0 [] rest)) : start + current.length + separator.length ≤ q :=
        le_of_mem_seams hq
  have hlength := List.length_pos_iff.mpr hsep
  rw [List.mem_cons, List.forall_mem_cons]
  -- at the separator itself, inside it, and behind it
  rcases Nat.eq_zero_or_pos i with rfl | hpos
  · refine iff_of_true (.inl rfl)
      ⟨metAt_zero.mpr ⟨List.prefix_append .., rfl⟩, by omega, fun q hq => ?_⟩
    have := hlater hq
    omega
  rcases Nat.lt_or_ge i separator.length with hinside | hbehind
  · refine iff_of_false (fun hmem => ?_) fun hmet => hmet.2.1 (by omega)
    rcases hmem with hmem | hmem
    · omega
    · have := hlater hmem
      omega
  · obtain ⟨j, rfl⟩ := Nat.exists_eq_add_of_le hbehind
    have hstep := h (start + current.length + separator.length) j
    rw [List.length_nil, Nat.add_zero, Nat.add_assoc _ separator.length j] at hstep
    rw [or_iff_right (by omega), hstep, metAt_append hquote]
    exact and_congr_right fun _ => (and_iff_right (by omega)).symm

/-- **A scan cuts at the separators that it meets outside quotes.** The induction is on the text,
with the state of the quotes and what was read of the current part. -/
theorem cutsWhereMet_splitFrom (hsep : separator ≠ []) (hquote : '"' ∉ separator) (quoted : Bool)
    (current cs : List Char) : CutsWhereMet separator quoted current cs := by
  induction quoted, current, cs using splitFrom_induction hsep with
  | nil quoted current =>
    intro start i
    rw [MetAt, List.drop_nil, List.prefix_nil]
    exact iff_of_false List.not_mem_nil fun h => hsep h.1.1
  | quote quoted current rest ih =>
    exact ih.read hsep hquote (splitFrom_quote current rest) (not_metAt_quote hsep hquote) fun _ =>
      metAt_quote_succ
  | cut current rest ih => exact ih.cut hsep hquote
  | other quoted current c rest hc hunmet ih =>
    refine ih.read hsep hquote (splitFrom_other hc hunmet current) (fun hmet => ?_) fun _ =>
      metAt_cons_succ hc
    obtain ⟨hstarts, rfl⟩ := metAt_zero.mp hmet
    exact hunmet.elim Bool.false_ne_true fun hnot => hnot hstarts

/-- **A text is cut at the separators outside quotes.** Where separators overlap, the first of them
is cut at and the next one begins behind it. -/
theorem mem_seams_splitOutsideQuotes (hsep : separator ≠ []) (hquote : '"' ∉ separator)
    (text : List Char) (p : Nat) :
    p ∈ seams separator 0 (splitOutsideQuotes separator text) ↔
      StandsOutside separator text p ∧
      ∀ q ∈ seams separator 0 (splitOutsideQuotes separator text),
        ¬ (q < p ∧ p < q + separator.length) := by
  have hmem := cutsWhereMet_splitFrom hsep hquote false [] text 0 p
  rw [List.length_nil, Nat.add_zero, Nat.zero_add] at hmem
  exact hmem

/-! ## Quotes in the parts -/

theorem balanced_middle {c : Char} : Balanced (c :: current ++ rest) ↔
    Balanced (current ++ c :: rest) := by
  rw [Balanced, Balanced, List.perm_middle.count_eq, List.cons_append]

/-- **Quotes that are closed in a text are closed in all its parts.** A cut is made only where no
quote is open, so each part has an even number of quotes. -/
theorem balanced_splitFrom (hsep : separator ≠ []) (hquote : '"' ∉ separator)
    (hcurrent : current.count '"' % 2 = quoted.toNat) (hall : Balanced (current ++ cs)) :
    ∀ part ∈ splitFrom separator quoted 0 current cs, Balanced part := by
  induction quoted, current, cs using splitFrom_induction hsep with
  | nil quoted current =>
    rw [List.append_nil] at hall
    rw [splitFrom, List.forall_mem_singleton, Balanced, List.count_reverse]
    exact hall
  | quote quoted current rest ih =>
    rw [splitFrom_quote]
    refine ih ?_ ?_
    · -- a quote makes the number of quotes so far odd or even, and tells whether it is inside
      have htoggle : (1 + quoted.toNat) % 2 = (!quoted).toNat := by cases quoted <;> rfl
      rw [List.count_cons_self]
      omega
    · exact balanced_middle.mpr hall
  | cut current rest ih =>
    rw [splitFrom_cut hsep hquote, List.forall_mem_cons]
    refine ⟨?_, ih rfl ?_⟩
    · rw [Balanced, List.count_reverse]
      exact hcurrent
    · rw [Balanced, List.count_append, List.count_append,
        List.count_eq_zero_of_not_mem hquote] at hall
      rw [Balanced, List.nil_append]
      rw [Bool.toNat_false] at hcurrent
      omega
  | other quoted current c rest hc hunmet ih =>
    rw [splitFrom_other hc hunmet]
    refine ih ?_ ?_
    · rwa [List.count_cons_of_ne hc]
    · exact balanced_middle.mpr hall

/-- A part starts outside quotes if the separator before it stands there. -/
theorem StandsOutside.balanced_behind (hquote : '"' ∉ separator)
    (h : StandsOutside separator text p) :
    Balanced (text.take (p + separator.length)) := by
  obtain ⟨⟨behind, hdrop⟩, hbalanced⟩ := h
  rw [List.take_add, ← hdrop, List.take_left, Balanced, List.count_append,
    List.count_eq_zero_of_not_mem hquote]
  exact hbalanced

/-- **Splitting outside quotes loses nothing.** The parts with the separator between them are the
text. The separators that are cut out are those that stand outside quotes, except where one overlaps
another one that is cut out. Every part starts outside quotes, and quotes that are closed in the
text are closed in every part, so that a part can be split again on its own. -/
theorem cut_at_separators_outside_quotes (hsep : separator ≠ []) (hquote : '"' ∉ separator)
    (text : List Char) :
    separator.intercalate (splitOutsideQuotes separator text) = text ∧
    (seams separator 0 (splitOutsideQuotes separator text)).Pairwise
      (fun p q => p + separator.length ≤ q) ∧
    (∀ p, p ∈ seams separator 0 (splitOutsideQuotes separator text) ↔
      StandsOutside separator text p ∧
      ∀ q ∈ seams separator 0 (splitOutsideQuotes separator text),
        ¬ (q < p ∧ p < q + separator.length)) ∧
    (∀ p ∈ seams separator 0 (splitOutsideQuotes separator text), Balanced
      (text.take (p + separator.length))) ∧
    (Balanced text → ∀ part ∈ splitOutsideQuotes separator text, Balanced part) := by
  have hseams := mem_seams_splitOutsideQuotes hsep hquote text
  refine ⟨intercalate_splitOutsideQuotes hsep text,
    pairwise_seams separator 0 _, hseams, fun p hp => ?_, fun h => ?_⟩
  · exact ((hseams p).mp hp).1.balanced_behind hquote
  · exact balanced_splitFrom hsep hquote rfl h

namespace Sample

/-- Three alternatives. The second one starts with a sign too many, and a separator is quoted in
it. -/
def threeAlternatives : List Char := "é|||\"a||b\"||c".toList

/-- A condition and one with a quote that is not closed. -/
def openQuote : List Char := "a&&\"b&&".toList

end Sample

/-- Alternatives and conditions are cut in the same way, whether the quotes are closed or not. -/
theorem cut_at_separators_outside_quotes_sample :
    (['|', '|'] ≠ [] ∧ '"' ∉ ['|', '|'] ∧ Balanced Sample.threeAlternatives ∧
      seams ['|', '|'] 0 (splitOutsideQuotes ['|', '|'] Sample.threeAlternatives) = [1, 10] ∧
      StandsOutside ['|', '|'] Sample.threeAlternatives 10 ∧ Balanced "|\"a||b\"".toList) ∧
    (['&', '&'] ≠ [] ∧ '"' ∉ ['&', '&'] ∧
      seams ['&', '&'] 0 (splitOutsideQuotes ['&', '&'] Sample.openQuote) = [1] ∧
      ['&', '&'].intercalate (splitOutsideQuotes ['&', '&'] Sample.openQuote) =
        Sample.openQuote) := by
  have hor : ['|', '|'] ≠ [] ∧ '"' ∉ ['|', '|'] := by decide
  have hand : ['&', '&'] ≠ [] ∧ '"' ∉ ['&', '&'] := by decide
  have hbalanced : Balanced Sample.threeAlternatives := by decide
  obtain ⟨-, -, hcut, -, hparts⟩ :=
    cut_at_separators_outside_quotes hor.1 hor.2 Sample.threeAlternatives
  have hjoin := (cut_at_separators_outside_quotes hand.1 hand.2 Sample.openQuote).1
  exact ⟨⟨hor.1, hor.2, hbalanced,
    by decide, ((hcut 10).mp (by decide)).1, hparts hbalanced _ (by decide)⟩,
    hand.1, hand.2, by decide, hjoin⟩

end CoChange
