import CoChange.Arithmetic
import CoChange.Yaml.Printer
import CoChange.Yaml.ScalarText

/-!
# Plain texts are read back

A text without characters that could be taken for marks (`Plain`) is read as it stands, up to a
colon or up to the line that goes on less far in (`Resumes`):

* **`takePlain_colon`**: a key is read up to its colon.
* **`takePlain_line`**: a value is read up to the next line, of which the indentation is taken, too.
-/

namespace CoChange.Yaml

/-! ## Characters -/

section Printable

variable {c : Char}

theorem isPrintable_iff : isPrintable c = true ↔
    c.toNat = 0x0A ∨ (0x20 ≤ c.toNat ∧ c.toNat ≤ 0x7E) ∨
    (0xA0 ≤ c.toNat ∧ c.toNat ≠ 0xFEFF ∧ c.toNat ≠ 0xFFFE ∧ c.toNat ≠ 0xFFFF) := by
  simp [isPrintable, and_assoc, or_assoc]

theorem toNat_ne_of_isPrintable (h : isPrintable c = true) :
    c.toNat ≠ 0x00 ∧ c.toNat ≠ 0x09 ∧ c.toNat ≠ 0x0D ∧ c.toNat ≠ 0x85 ∧ c.toNat ≠ 0xFEFF := by
  rw [isPrintable_iff] at h
  omega

theorem ne_of_toNat_ne {d : Char} (h : c.toNat ≠ d.toNat) : c ≠ d := fun heq => h (congrArg _ heq)

/-- Blanks that are printed are spaces. -/
theorem isBlank_of_isPrintable (h : isPrintable c = true) : isBlank c = true ↔ c = ' ' := by
  have htab : c ≠ '\t' := ne_of_toNat_ne (toNat_ne_of_isPrintable h).2.1
  simp [isBlank, htab]

theorem isBlank_eq_false (h : isPrintable c = true) (hspace : c ≠ ' ') : isBlank c = false :=
  Bool.eq_false_iff.mpr fun hblank => hspace ((isBlank_of_isPrintable h).mp hblank)

/-- In a text that is printed on one line, only spaces separate. -/
theorem isBlankOrEnd_of_isPrintable (h : isPrintable c = true) (hbreak : isBreak c = false) :
    isBlankOrEnd (some c) = true ↔ c = ' ' := by
  have hzero : c ≠ '\x00' := ne_of_toNat_ne (toNat_ne_of_isPrintable h).1
  simp [isBlankOrEnd, hbreak, hzero, ← isBlank_of_isPrintable h]

end Printable

/-- Only dashes and points mark the border of a document. -/
theorem isDocumentBorder_eq_false {c : Char} {rest : List Char} (hdash : c ≠ '-')
    (hpoint : c ≠ '.') :
    isDocumentBorder (c :: rest) = false := by
  have hmark : ∀ mark : Char, c ≠ mark → isDocumentMark mark (c :: rest) = false := by
    intro mark hne
    unfold isDocumentMark
    split
    · rename_i heq
      rw [← (List.cons.inj heq).1]
      simp [hne]
    · rfl
  rw [isDocumentBorder, hmark '-' hdash, hmark '.' hpoint, Bool.or_false]

/-! ## Where a document goes on -/

/-- What a token can begin with: no blank, line break or comment. -/
structure Starts (c : Char) : Prop where
  not_blank : isBlank c = false
  not_break : isBreak c = false
  not_comment : c ≠ '#'
  not_mark : c.toNat ≠ 0xFEFF

/-- A document goes on with a line that is set in by less than `limit`; only its end closes the
outermost collection. -/
structure Resumes (limit : Nat) (rest : List Char) : Prop where
  starts : ∀ c ∈ rest.head?, Starts c
  ends : limit = 0 → rest = [] ∨ rest = ['.', '.', '.', '\n']

/-- The next line, with its indentation. -/
def nextLine (limit : Nat) (rest : List Char) : List Char := blanks (limit - 1) ++ rest

theorem blanks_succ (n : Nat) : blanks (n + 1) = ' ' :: blanks n := rfl

/-! ## Plain texts -/

/-- A text that reads as itself when it stands plain on a line. -/
structure Plain (cs : List Char) : Prop where
  ne : cs ≠ []
  unmarked : hasIndicator none cs = false
  printable : ∀ c ∈ cs, isPrintable c = true ∧ isBreak c = false
  starts : cs.head? ≠ some ' '
  ends : cs.getLast? ≠ some ' '

instance (cs : List Char) : Decidable (Plain cs) :=
  decidable_of_iff (cs ≠ [] ∧ hasIndicator none cs = false ∧
    (∀ c ∈ cs, isPrintable c = true ∧ isBreak c = false) ∧
      cs.head? ≠ some ' ' ∧ cs.getLast? ≠ some ' ')
    ⟨fun ⟨hne, hmarks, hprint, hstarts, hends⟩ => ⟨hne, hmarks, hprint, hstarts, hends⟩,
      fun ⟨hne, hmarks, hprint, hstarts, hends⟩ => ⟨hne, hmarks, hprint, hstarts, hends⟩⟩

section Inside

variable {cs rest text gap : List Char} {indent column : Nat}

theorem isBlankOrEnd_append (h : isBlankOrEnd cs.head? = false) (rest : List Char) :
    isBlankOrEnd (cs ++ rest).head? = false := by
  cases cs with
  | nil => exact absurd h (by decide)
  | cons c cs => exact h

/-- A space inside a text is kept for what follows it. -/
theorem takePlain_space (rest : List Char) :
    takePlain false indent column text (.blanks gap) (' ' :: rest) =
    takePlain false indent (column + 1) text (.blanks (' ' :: gap)) rest := by
  rw [takePlain]
  rfl

/-- A character inside a text is added to it. -/
theorem takePlain_char {c : Char} (hblank : isBlank c = false) (hbreak : isBreak c = false)
    (hborder : column = 0 → isDocumentBorder (c :: rest) = false) (hcomment : c = '#' → gap = [])
    (hcolon : c = ':' → isBlankOrEnd rest.head? = false) :
    takePlain false indent column text (.blanks gap) (c :: rest) =
      takePlain false indent (column + 1) (c :: gap ++ text) .empty rest := by
  -- none of the three ends of a plain text is here: a comment, a colon, a border of the document
  have hopen : ((Gap.blanks gap).isOpen && decide (c = '#')) = false := by
    by_cases hc : c = '#'
    · rw [hcomment hc]
      rfl
    · simp [hc]
  have hend : (decide (c = ':') && isBlankOrEnd rest.head?) = false := by
    by_cases hc : c = ':'
    · rw [hcolon hc, Bool.and_false]
    · simp [hc]
  have hmark : (decide (column = 0) && isDocumentBorder (c :: rest)) = false := by
    by_cases hc : column = 0
    · rw [hborder hc, Bool.and_false]
    · simp [hc]
  rw [takePlain]
  simp only [hbreak, hblank, hmark, hopen, hend, Gap.isBroken, Gap.text, Bool.false_and,
    Bool.false_eq_true, if_false, Gap.empty]

/-- The rest of a text is read behind one of its characters; spaces at its end are kept for what
follows. -/
theorem takePlain_inside (text gap : List Char) (rest : List Char) (indent : Nat) {before : Char}
    (hcs : hasIndicator (some before) cs = false)
    (hprint : ∀ c ∈ cs, isPrintable c = true ∧ isBreak c = false)
    (hgap : gap ≠ [] → before = ' ') (hcolumn : 0 < column) :
    ∃ text' gap', gap' ++ text' = cs.reverse ++ (gap ++ text) ∧
      (cs.getLast? ≠ some ' ' → (cs = [] → gap = []) → gap' = []) ∧
      takePlain false indent column text (.blanks gap) (cs ++ rest) =
        takePlain false indent (column + cs.length) text' (.blanks gap') rest := by
  induction cs generalizing before column text gap with
  | nil => exact ⟨text, gap, rfl, fun _ h => h rfl, rfl⟩
  | cons c cs ih =>
    rw [List.forall_mem_cons] at hprint
    rw [hasIndicator, Bool.or_eq_false_iff] at hcs
    obtain ⟨hmark, hcs⟩ := hcs
    rw [isIndicator, Bool.or_eq_false_iff] at hmark
    have hlater : (c :: cs).getLast? ≠ some ' ' → cs.getLast? ≠ some ' ' := by
      cases cs with
      | nil => simp
      | cons d cs =>
        rw [List.getLast?_cons_cons]
        exact id
    by_cases hspace : c = ' '
    · -- a space makes the gap longer
      subst hspace
      obtain ⟨text', gap', happend, hlast, hread⟩ := ih text (' ' :: gap) hcs hprint.2
        (fun _ => rfl) (Nat.succ_pos column)
      refine ⟨text', gap', by simp [happend], fun hlast' _ => hlast (hlater hlast') ?_, ?_⟩
      · rintro rfl
        exact absurd rfl hlast'
      · rw [List.cons_append, takePlain_space, hread, List.length_cons]
        congr 1
        omega
    · -- any other character goes to the text, behind the gap: it begins no comment and ends no key
      have hcomment : c = '#' → gap = [] := by
        rintro rfl
        cases gap with
        | nil => rfl
        | cons d ds =>
          rw [hgap (List.cons_ne_nil d ds)] at hmark
          exact absurd hmark.2 (by decide)
      have hcolon : c = ':' → isBlankOrEnd (cs ++ rest).head? = false := by
        rintro rfl
        exact isBlankOrEnd_append (by simpa using hmark.1) rest
      obtain ⟨text', gap', happend, hlast, hread⟩ := ih (c :: gap ++ text) []
        hcs hprint.2 (fun h => absurd rfl h) (Nat.succ_pos column)
      refine ⟨text', gap', by simp [happend],
        fun hlast' _ => hlast (hlater hlast') fun _ => rfl, ?_⟩
      rw [List.cons_append, takePlain_char (isBlank_eq_false hprint.1.1 hspace) hprint.1.2
        (fun h => absurd h (Nat.ne_of_gt hcolumn)) hcomment hcolon,
        Gap.empty, hread, List.length_cons]
      congr 1
      omega

end Inside

section Whole

variable {cs rest : List Char} {indent column : Nat}

/-- **A plain text is read on its line**, whatever follows it. No character in it ends a plain text,
and blanks in it are kept since something follows them. -/
theorem takePlain_plain (h : Plain cs)
    (hborder : column = 0 → cs.head? ≠ some '-' ∧ cs.head? ≠ some '.') (rest : List Char) :
    takePlain false indent column [] .empty (cs ++ rest) =
      takePlain false indent (column + cs.length) cs.reverse .empty rest := by
  cases cs with
  | nil => exact absurd rfl h.ne
  | cons c cs =>
    have hprint := h.printable
    rw [List.forall_mem_cons] at hprint
    have hmark := h.unmarked
    rw [hasIndicator, Bool.or_eq_false_iff, isIndicator, Bool.or_eq_false_iff] at hmark
    obtain ⟨⟨hreserved, hlone⟩, hinside⟩ := hmark
    have hspace : c ≠ ' ' := fun heq => h.starts (by rw [heq]; rfl)
    have hblank := isBlank_eq_false hprint.1.1 hspace
    obtain ⟨text, gap, happend, hlast, hread⟩ := takePlain_inside [c] [] rest indent
      hinside hprint.2 (fun h => absurd rfl h) (Nat.succ_pos column)
    -- the text does not end in a blank, so nothing is held back
    have hgap : gap = [] := by
      refine hlast ?_ fun _ => rfl
      cases cs with
      | nil => simp
      | cons d cs => simpa [List.getLast?_cons_cons] using h.ends
    have htext : text = (c :: cs).reverse := by
      rw [hgap, List.nil_append, List.nil_append, ← List.reverse_cons] at happend
      exact happend
    rw [List.cons_append, Gap.empty, takePlain_char hblank hprint.1.2]
    · rw [List.append_nil, Gap.empty, hread, htext, hgap, List.length_cons]
      congr 1
      omega
    · intro hzero
      obtain ⟨hdash, hpoint⟩ := hborder hzero
      exact isDocumentBorder_eq_false
        (fun heq => hdash (by rw [heq]; rfl)) (fun heq => hpoint (by rw [heq]; rfl))
    · exact fun _ => rfl
    · rintro rfl
      exact isBlankOrEnd_append (by simpa using hlone) rest

/-- **A key is read up to its colon.** A colon with a blank behind it ends the text. -/
theorem takePlain_colon (h : Plain cs)
    (hborder : column = 0 → cs.head? ≠ some '-' ∧ cs.head? ≠ some '.')
    (hrest : isBlankOrEnd rest.head? = true) :
    takePlain false indent column [] .empty (cs ++ ':' :: rest) =
      .ok ⟨⟨cs, ':' :: rest⟩, false⟩ := by
  have hmark : (decide (column + cs.length = 0) && isDocumentBorder (':' :: rest)) = false := by
    have := List.length_pos_iff.mpr h.ne
    rw [decide_eq_false (by omega), Bool.false_and]
  rw [takePlain_plain h hborder, takePlain]
  simp only [hmark, hrest, Gap.empty, Gap.isBroken, Gap.isOpen, List.reverse_reverse]
  rfl

/-- The indentation of the next line is passed over. -/
theorem takePlain_blanks (text rest : List Char) (n : Nat) (hindent : column + n < indent) :
    takePlain false indent column text (.breaks (some '\n') []) (blanks n ++ rest) =
      takePlain false indent (column + n) text (.breaks (some '\n') []) rest := by
  induction n generalizing column with
  | zero => rfl
  | succ n ih =>
    have hstep : takePlain false indent
        column text (.breaks (some '\n') []) (' ' :: (blanks n ++ rest)) =
        takePlain false indent (column + 1) text (.breaks (some '\n') []) (blanks n ++ rest) := by
      rw [takePlain]
      simp [show isBreak ' ' = false from rfl, show isBlank ' ' = true from rfl, Gap.blank]
    rw [blanks_succ, List.cons_append, hstep, ih (by omega), Nat.add_assoc, Nat.add_comm 1]

/-- **A value is read up to the next line.** The next line stands further out, so it does not go on
with the text. -/
theorem takePlain_line {limit : Nat} (indent column : Nat) (h : Plain cs) (hcolumn : 0 < column)
    (hresumes : Resumes limit rest) (hlimit : limit ≤ indent) (hindent : 0 < indent) :
    takePlain false indent column [] .empty (cs ++ '\n' :: nextLine limit rest) =
      .ok ⟨⟨cs, rest⟩, true⟩ := by
  rw [takePlain_plain h (fun h => absurd h (Nat.ne_of_gt hcolumn)), takePlain]
  simp only [show isBreak '\n' = true from rfl, if_true, Gap.empty, Gap.lineBreak, nextLine]
  rw [takePlain_blanks _ _ _ (by omega)]
  cases rest with
  | nil => rw [takePlain, List.reverse_reverse]; rfl
  | cons c rest =>
    have hc := hresumes.starts c rfl
    rw [takePlain]
    simp only [hc.not_break, hc.not_blank, Gap.isBroken, Bool.false_eq_true, if_false,
      Bool.not_false, Bool.true_and, List.reverse_reverse]
    -- the next line is less indented, which ends the text
    rw [if_pos (by simp; omega)]

end Whole

end CoChange.Yaml
