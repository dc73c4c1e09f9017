import CoChange.Arithmetic
import CoChange.Proofs.Yaml.BlockText
import CoChange.Proofs.Yaml.Lexer
import CoChange.Proofs.Yaml.QuotedText
import CoChange.Proofs.Yaml.Scalar

/-!
# Scalars are cut

A scalar is cut as one token, and the cutting gets to the next line.

* **`leads_plain`**, **`leads_single`**, **`leads_double`**, **`leads_literal`**: one for each way
  to write a text.
* **`leads_brackets`**: an empty collection between brackets.
* **`leads_text`**: a text is cut in whatever style it is written.
-/

namespace CoChange.Yaml.Lexer

/-- A text is cut up to the start of a line, where a key may start and nothing else is open than the
given collections. -/
def ReachesLine (l : Lexer) (cs : List Char) (ts : List Token) (ind : List Nat) (cs' : List Char) :
    Prop :=
  ∃ m : Mark, m.column = 0 ∧ Leads l cs (inBlock m ts ind none true) cs'

namespace ReachesLine

variable {l l' : Lexer} {cs cs' cs'' : List Char} {ts ts' : List Token} {ind ind' : List Nat}

theorem of_leads (h : Leads l cs l' cs') (h' : ReachesLine l' cs' ts ind cs'') :
    ReachesLine l cs ts ind cs'' := by
  obtain ⟨m, hm, hleads⟩ := h'
  exact ⟨m, hm, h.trans hleads⟩

/-- From the line that is reached, the cutting goes on. -/
theorem trans (h : ReachesLine l cs ts ind cs')
    (h' : ∀ m : Mark, m.column = 0 → ReachesLine (inBlock m ts ind none true) cs' ts' ind' cs'') :
    ReachesLine l cs ts' ind' cs'' := by
  obtain ⟨m, hm, hleads⟩ := h
  exact of_leads hleads (h' m hm)

end ReachesLine

section Line

variable {m : Mark} {ts : List Token} {ind : List Nat} {allowed : Bool} {cs rest : List Char}
    {i limit : Nat}

/-- What may be a key in front of a scalar is none when its line is ended. -/
theorem noted_ends (h : i < m.column) {m' : Mark} (hline : m.line ≤ m'.line) :
    ∀ k ∈ noted m ts (i :: ind) allowed, k.required = false ∧ k.mark.line ≤ m'.line := by
  intro k hk
  cases allowed with
  | false => simp [noted] at hk
  | true =>
    rw [noted, if_pos rfl, Option.mem_some_iff] at hk
    subst hk
    exact ⟨by simp; omega, hline⟩

theorem within_of_lt (h : i < m.column) : Within (i :: ind) m.column := fun j hj => by
  rw [List.head?_cons, Option.mem_some_iff] at hj
  omega

/-- A scalar may have taken the indentation of the next line, too. -/
theorem settle_taken {key : Option PendingKey}
    (hkey : ∀ k ∈ key, k.required = false ∧ k.mark.line < m.line) :
    (inBlock (m.after (blanks (limit - 1))) ts ind key true).settle rest =
      (inBlock m ts ind none true).settle (nextLine limit rest) := by
  rw [nextLine, settle_blanks]
  refine settle_stale fun k hk => ?_
  rw [Mark.after_blanks]
  exact hkey k hk

/-! ### Plain scalars -/

/-- **A plain scalar is cut.** It ends at the line feed, because the next line stands further
out. -/
theorem leads_plain (h : Plain cs) (hcolumn : i < m.column) (hresumes : Resumes limit rest)
    (hlimit : limit ≤ i + 1) : Leads
      (inBlock m ts (i :: ind) none allowed) (cs ++ '\n' :: nextLine limit rest)
      (inBlock (m.after (cs ++ ['\n'])) (ts ++ [.scalar true cs]) (i :: ind) none true)
        (nextLine limit rest) := by
  have htext : cs ++ '\n' :: nextLine limit rest = (cs ++ '\n' :: blanks (limit - 1)) ++ rest := by
    simp [nextLine]
  have hread := takePlain_line (i + 1) m.column h (by omega) hresumes hlimit (by omega)
  rw [htext] at hread
  have hcut : (inBlock m ts (i :: ind) none allowed).cutPlain _ = _ := cutPlain_inBlock hread
  -- the text is read with the indentation of the next line, which makes no difference
  have hmark : m.after (cs ++ '\n' :: blanks (limit - 1)) =
      (m.after (cs ++ ['\n'])).after (blanks (limit - 1)) := by
    rw [← Mark.after_append, List.append_assoc]
    rfl
  obtain ⟨c, cs, rfl⟩ := List.exists_cons_of_ne_nil h.ne
  refine .of_cut_settle (settle_token (Plain.first h).1 rfl (within_of_lt hcolumn))
    ((cut_plain h (fun hzero => by omega) _).trans
    (htext ▸ hcut)) ?_ (by simp; omega)
  rw [hmark]
  refine settle_taken fun k hk => ?_
  have hends : k.required = false ∧ k.mark.line ≤ (m.after (c :: cs)).line :=
    noted_ends hcolumn (Mark.line_le_over m _) k hk
  rw [Mark.after_append]
  exact ⟨hends.1, Nat.lt_succ_of_le hends.2⟩

/-! ### Quoted scalars -/

/-- A token between marks of its own is cut, and ends its line. -/
theorem leads_content {c : Char} {t : Token} {text : List Char} (cs : List Char) (hc : Starts c)
    (hcolumn : i < m.column)
    (hcut : (inBlock m ts (i :: ind) none allowed).cut c (cs ++ '\n' :: rest) =
      (inBlock m ts (i :: ind) none allowed).cutContent
        (c :: (cs ++ '\n' :: rest)) (.ok (t, '\n' :: rest)))
    (htext : text = c :: cs ++ ['\n']) :
    Leads (inBlock m ts (i :: ind) none allowed) (text ++ rest)
      (inBlock (m.after text) (ts ++ [t]) (i :: ind) none true) rest := by
  subst htext
  have hcontent : (inBlock m ts (i :: ind) none allowed).cutContent (c :: (cs ++ '\n' :: rest))
      (.ok (t, '\n' :: rest)) = .ok (inBlock (m.after (c :: cs)) (ts ++ [t]) (i :: ind)
        (noted m ts (i :: ind) allowed) false, '\n' :: rest) := by
    rw [cutContent, noteKey_inBlock, ok_bind, ok_bind]
    simp only [push_inBlock]
    rw [← List.cons_append, moveTo_append]
    rfl
  have htext : c :: cs ++ ['\n'] ++ rest = c :: (cs ++ '\n' :: rest) := by simp
  rw [htext, Mark.after_append]
  exact (Leads.of_cut (settle_token hc rfl (within_of_lt hcolumn))
    (hcut.trans hcontent) (by simp)).trans
    (leads_newline (noted_ends hcolumn (Mark.line_le_over m _)) rest)

/-- What begins with neither a dash nor a point marks no border of a document. -/
theorem cut_mark {l : Lexer} {c : Char} (hdash : c ≠ '-') (hpoint : c ≠ '.') (hpercent : c ≠ '%')
    (rest : List Char) :
    ((decide (l.mark.column = 0) && decide (c = '%')) = false) ∧
    (decide (l.mark.column = 0) && isDocumentMark '-' (c :: rest)) = false ∧
    (decide (l.mark.column = 0) && isDocumentMark '.' (c :: rest)) = false := by
  rw [isDocumentMark_eq_false hdash, isDocumentMark_eq_false hpoint]
  simp [hpercent]

/-- At a single quote, a text in single quotes is cut. -/
theorem cut_singleQuote (l : Lexer) (rest : List Char) : l.cut '\'' rest =
    l.cutQuoted '\'' rest (takeSingleQuoted (l.mark.column + 1) [] .empty false rest) := by
  obtain ⟨hpercent, hdash, hpoint⟩ :=
    cut_mark (l := l) (c := '\'') (by decide) (by decide) (by decide) rest
  rw [cut]
  simp only [hpercent, hdash, hpoint]
  simp

/-- At a double quote, a text in double quotes is cut. -/
theorem cut_doubleQuote (l : Lexer) (rest : List Char) : l.cut '"' rest =
    l.cutQuoted '"' rest (takeDoubleQuoted (l.mark.column + 1) [] .empty .none rest) := by
  obtain ⟨hpercent, hdash, hpoint⟩ :=
    cut_mark (l := l) (c := '"') (by decide) (by decide) (by decide) rest
  rw [cut]
  simp only [hpercent, hdash, hpoint]
  simp

theorem starts_quote : Starts '\'' ∧ Starts '"' :=
  ⟨⟨rfl, rfl, by decide, by decide⟩, ⟨rfl, rfl, by decide, by decide⟩⟩

/-- **A text between single quotes is cut.** A quote in it is written twice, and a line that follows
a break is set in by the indentation. -/
theorem leads_single {n : Nat} (h : Quotable cs) (hn : 0 < n) (hcolumn : i < m.column)
    (rest : List Char) :
    Leads (inBlock m ts (i :: ind) none allowed)
      ('\'' :: singleQuoted n false cs ++ ['\''] ++ ['\n'] ++ rest)
      (inBlock (m.after ('\'' :: singleQuoted n false cs ++ ['\''] ++ ['\n']))
        (ts ++ [.scalar false cs]) (i :: ind)
        none true) rest := by
  have hread : takeSingleQuoted (m.column + 1)
      [] .empty false (singleQuoted n false cs ++ '\'' :: '\n' :: rest) =
      .ok ⟨cs, '\n' :: rest⟩ :=
    takeSingleQuoted_inside cs h hn (Nat.succ_pos m.column) (by simp) fun h => absurd rfl h
  refine leads_content (singleQuoted n false cs ++ ['\'']) starts_quote.1 hcolumn ?_ rfl
  rw [cut_singleQuote, cutQuoted, List.append_assoc, List.singleton_append, mark_inBlock, hread]
  rfl

/-- **A text between double quotes is cut.** It stands on one line, since line feeds in it are
escaped. -/
theorem leads_double (cs : List Char) (hcolumn : i < m.column) (rest : List Char) :
    Leads (inBlock m ts (i :: ind) none allowed)
      ('"' :: cs.flatMap escape ++ ['"'] ++ ['\n'] ++ rest)
      (inBlock (m.after ('"' :: cs.flatMap escape ++ ['"'] ++ ['\n']))
        (ts ++ [.scalar false cs]) (i :: ind) none
        true) rest := by
  have hread : takeDoubleQuoted (m.column + 1)
      [] .empty .none (cs.flatMap escape ++ '"' :: '\n' :: rest) =
      .ok ⟨cs, '\n' :: rest⟩ := takeDoubleQuoted_body cs (Nat.succ_pos m.column)
  refine leads_content (cs.flatMap escape ++ ['"']) starts_quote.2 hcolumn ?_ rfl
  rw [cut_doubleQuote, cutQuoted, List.append_assoc, List.singleton_append, mark_inBlock, hread]
  rfl

/-! ### Texts behind a bar -/

/-- At a bar, a block of text is cut whose lines are kept as they are. -/
theorem cut_bar (rest : List Char) : (inBlock m ts ind none allowed).cut '|' rest =
    (inBlock m ts ind none allowed).cutBlock true '|' rest := by
  obtain ⟨hpercent, hdash, hpoint⟩ :=
    cut_mark (l := inBlock m ts ind none allowed) (c := '|') (by decide)
    (by decide) (by decide) rest
  rw [cut]
  simp only [hpercent, hdash, hpoint, inFlow_inBlock]
  simp

theorem starts_bar : Starts '|' := ⟨rfl, rfl, by decide, by decide⟩

/-- A text behind a bar, as it is written. -/
def literalText (indent : Nat) (cs : List Char) : List Char :=
  '|' :: literalHint cs ++ '\n' :: indented indent true cs ++ if cs.getLast?.any isBreak then
    [] else ['\n']

/-- **A text behind a bar is cut.** Its lines end where the next line stands further out. -/
theorem leads_literal (hcs : cs ≠ []) (hprint : ∀ c ∈ cs, isPrintable c = true)
    (hcolumn : i < m.column) (hresumes : Resumes limit rest) (hlimit : limit ≤ i + 1) :
    Leads (inBlock m ts (i :: ind) none allowed) (literalText (i + 2) cs ++ nextLine limit rest)
      (inBlock (m.after (literalText (i + 2) cs)) (ts ++ [.scalar false cs]) (i :: ind) none true)
      (nextLine limit rest) := by
  have hread : takeBlock true (chompingOf cs) (i + 1) ⟨[], none, [], false⟩ _ _ = _ :=
    takeBlock_literal (i + 1) hcs hprint
      (Nat.succ_pos (i + 1)) (Nat.le_succ (i + 1)) hresumes (Nat.le_succ_of_le hlimit)
  have htext : literalText (i + 2) cs ++ nextLine limit rest = '|' :: (literalHint cs ++ '\n' ::
      (indented (i + 2) true cs ++
        ((if cs.getLast?.any isBreak then [] else ['\n']) ++ nextLine limit rest))) := by
    simp [literalText]
  have htaken : literalText (i + 2) cs ++ nextLine limit rest =
      (literalText (i + 2) cs ++ blanks (limit - 1)) ++ rest := by
    rw [List.append_assoc]
    rfl
  have hskip : ∀ cs, skipHeaderLine ('\n' :: cs) = .ok cs := fun _ => rfl
  -- the bar, the hint behind it, and the lines of the text are one token
  have hcut : (inBlock m ts (i :: ind) none allowed).cut '|' (literalHint cs ++ '\n' ::
      (indented (i + 2) true cs ++
        ((if cs.getLast?.any isBreak then [] else ['\n']) ++ nextLine limit rest))) =
      .ok (inBlock (m.after (literalText (i + 2) cs ++ blanks (limit - 1)))
        (ts ++ [.scalar false cs]) (i :: ind) none
        true, rest) := by
    have hleast : max (inBlock m ts (i :: ind) none allowed).contentColumn 1 = i + 1 :=
      Nat.max_eq_left (Nat.succ_pos i)
    have hindent : (if hidesIndent cs then some 2 else none).map (i + ·) =
        if hidesIndent cs then some (i + 2) else none := by
      cases hidesIndent cs <;> rfl
    have hdrop : (inBlock m ts (i :: ind) none allowed).dropKey =
        .ok (inBlock m ts (i :: ind) none allowed) := rfl
    have hbase : (inBlock m ts (i :: ind) none allowed).indents.headD 0 = i := rfl
    rw [cut_bar, cutBlock, hdrop, ok_bind, takeBlockHeader_hint hcs]
    simp only [ok_bind, hskip, hleast, hbase, hindent, hread, push_inBlock]
    rw [← htext, htaken, moveTo_append]
    rfl
  rw [htext]
  refine .of_cut_settle (settle_token starts_bar rfl (within_of_lt hcolumn)) hcut ?_ ?_
  · rw [Mark.after_append]
    exact settle_taken fun k hk => by simp at hk
  · simp only [List.length_cons, List.length_append]
    omega

/-! ### Empty collections -/

/-- What may be a key in front of a bracket still may behind it. -/
theorem fresh_noted {c : Char} (hc : isBreak c = false) :
    fresh (m.past c) (noted m ts ind allowed) = .ok (noted m ts ind allowed) := by
  cases allowed with
  | false => rfl
  | true =>
    rw [noted, if_pos rfl, Mark.past, hc, if_neg Bool.false_ne_true, fresh, if_neg]
    simp [maxKeyLength]

/-- Nothing happens between two brackets. -/
theorem settle_flow {c d : Char} {t : Token} (hc : isBreak c = false) (hd : Starts d)
    (rest : List Char) :
    (Lexer.mk (m.past c) (ts ++ [t]).toArray ind none [noted m ts ind allowed] true).settle
      (d :: rest) =
      .ok (⟨m.past c, (ts ++ [t]).toArray, ind, none, [noted m ts ind allowed], true⟩,
        d :: rest) := by
  have hblank := hd.not_blank
  rw [isBlank, Bool.or_eq_false_iff, decide_eq_false_iff_not, decide_eq_false_iff_not] at hblank
  rw [settle, skipBlanks]
  simp only [hd.not_break, hblank.1, hblank.2, hd.not_comment, hd.not_mark, decide_false,
    Bool.false_and, Bool.false_or, Bool.false_eq_true, if_false]
  rw [dropStaleKeys]
  simp only [List.mapM_cons, List.mapM_nil, fresh_noted hc]
  rfl

/-- **An empty collection is cut.** The two brackets stand on one line, one right behind the
other. -/
theorem leads_brackets {o c : Char} {t u : Token} (ho : Starts o) (hc : Starts c)
    (hopen : ∀ (l : Lexer) rest, l.cut o rest = l.openFlow t o rest)
    (hclose : ∀ (l : Lexer) rest, l.cut c rest = l.closeFlow u c rest) (hcolumn : i < m.column)
    (rest : List Char) :
    Leads (inBlock m ts (i :: ind) none allowed) ([o, c, '\n'] ++ rest)
      (inBlock (m.after [o, c, '\n']) (ts ++ [t, u]) (i :: ind) none true) rest := by
  -- nothing stands between the brackets, so only their own tokens are cut
  have hopened : (inBlock m ts (i :: ind) none allowed).cut o (c :: '\n' :: rest) = .ok (⟨m.past o,
      (ts ++ [t]).toArray, i :: ind, none, [noted m ts (i :: ind) allowed], true⟩,
        c :: '\n' :: rest) := by
    rw [hopen, openFlow, noteKey_inBlock]
    simp [ok_bind, inBlock, cutMark, push, pure, Except.pure]
  have hclosed : Lexer.cut
      ⟨m.past o, (ts ++ [t]).toArray, i :: ind, none, [noted m ts (i :: ind) allowed], true⟩ c
      ('\n' :: rest) = .ok
        (inBlock (m.after [o, c]) (ts ++ [t, u]) (i :: ind) (noted m ts (i :: ind) allowed) false,
        '\n' :: rest) := by
    rw [hclose, closeFlow]
    simp [dropKey, ok_bind, inBlock, cutMark, push, allowKey, pure, Except.pure]
  refine (Leads.of_cut (settle_token ho rfl (within_of_lt hcolumn)) hopened (by simp)).trans ?_
  refine (Leads.of_cut (settle_flow ho.not_break hc _) hclosed (by simp)).trans ?_
  exact leads_newline (noted_ends hcolumn (Mark.line_le_over m _)) rest

/-- A bracket begins or ends a collection wherever it stands. -/
theorem cut_brackets (l : Lexer) (rest : List Char) :
    l.cut '[' rest = l.openFlow .flowSequenceStart '[' rest ∧
    l.cut ']' rest = l.closeFlow .flowSequenceEnd ']' rest ∧
    l.cut '\x7b' rest = l.openFlow .flowMappingStart '\x7b' rest ∧
    l.cut '\x7d' rest = l.closeFlow .flowMappingEnd '\x7d' rest := by
  refine ⟨?_, ?_, ?_, ?_⟩ <;>
  · rw [cut, isDocumentMark_eq_false (by decide), isDocumentMark_eq_false (by decide)]
    simp

/-! ### Texts -/

theorem column_after_break (m : Mark) (cs : List Char) {c : Char} (hc : isBreak c = true) :
    (m.after (cs ++ [c])).column = 0 := by
  rw [Mark.after_append, Mark.after_cons, Mark.after_nil, Mark.past, if_pos hc]

theorem column_after_newline (m : Mark) (cs : List Char) : (m.after (cs ++ ['\n'])).column = 0 :=
  column_after_break m cs rfl

/-- A text behind a bar ends with its line. -/
theorem column_after_literalText (indent : Nat) (cs : List Char) :
    (m.after (literalText indent cs)).column = 0 := by
  rw [literalText]
  cases hlast : cs.getLast?.any isBreak with
  | false => exact column_after_newline _ _
  | true =>
    obtain ⟨c, hc, hbreak⟩ := Option.any_eq_true _ _ |>.mp hlast
    obtain ⟨ds, rfl⟩ := List.getLast?_eq_some_iff.mp hc
    rw [if_pos rfl, List.append_nil, indented_concat_break _ _ _ hbreak, ← List.cons_append,
      ← List.append_assoc]
    exact column_after_break _ _ hbreak

/-- What is known of a text by the style in which it is written as a value. -/
theorem styleOf_cases (s : String) :
    (styleOf false s = .plain ∧ Plain s.toList ∧ Scalar.needsQuotes s = false) ∨
    (styleOf false s = .single ∧ Quotable s.toList) ∨ styleOf false s = .double ∨
    (styleOf false s = .literal ∧ s.toList ≠ [] ∧ ∀ c ∈ s.toList, isPrintable c = true) := by
  rw [styleOf]
  simp only [Bool.false_and, Bool.false_eq_true, if_false, Bool.not_false, Bool.and_true,
    List.contains_iff_mem]
  by_cases hline : '\n' ∈ s.toList
  · rw [if_pos hline]
    cases hliteral : literalAllowed s.toList with
    | false => exact Or.inr (Or.inr (Or.inl rfl))
    | true =>
      simp only [literalAllowed, Bool.and_eq_true, List.all_eq_true] at hliteral
      exact Or.inr (Or.inr (Or.inr ⟨rfl, List.ne_nil_of_mem hline, hliteral.1.1⟩))
  · rw [if_neg hline]
    -- a text on one line that is not plain stands in quotes
    have hquoted : ∀ style : Style, style =
        (if singleQuotesAllowed s.toList then .single else .double) →
        (style = .single ∧ Quotable s.toList) ∨ style = .double := by
      intro style hstyle
      cases hsingle : singleQuotesAllowed s.toList with
      | false => exact Or.inr (by rw [hstyle, hsingle, if_neg Bool.false_ne_true])
      | true =>
        refine Or.inl ⟨by rw [hstyle, hsingle, if_pos rfl], ?_⟩
        simp only [singleQuotesAllowed, Bool.and_eq_true, List.all_eq_true,
          Bool.not_eq_true'] at hsingle
        exact ⟨hsingle.1.1, hline, hsingle.2, hsingle.1.2⟩
    cases hneeds : Scalar.needsQuotes s with
    | true => exact Or.inr ((hquoted _ rfl).imp id Or.inl)
    | false =>
      cases hplain : plainAllowed s.toList with
      | false => exact Or.inr ((hquoted _ rfl).imp id Or.inl)
      | true =>
        refine Or.inl ⟨rfl, ?_, rfl⟩
        simp only [plainAllowed, Bool.and_eq_true, List.all_eq_true, Bool.not_eq_true',
          decide_eq_true_eq] at hplain
        obtain ⟨⟨⟨⟨-, hmarks⟩, hprint⟩, hfirst⟩, hlast⟩ := hplain
        refine ⟨fun hnil => ?_, hmarks, hprint, hfirst, hlast⟩
        rw [show s = "" from String.toList_eq_nil_iff.mp hnil] at hneeds
        exact absurd hneeds (by decide)

/-- **A text is cut**, in whatever style it is written. The cases are the four styles. -/
theorem leads_text (s : String) (hcolumn : i < m.column) (hresumes : Resumes limit rest)
    (hlimit : limit ≤ i + 1) :
    ReachesLine (inBlock m ts (i :: ind) none allowed)
      (lineEnd (renderText (i + 2) false s) ++ nextLine limit rest)
      (ts ++ [.scalar (styleOf false s = .plain) s.toList]) (i :: ind) (nextLine limit rest) := by
  -- one lemma for each style
  rcases styleOf_cases s with
    ⟨hstyle, hplain, -⟩ | ⟨hstyle, hquotable⟩ | hstyle | ⟨hstyle, hne, hprint⟩
  · have htext : lineEnd (renderText (i + 2) false s) ++ nextLine limit rest =
        s.toList ++ '\n' :: nextLine limit rest := by
      simp [lineEnd, renderText, hstyle]
    rw [htext, hstyle]
    exact ⟨_, column_after_newline m s.toList, leads_plain hplain hcolumn hresumes hlimit⟩
  · have htext : lineEnd (renderText (i + 2) false s) =
        '\'' :: singleQuoted (i + 2) false s.toList ++ ['\''] ++ ['\n'] := by
      simp [lineEnd, renderText, hstyle]
    rw [htext, hstyle]
    exact ⟨_, column_after_newline m _, leads_single hquotable (Nat.succ_pos _) hcolumn _⟩
  · have htext : lineEnd (renderText (i + 2) false s) =
        '"' :: s.toList.flatMap escape ++ ['"'] ++ ['\n'] := by
      simp [lineEnd, renderText, hstyle]
    rw [htext, hstyle]
    exact ⟨_, column_after_newline m _, leads_double s.toList hcolumn _⟩
  · have htext : lineEnd (renderText (i + 2) false s) = literalText (i + 2) s.toList := by
      rw [lineEnd, renderText, literalText]
      simp only [hstyle]
      split
      · rw [List.append_nil]
      · rfl
    rw [htext, hstyle]
    exact ⟨_, column_after_literalText (i + 2) s.toList,
      leads_literal hne hprint hcolumn hresumes hlimit⟩

end Line

end CoChange.Yaml.Lexer
