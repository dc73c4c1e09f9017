import CoChange.Arithmetic
import CoChange.Proofs.Text
import CoChange.Proofs.Yaml.PlainText
import CoChange.Yaml.Token

/-!
# Steps of the cutting of texts

How a text is cut into tokens is told by where the cutting gets to (`Lexer.Leads`): from a place in
a text to a later one, with the tokens that are added on the way. Outside of brackets a place is a
mark, the tokens so far, the open collections, and whether a key may start or has started there
(`Lexer.inBlock`).

* **`Leads.of_settle`**: blanks in front of a token, and keys that have become stale, make no
  difference.
* **`Leads.of_cut`**: a token is cut.
* **`leads_close`**: a collection may be closed before the next line, if that does not go on as far
  in.
* **`leads_newline`**: a line is ended.
-/

namespace CoChange.Yaml

/-! ## Places -/

namespace Mark

/-- The place behind a text. -/
def after (m : Mark) (cs : List Char) : Mark := cs.foldl past m

variable {m : Mark} {cs : List Char}

@[simp] theorem after_nil (m : Mark) : m.after [] = m := rfl

@[simp] theorem after_cons (m : Mark) (c : Char) (cs : List Char) :
    m.after (c :: cs) = (m.past c).after cs := rfl

/-- A mark moves along a text in two parts through the first one. -/
theorem after_append (m : Mark) (cs ds : List Char) : m.after (cs ++ ds) = (m.after cs).after ds :=
  List.foldl_append

/-- A mark does not go back by a character. -/
theorem line_le_past (m : Mark) (c : Char) : m.line ≤ (m.past c).line := by
  unfold past
  split
  · exact Nat.le_succ _
  · exact Nat.le_refl _

/-- It does not go back along a text. -/
theorem line_le_over (m : Mark) (cs : List Char) : m.line ≤ (m.after cs).line := by
  induction cs generalizing m with
  | nil => exact Nat.le_refl _
  | cons c cs ih => exact Nat.le_trans (line_le_past m c) (ih _)

/-- A text without line breaks stays on its line. -/
theorem after_line (h : ∀ c ∈ cs, isBreak c = false) :
    m.after cs = ⟨m.index + cs.length, m.line, m.column + cs.length⟩ := by
  induction cs generalizing m with
  | nil => rfl
  | cons c cs ih =>
    rw [List.forall_mem_cons] at h
    rw [after_cons, ih h.2, past, if_neg (by rw [h.1]; decide), List.length_cons]
    simp only [Mark.mk.injEq, true_and]
    omega

/-- A blank is no line break. -/
theorem not_break_of_mem_blanks {n : Nat} {c : Char} (h : c ∈ blanks n) : isBreak c = false := by
  rw [(List.mem_replicate.mp h).2]
  rfl

/-- Blanks move the mark along its line. -/
@[simp] theorem after_blanks (m : Mark) (n : Nat) :
    m.after (blanks n) = ⟨m.index + n, m.line, m.column + n⟩ := by
  rw [after_line fun c hc => not_break_of_mem_blanks hc, blanks, List.length_replicate]

@[simp] theorem past_newline (m : Mark) : m.past '\n' = ⟨m.index + 1, m.line + 1, 0⟩ := rfl

end Mark

namespace Lexer

/-- Where the cutting stands outside of brackets. -/
def inBlock (m : Mark) (ts : List Token) (indents : List Nat) (key : Option PendingKey)
    (keyAllowed : Bool) :
    Lexer := ⟨m, ts.toArray, indents, key, [], keyAllowed⟩

variable {m : Mark} {ts : List Token} {ind : List Nat} {key : Option PendingKey} {allowed : Bool}
    {cs rest : List Char}
  {l l' l'' : Lexer} {cs' cs'' : List Char} {c : Char}

@[simp] theorem inFlow_inBlock : (inBlock m ts ind key allowed).inFlow = false := rfl

@[simp] theorem mark_inBlock : (inBlock m ts ind key allowed).mark = m := rfl

@[simp] theorem size_inBlock : (inBlock m ts ind key allowed).tokens.size = ts.length := rfl

@[simp] theorem keyAllowed_inBlock : (inBlock m ts ind key allowed).keyAllowed = allowed := rfl

/-! ## In front of a token -/

/-- What happens in front of a token: blanks are skipped, stale keys are given up, and collections
that the token does not belong to are closed. -/
def settle (l : Lexer) (cs : List Char) : Except Fault (Lexer × List Char) :=
  (l.skipBlanks false cs).1.dropStaleKeys.map fun k =>
    (k.closeBlocks (k.mark.column < ·), (l.skipBlanks false cs).2)

/-- A lexer that fails in front of a token fails. -/
theorem run_of_settle_error {e : Fault} (h : l.settle cs = .error e) (fuel : Nat) :
    run fuel l cs = .error e := by
  rw [settle] at h
  rw [run.eq_def]
  cases hstale : (l.skipBlanks false cs).1.dropStaleKeys with
  | error e' =>
    rw [hstale] at h
    cases h
    simp only [hstale, error_bind]
  | ok k =>
    rw [hstale] at h
    cases h

/-- What comes in front of a token, step by step: blanks are skipped, stale keys are given up, and
collections that the token does not belong to are closed. -/
theorem settle_eq_ok (h : l.settle cs = .ok (l', cs')) :
    ∃ k, (l.skipBlanks false cs).1.dropStaleKeys = .ok k ∧
    k.closeBlocks (k.mark.column < ·) = l' ∧ (l.skipBlanks false cs).2 = cs' := by
  rw [settle] at h
  cases hstale : (l.skipBlanks false cs).1.dropStaleKeys with
  | error e =>
    rw [hstale] at h
    cases h
  | ok k =>
    rw [hstale] at h
    exact ⟨k, rfl, Prod.mk.inj (Except.ok.inj h)⟩

/-- What is left when there is nothing more to cut is finished. -/
theorem run_of_settle_nil (h : l.settle cs = .ok (l', [])) (fuel : Nat) :
    run fuel l cs = l'.finish := by
  obtain ⟨k, hstale, hclose, hrest⟩ := settle_eq_ok h
  rw [run.eq_def]
  simp only [hstale, ok_bind, hclose, hrest]

/-- Without fuel, a token that is there is not cut. -/
theorem run_of_settle_zero (h : l.settle cs = .ok (l', c :: rest)) :
    run 0 l cs = .error .strayCharacter := by
  obtain ⟨k, hstale, hclose, hrest⟩ := settle_eq_ok h
  rw [run.eq_def]
  simp only [hstale, ok_bind, hrest]
  rfl

/-- Otherwise a token is cut, and the rest of the text goes the same way. -/
theorem run_of_settle_cons (h : l.settle cs = .ok (l', c :: rest)) (fuel : Nat) :
    run (fuel + 1) l cs = l'.cut c rest >>= fun p => run fuel p.1 p.2 := by
  obtain ⟨k, hstale, hclose, hrest⟩ := settle_eq_ok h
  rw [run.eq_def]
  simp only [hstale, ok_bind, hclose, hrest]

/-- What happens in front of a token is all that counts. -/
theorem run_congr (h : l.settle cs = l'.settle cs') (fuel : Nat) :
    run fuel l cs = run fuel l' cs' := by
  cases hs : l.settle cs with
  | error e => rw [run_of_settle_error hs, run_of_settle_error (h ▸ hs)]
  | ok p =>
    obtain ⟨k, ds⟩ := p
    cases ds with
    | nil => rw [run_of_settle_nil hs, run_of_settle_nil (h ▸ hs)]
    | cons d ds =>
      cases fuel with
      | zero => rw [run_of_settle_zero hs, run_of_settle_zero (h ▸ hs)]
      | succ fuel => rw [run_of_settle_cons hs, run_of_settle_cons (h ▸ hs)]

/-! ## Where the cutting gets to -/

/-- The cutting of a text gets to a later place. The fuel that is left is enough there, too. -/
def Leads (l : Lexer) (cs : List Char) (l' : Lexer) (cs' : List Char) : Prop :=
  ∀ fuel, cs.length ≤ fuel → ∃ fuel', cs'.length ≤ fuel' ∧ run fuel l cs = run fuel' l' cs'

/-- A lexer leads to itself. -/
theorem Leads.refl (l : Lexer) (cs : List Char) : Leads l cs l cs := fun fuel h => ⟨fuel, h, rfl⟩

/-- What leads to a place leads to all places that this one leads to. -/
theorem Leads.trans (h : Leads l cs l' cs') (h' : Leads l' cs' l'' cs'') : Leads l cs l'' cs'' := by
  intro fuel hfuel
  obtain ⟨fuel', hfuel', hrun⟩ := h fuel hfuel
  obtain ⟨fuel'', hfuel'', hrun'⟩ := h' fuel' hfuel'
  exact ⟨fuel'', hfuel'', hrun.trans hrun'⟩

/-- A lexer leads to where it settles in the same way. -/
theorem Leads.of_settle (h : l.settle cs = l'.settle cs') (hlength : cs'.length ≤ cs.length) :
    Leads l cs l' cs' := fun fuel hfuel => ⟨fuel, Nat.le_trans hlength hfuel, run_congr h fuel⟩

/-- A token is cut, and the cutting goes on at a place that makes no difference to what follows. -/
theorem Leads.of_cut_settle (h : l.settle cs = .ok (l', c :: rest))
    (hcut : l'.cut c rest = .ok (l'', cs''))
    {k : Lexer} (hsettle : l''.settle cs'' = k.settle cs') (hlength : cs'.length < cs.length) :
    Leads l cs k cs' := by
  intro fuel hfuel
  obtain ⟨fuel, rfl⟩ :=
    Nat.exists_eq_add_of_lt (Nat.lt_of_lt_of_le (Nat.zero_lt_of_lt hlength) hfuel)
  refine ⟨fuel, by omega, ?_⟩
  rw [Nat.zero_add, run_of_settle_cons h, hcut]
  exact run_congr hsettle fuel

/-- A lexer leads to what a cut leaves, since that is shorter. -/
theorem Leads.of_cut (h : l.settle cs = .ok (l', c :: rest))
    (hcut : l'.cut c rest = .ok (l'', cs''))
    (hlength : cs''.length < cs.length) : Leads l cs l'' cs'' := .of_cut_settle h hcut rfl hlength

/-! ## Blanks and stale keys -/

/-- A space is skipped. -/
theorem settle_space : (inBlock m ts ind key allowed).settle (' ' :: cs) =
    (inBlock (m.past ' ') ts ind key allowed).settle cs := by
  rfl

/-- The indentation of a line is skipped. -/
theorem settle_blanks (n : Nat) : (inBlock m ts ind key allowed).settle (blanks n ++ cs) =
    (inBlock (m.after (blanks n)) ts ind key allowed).settle cs := by
  induction n generalizing m with
  | zero => rfl
  | succ n ih => rw [blanks_succ, List.cons_append, settle_space, ih, Mark.after_cons]

/-- Behind a line break a key may start. -/
theorem settle_newline : (inBlock m ts ind key allowed).settle ('\n' :: cs) =
    (inBlock (m.past '\n') ts ind key true).settle cs := by
  cases allowed <;> rfl

/-- What is skipped in front of a token, by the next character: breaks, which allow a key again,
blanks, comments and a mark of the order of bytes. -/
theorem skipBlanks_cons (comment : Bool) :
    (inBlock m ts ind key allowed).skipBlanks comment (c :: cs) =
    if isBreak c then (inBlock (m.past c) ts ind key true).skipBlanks false cs
    else if comment || c = ' ' || (c = '\t' && !allowed) then
      (inBlock (m.past c) ts ind key allowed).skipBlanks comment cs
    else if c = '#' then (inBlock (m.past c) ts ind key allowed).skipBlanks true cs
    else if c.toNat = 0xFEFF && m.index = 0 then
      (inBlock (m.past c) ts ind key allowed).skipBlanks false cs
    else (inBlock m ts ind key allowed, c :: cs) := by
  cases allowed <;> rfl

/-- Where the skipping of blanks gets to depends neither on the tokens nor on what is open. -/
theorem skipBlanks_inBlock (comment : Bool) (cs : List Char) (m : Mark) (allowed : Bool) :
    ∃ m' allowed' cs', m.line ≤ m'.line ∧
      ∀ ts ind key, (inBlock m ts ind key allowed).skipBlanks comment cs =
      (inBlock m' ts ind key allowed', cs') := by
  induction cs generalizing comment m allowed with
  | nil => exact ⟨m, allowed, [], Nat.le_refl _, fun _ _ _ => rfl⟩
  | cons c cs ih =>
    -- a character that is skipped does not lead back to an earlier line
    have hstep : ∀ comment' allowed', ∃ m' allowed'' cs', m.line ≤ m'.line ∧ ∀ ts ind key,
        (inBlock (m.past c) ts ind key allowed').skipBlanks comment' cs =
          (inBlock m' ts ind key allowed'', cs') := by
      intro comment' allowed'
      obtain ⟨m', allowed'', cs', hline, hskip⟩ := ih comment' (m.past c) allowed'
      exact ⟨m', allowed'', cs', Nat.le_trans (m.line_le_past c) hline, hskip⟩
    simp only [skipBlanks_cons]
    cases isBreak c with
    | true => exact hstep false true
    | false =>
      simp only [Bool.false_eq_true, if_false]
      cases comment || decide (c = ' ') || (decide (c = '\t') && !allowed) with
      | true => exact hstep comment allowed
      | false =>
        simp only [Bool.false_eq_true, if_false]
        by_cases hcomment : c = '#'
        · simp only [hcomment, if_true]
          exact hcomment ▸ hstep true allowed
        simp only [hcomment, if_false]
        cases decide (c.toNat = 0xFEFF) && decide (m.index = 0) with
        | true => exact hstep false allowed
        | false => exact ⟨m, allowed, c :: cs, Nat.le_refl _, fun _ _ _ => rfl⟩

/-- A key that cannot be one any more. -/
def Stale (m : Mark) (key : Option PendingKey) : Prop :=
  ∀ k ∈ key, k.required = false ∧ k.mark.line < m.line

/-- A stale key is given up without an error, as it is not required. -/
theorem fresh_of_stale (h : Stale m key) : fresh m key = .ok none := by
  cases key with
  | none => rfl
  | some k =>
    obtain ⟨hrequired, hline⟩ := h k rfl
    rw [fresh, if_pos (by simp [hline]), if_neg (by simp [hrequired])]

/-- A possible key that can no longer be one is dropped. -/
theorem dropStaleKeys_inBlock {key' : Option PendingKey} (h : fresh m key = .ok key') :
    (inBlock m ts ind key allowed).dropStaleKeys = .ok (inBlock m ts ind key' allowed) := by
  rw [dropStaleKeys]
  simp only [inBlock, h, ok_bind]
  rfl

/-- A stale key makes no difference. -/
theorem settle_stale (h : Stale m key) :
    (inBlock m ts ind key allowed).settle cs = (inBlock m ts ind none allowed).settle cs := by
  obtain ⟨m', allowed', cs', hline, hskip⟩ := skipBlanks_inBlock false cs m allowed
  have hstale : Stale m' key := fun k hk => ⟨(h k hk).1, Nat.lt_of_lt_of_le (h k hk).2 hline⟩
  rw [settle, settle, hskip, hskip, dropStaleKeys_inBlock (fresh_of_stale hstale),
    dropStaleKeys_inBlock rfl]

/-! ## Tokens -/

/-- No open collection is further in than a column. -/
def Within (ind : List Nat) (column : Nat) : Prop := ∀ i ∈ ind.head?, i ≤ column

/-- No collection is closed where the token stands at least as far in as the innermost one. -/
theorem closeBlocks_within (h : Within ind m.column) :
    (inBlock m ts ind key allowed).closeBlocks (m.column < ·) = inBlock m ts ind key allowed := by
  have hclosed : ind.takeWhile (fun x => decide (m.column < x)) = [] := by
    cases ind with
    | nil => rfl
    | cons i ind =>
      have := h i rfl
      rw [List.takeWhile_cons_of_neg (by simpa using this)]
  rw [closeBlocks, inFlow_inBlock, if_neg Bool.false_ne_true]
  simp only [inBlock, hclosed]
  simp

/-- No blanks stand in front of a token, nor at the end of the text. -/
theorem skipBlanks_starts (hrest : ∀ c ∈ rest.head?, Starts c) :
    (inBlock m ts ind key allowed).skipBlanks false rest =
      (inBlock m ts ind key allowed, rest) := by
  cases rest with
  | nil => rfl
  | cons c rest =>
    have hc := hrest c rfl
    have hblank := hc.not_blank
    rw [isBlank, Bool.or_eq_false_iff, decide_eq_false_iff_not, decide_eq_false_iff_not] at hblank
    rw [skipBlanks_cons]
    simp [hc.not_break, hblank.1, hblank.2, hc.not_comment, hc.not_mark]

/-- In front of a token, blocks are closed whose column is to the right of it. -/
theorem settle_starts {key' : Option PendingKey} (hrest : ∀ c ∈ rest.head?, Starts c)
    (hkey : fresh m key = .ok key') : (inBlock m ts ind key allowed).settle rest =
      .ok ((inBlock m ts ind key' allowed).closeBlocks (m.column < ·), rest) := by
  rw [settle, skipBlanks_starts hrest, dropStaleKeys_inBlock hkey]
  rfl

/-- With no possible key, blocks are closed and nothing is dropped. -/
theorem settle_free (m : Mark) (ts : List Token) (ind : List Nat) (allowed : Bool)
    (hrest : ∀ c ∈ rest.head?, Starts c) : (inBlock m ts ind none allowed).settle rest =
    .ok ((inBlock m ts ind none allowed).closeBlocks (m.column < ·), rest) :=
  settle_starts hrest rfl

/-- A token is cut where it stands. -/
theorem settle_token {key' : Option PendingKey} (hc : Starts c) (hkey : fresh m key = .ok key')
    (hwithin : Within ind m.column) : (inBlock m ts ind key allowed).settle (c :: rest) =
      .ok (inBlock m ts ind key' allowed, c :: rest) := by
  have hstarts : ∀ d ∈ (c :: rest).head?, Starts d := fun d hd => by
    rw [List.head?_cons, Option.mem_some_iff] at hd
    exact hd ▸ hc
  rw [settle_starts hstarts hkey, closeBlocks_within hwithin]

/-! ## Lines -/

/-- A line is ended. -/
theorem leads_newline (hkey : ∀ k ∈ key, k.required = false ∧ k.mark.line ≤ m.line)
    (cs : List Char) :
    Leads (inBlock m ts ind key allowed)
      ('\n' :: cs) (inBlock (m.past '\n') ts ind none true) cs := by
  have hstale : Stale (m.past '\n') key :=
    fun k hk => ⟨(hkey k hk).1, Nat.lt_succ_of_le (hkey k hk).2⟩
  exact .of_settle (settle_newline.trans (settle_stale hstale)) (Nat.le_succ _)

/-- Blanks lead to what stands behind them. -/
theorem leads_blanks (n : Nat) (cs : List Char) :
    Leads (inBlock m ts ind key allowed) (blanks n ++ cs)
    (inBlock (m.after (blanks n)) ts ind key allowed) cs :=
  .of_settle (settle_blanks n) (by rw [List.length_append]; exact Nat.le_add_left ..)

/-- The collections that are closed by a line are closed in order. -/
theorem closeBlocks_cons {i : Nat} {isClosed : Nat → Bool} (hi : isClosed i = true) :
    (inBlock m ts (i :: ind) key allowed).closeBlocks isClosed =
      (inBlock m (ts ++ [.blockEnd]) ind key allowed).closeBlocks isClosed := by
  rw [closeBlocks, closeBlocks, inFlow_inBlock, inFlow_inBlock, if_neg Bool.false_ne_true,
    if_neg Bool.false_ne_true]
  simp [inBlock, List.takeWhile_cons_of_pos hi]

/-- All open collections are closed with one token each. -/
theorem closeBlocks_all : (inBlock m ts ind key allowed).closeBlocks (fun _ => true) =
    inBlock m (ts ++ ind.map fun _ => Token.blockEnd) [] key allowed := by
  have hclosed : ind.takeWhile (fun _ => true) = ind :=
    List.takeWhile_eq_self_iff.mpr fun _ _ => rfl
  rw [closeBlocks, inFlow_inBlock, if_neg Bool.false_ne_true]
  simp [inBlock, hclosed]

/-- The end of the text closes everything. -/
theorem finish_inBlock : (inBlock m ts ind none allowed).finish =
    .ok (ts ++ ind.map fun _ => Token.blockEnd).toArray := by
  rw [finish, closeBlocks_all]
  rfl

/-- The marks at the end of a document close everything. -/
theorem cut_border (index line : Nat) :
    (inBlock ⟨index, line, 0⟩ ts ind none allowed).cut '.' ['.', '.', '\n'] =
    .ok (inBlock ⟨index + 3, line, 3⟩
      (ts ++ ind.map (fun _ => Token.blockEnd) ++ [.documentEnd]) [] none false,
      ['\n']) := by
  have hcut : (inBlock ⟨index, line, 0⟩ ts ind none allowed).cut '.' ['.', '.', '\n'] =
      (inBlock ⟨index, line, 0⟩ ts ind none allowed).cutBorder ['.', '.', '.', '\n']
        (.ok (.documentEnd, ['\n'])) := rfl
  rw [hcut, cutBorder, closeBlocks_all]
  simp [inBlock, dropKey, ok_bind, push, moveTo, allowKey, Mark.past, isBreak, pure, Except.pure]

/-- **A collection may be closed before the next line**, if that does not go on as far in. The
closing token is added in front of the token that comes next, and nothing else changes. -/
theorem leads_close {i limit : Nat} (hcolumn : m.column = 0) (hresumes : Resumes limit rest)
    (hlimit : limit ≤ i)
    (houter : i = 0 → ind = []) : Leads (inBlock m ts (i :: ind) none allowed) (nextLine limit rest)
      (inBlock m (ts ++ [.blockEnd]) ind none allowed) (nextLine limit rest) := by
  by_cases hi : i = 0
  · -- the outermost collection is closed by the end of the document
    obtain rfl : limit = 0 := by omega
    obtain rfl := houter hi
    subst hi
    obtain ⟨index, line, column⟩ := m
    obtain rfl : column = 0 := hcolumn
    have hsettle := settle_free ⟨index, line, 0⟩ ts [0] allowed hresumes.starts
    rw [closeBlocks_within fun j hj => by simp at hj; omega] at hsettle
    have hsettled := settle_free ⟨index, line, 0⟩ (ts ++ [.blockEnd]) [] allowed hresumes.starts
    rw [closeBlocks_within fun j hj => by simp at hj] at hsettled
    intro fuel hfuel
    refine ⟨fuel, hfuel, ?_⟩
    rcases hresumes.ends rfl with rfl | rfl
    · refine (run_of_settle_nil hsettle fuel).trans
        (Eq.trans ?_ (run_of_settle_nil hsettled fuel).symm)
      rw [finish_inBlock, finish_inBlock]
      simp
    · obtain ⟨fuel, rfl⟩ :=
        Nat.exists_eq_add_of_lt (Nat.lt_of_lt_of_le (show 0 < _ by decide) hfuel)
      rw [Nat.zero_add]
      refine (run_of_settle_cons hsettle fuel).trans
        (Eq.trans ?_ (run_of_settle_cons hsettled fuel).symm)
      rw [cut_border, cut_border]
      simp
  · refine .of_settle ?_ (Nat.le_refl _)
    rw [nextLine, settle_blanks, settle_blanks, settle_free _ _ _ _ hresumes.starts,
      settle_free _ _ _ _ hresumes.starts, closeBlocks_cons (by simp; omega)]

/-! ## Entries of sequences -/

/-- All open collections start further out. -/
def Inside (ind : List Nat) (column : Nat) : Prop := ∀ i ∈ ind.head?, i < column

theorem Inside.within {column : Nat} (h : Inside ind column) : Within ind column :=
  fun i hi => Nat.le_of_lt (h i hi)

/-- What stands inside a block is not left of its content. -/
theorem contentColumn_le {column : Nat} (h : Inside ind column) :
    (inBlock m ts ind key allowed).contentColumn ≤ column := by
  cases ind with
  | nil => exact Nat.zero_le _
  | cons i ind => exact h i rfl

/-- A token that is put behind the first part of a list stands between the two parts. -/
theorem insertIdx_append (ts us : List Token) (t : Token) :
    (ts ++ us).toArray.insertIdxIfInBounds ts.length t = (ts ++ t :: us).toArray := by
  have hinsert : (ts ++ us).insertIdx ts.length t = ts ++ t :: us := by
    induction ts with
    | nil => rfl
    | cons u ts ih => exact congrArg (u :: ·) ih
  rw [Array.insertIdxIfInBounds, dif_pos (by simp)]
  simp [List.insertIdx_toArray, hinsert]

/-- A collection is opened further in than the innermost one, by a token in front of those of its
key. -/
theorem openBlock_inside {column : Nat} (us : List Token) (t : Token) (h : Inside ind column) :
    (inBlock m (ts ++ us) ind key allowed).openBlock column ts.length t =
      inBlock m (ts ++ t :: us) (column :: ind) key allowed := by
  have hcolumn : (inBlock m (ts ++ us) ind key allowed).contentColumn ≤ column := contentColumn_le h
  rw [openBlock, inFlow_inBlock, if_neg (by simp; omega)]
  simp only [inBlock, insertIdx_append]

/-- A block that is open already is not opened again. -/
theorem openBlock_same {t : Token} {position column : Nat} :
    (inBlock m ts (column :: ind) key allowed).openBlock column position t =
      inBlock m ts (column :: ind) key allowed := by
  rw [openBlock, inFlow_inBlock, if_pos (by simp [contentColumn, inBlock])]

theorem starts_dash : Starts '-' := ⟨rfl, rfl, by decide, by decide⟩

/-- A dash with a blank behind it is the sign of an item, and of nothing else. -/
theorem cut_dash (l : Lexer) (rest : List Char) :
    l.cut '-' (' ' :: rest) = l.cutBlockEntry (' ' :: rest) := by
  have hdash : isDocumentMark '-' ('-' :: ' ' :: rest) = false := by cases rest <;> rfl
  have hpoint : isDocumentMark '.' ('-' :: ' ' :: rest) = false := by cases rest <;> rfl
  rw [cut]
  simp only [hdash, hpoint]
  simp [isBlankOrEnd, isBlank]

/-- **The first item of a sequence** that is set in opens it. From there on, dashes in the same
column are further items. -/
theorem leads_firstItem (h : Inside ind m.column) (rest : List Char) :
    Leads (inBlock m ts ind none true) ('-' :: ' ' :: rest)
      (inBlock ((m.past '-').past ' ')
        (ts ++ [.blockSequenceStart] ++ [.blockEntry]) (m.column :: ind) none
        true) rest := by
  refine .of_cut_settle (settle_token starts_dash rfl h.within) ?_ settle_space (by simp)
  have hopen : (inBlock m (ts ++ []) ind none true).openBlock
      m.column ts.length .blockSequenceStart = _ :=
    openBlock_inside [] _ h
  rw [List.append_nil] at hopen
  rw [cut_dash, cutBlockEntry]
  simp only [inFlow_inBlock, keyAllowed_inBlock, mark_inBlock, size_inBlock, hopen]
  simp [inBlock, dropKey, ok_bind, push, allowKey, cutMark, pure, Except.pure]

/-- **A further item of a sequence**, or the first one of a sequence that stands right below its
key. -/
theorem leads_item {n : Nat} (hn : m.column = n) (ts : List Token) (ind : List Nat)
    (rest : List Char) :
    Leads (inBlock m ts (n :: ind) none true) ('-' :: ' ' :: rest)
      (inBlock ((m.past '-').past ' ') (ts ++ [.blockEntry]) (n :: ind) none true) rest := by
  subst hn
  refine .of_cut_settle (settle_token starts_dash rfl fun i hi => ?_) ?_ settle_space (by simp)
  · rw [List.head?_cons, Option.mem_some_iff] at hi
    exact Nat.le_of_eq hi.symm
  · rw [cut_dash, cutBlockEntry]
    simp only [inFlow_inBlock, keyAllowed_inBlock, mark_inBlock, openBlock_same]
    simp [inBlock, dropKey, ok_bind, push, allowKey, cutMark, pure, Except.pure]

/-! ## Plain texts -/

/-- What can begin a plain text at a place: nothing that would mark the border of a document
there. -/
def NoBorder (column : Nat) (c : Char) : Prop := column = 0 → c ≠ '-' ∧ c ≠ '.'

/-- A line that begins with another character is no border of documents. -/
theorem isDocumentMark_eq_false {mark : Char} (h : c ≠ mark) (rest : List Char) :
    isDocumentMark mark (c :: rest) = false := by
  unfold isDocumentMark
  split
  · rename_i heq
    rw [← (List.cons.inj heq).1]
    simp [h]
  · rfl

/-- The first character of a plain text. -/
theorem Plain.first (h : Plain (c :: cs)) :
    Starts c ∧ c ∉ reservedStarts ∧ isBlankOrEnd (some c) = false ∧
    ((c = '?' ∨ c = ':' ∨ c = '-') → ∃ d ds, cs = d :: ds ∧ isBlankOrEnd (some d) = false) := by
  obtain ⟨hprint, hbreak⟩ := h.printable c List.mem_cons_self
  have hmark := h.unmarked
  rw [hasIndicator, Bool.or_eq_false_iff, isIndicator, Bool.or_eq_false_iff,
    decide_eq_false_iff_not] at hmark
  obtain ⟨⟨hreserved, hlone⟩, -⟩ := hmark
  have hspace : c ≠ ' ' := fun heq => h.starts (by rw [heq]; rfl)
  have hblank := isBlank_eq_false hprint hspace
  have hend : isBlankOrEnd (some c) = false := by
    rw [← Bool.not_eq_true, isBlankOrEnd_of_isPrintable hprint hbreak]
    exact hspace
  refine ⟨⟨hblank, hbreak, ?_, (toNat_ne_of_isPrintable hprint).2.2.2.2⟩, hreserved, hend, ?_⟩
  · rintro rfl
    exact hreserved (by decide)
  · intro hc
    have hc : (decide (c = '?') || decide (c = ':') || decide (c = '-')) = true := by
      simpa [or_assoc] using hc
    rw [hc, Bool.true_and] at hlone
    cases cs with
    | nil => exact absurd hlone (by decide)
    | cons d ds => exact ⟨d, ds, rfl, hlone⟩

/-- A plain text may start at its first character: where that could mean something else, the next
one shows that it does not. -/
theorem startsPlain_of_plain (h : Plain (c :: cs)) (rest : List Char) :
    startsPlain false c (cs ++ rest).head? = true := by
  obtain ⟨-, hreserved, hend, hlone⟩ := Plain.first h
  -- three of the stops may begin a text, where a character of the text follows
  have hstop : plainStops.contains c = false ∨ c = '?' ∨ c = ':' ∨ c = '-' := by
    by_cases hc : c ∈ plainStops
    · have hall : ∀ d ∈ plainStops, d ∈ reservedStarts ∨ d = '?' ∨ d = ':' ∨ d = '-' := by decide
      exact Or.inr ((hall c hc).resolve_left hreserved)
    · exact Or.inl (by simpa using hc)
  rw [startsPlain, hend]
  rcases hstop with hstop | hc
  · rw [hstop]
    rfl
  · obtain ⟨d, ds, rfl, hd⟩ := hlone hc
    have hblank : isBlank d = false := by
      rw [isBlankOrEnd] at hd
      simp only [Bool.or_eq_false_iff] at hd
      exact hd.1.1
    rcases hc with rfl | rfl | rfl <;> simp [hd, hblank]

/-- A plain text is cut as such. -/
theorem cut_plain (h : Plain (c :: cs)) (hborder : NoBorder m.column c) (rest : List Char) :
    (inBlock m ts ind key allowed).cut c (cs ++ rest) =
      (inBlock m ts ind key allowed).cutPlain (c :: cs ++ rest) := by
  obtain ⟨-, hreserved, -, hlone⟩ := Plain.first h
  have hne : ∀ d ∈ reservedStarts, c ≠ d := fun d hd heq => hreserved (heq ▸ hd)
  have hnext : (c = '?' ∨ c = ':' ∨ c = '-') → isBlankOrEnd (cs ++ rest).head? = false := by
    intro hc
    obtain ⟨d, ds, rfl, hd⟩ := hlone hc
    exact hd
  -- at the start of a line the text must not be taken for the border of a document
  have hmark : ∀ mark : Char, (m.column = 0 → c ≠ mark) →
      (decide ((inBlock m ts ind key allowed).mark.column = 0) &&
        isDocumentMark mark (c :: (cs ++ rest))) =
        false := by
    intro mark hmark
    by_cases hzero : m.column = 0
    · rw [isDocumentMark_eq_false (hmark hzero), Bool.and_false]
    · simp [hzero]
  have hdash := hmark '-' fun h => (hborder h).1
  have hpoint := hmark '.' fun h => (hborder h).2
  have hlone' : ∀ d : Char, d = '?' ∨ d = ':' ∨ d = '-' →
      (decide (c = d) && isBlankOrEnd (cs ++ rest).head?) = false := by
    intro d hd
    by_cases hc : c = d
    · rw [hnext (hc ▸ hd), Bool.and_false]
    · simp [hc]
  rw [cut]
  simp only [inFlow_inBlock, Bool.false_or, hdash, hpoint, hlone' '-' (by decide),
    hlone' '?' (by decide), hlone' ':' (by decide), startsPlain_of_plain h rest,
    hne '%' (by decide), hne '[' (by decide), hne '\x7b' (by decide), hne ']' (by decide),
    hne '\x7d' (by decide), hne ',' (by decide), hne '*' (by decide), hne '&' (by decide),
    hne '!' (by decide), hne '|' (by decide), hne '>' (by decide), hne '\'' (by decide),
    hne '"' (by decide), decide_false, Bool.and_false, Bool.false_eq_true, if_false, if_true]
  rfl

/-- A token goes to the end of those that were cut. -/
theorem push_inBlock (t : Token) :
    (inBlock m ts ind key allowed).push t = inBlock m (ts ++ [t]) ind key allowed := by
  simp [push, inBlock]

/-- The mark moves over what is taken off. -/
theorem moveTo_append (cs rest : List Char) :
    (inBlock m ts ind key allowed).moveTo (cs ++ rest) rest =
    inBlock (m.after cs) ts ind key allowed := by
  simp [moveTo, inBlock, Mark.after]

/-- What may be a key at a place where nothing was one. -/
def noted (m : Mark) (ts : List Token) (ind : List Nat) (allowed : Bool) : Option PendingKey :=
  if allowed then some ⟨ind.head? = some m.column, ts.length, m⟩ else none

/-- What may be a key is noted with the place where it stands. -/
theorem noteKey_inBlock : (inBlock m ts ind none allowed).noteKey =
    .ok (inBlock m ts ind (noted m ts ind allowed) allowed) := by
  cases allowed <;> rfl

/-- A plain text is read where it stands. -/
theorem cutPlain_inBlock {text : List Char} {broken : Bool}
    (htaken : takePlain false (inBlock m ts ind none allowed).contentColumn
      m.column [] .empty (cs ++ rest) =
      .ok ⟨⟨text, rest⟩, broken⟩) :
    (inBlock m ts ind none allowed).cutPlain (cs ++ rest) =
      .ok (inBlock (m.after cs) (ts ++ [.scalar true text]) ind (noted m ts ind allowed) broken,
        rest) := by
  rw [cutPlain, noteKey_inBlock, ok_bind]
  have htaken' : takePlain (inBlock m ts ind (noted m ts ind allowed) allowed).inFlow
      (inBlock m ts ind (noted m ts ind allowed) allowed).contentColumn
      (inBlock m ts ind (noted m ts ind allowed) allowed).mark.column [] .empty (cs ++ rest) =
        .ok ⟨⟨text, rest⟩, broken⟩ := htaken
  rw [htaken', ok_bind, push_inBlock, moveTo_append]
  rfl

theorem starts_colon : Starts ':' := ⟨rfl, rfl, by decide, by decide⟩

/-- A colon with a blank behind it, or nothing, is the sign of a value. -/
theorem cut_colon (l : Lexer) (hrest : isBlankOrEnd rest.head? = true) :
    l.cut ':' rest = l.cutValue rest := by
  have hdash := isDocumentMark_eq_false (show ':' ≠ '-' by decide) rest
  have hpoint := isDocumentMark_eq_false (show ':' ≠ '.' by decide) rest
  rw [cut]
  simp only [hdash, hpoint, hrest]
  simp

/-- A key on its line. -/
structure KeyText (cs : List Char) : Prop extends Plain cs where
  /-- It marks no border of a document. -/
  border : cs.head? ≠ some '-' ∧ cs.head? ≠ some '.'
  short : cs.length ≤ maxKeyLength

instance (cs : List Char) : Decidable (KeyText cs) :=
  decidable_of_iff (Plain cs ∧ (cs.head? ≠ some '-' ∧ cs.head? ≠ some '.') ∧
    cs.length ≤ maxKeyLength)
    ⟨fun ⟨hplain, hborder, hshort⟩ => ⟨hplain, hborder, hshort⟩,
      fun ⟨hplain, hborder, hshort⟩ => ⟨hplain, hborder, hshort⟩⟩

/-- The text of a key is cut. -/
theorem leads_keyText (h : KeyText cs) (hwithin : Within ind m.column)
    (hrest : isBlankOrEnd rest.head? = true) :
    Leads (inBlock m ts ind none true) (cs ++ ':' :: rest)
      (inBlock (m.after cs) (ts ++ [.scalar true cs]) ind (noted m ts ind true) false)
        (':' :: rest) := by
  obtain ⟨c, cs, rfl⟩ := List.exists_cons_of_ne_nil h.ne
  have hborder : NoBorder m.column c := fun _ =>
    ⟨fun heq => h.border.1 (by rw [heq]; rfl), fun heq => h.border.2 (by rw [heq]; rfl)⟩
  refine .of_cut (settle_token (Plain.first h.toPlain).1 rfl hwithin) ?_ (by simp)
  exact (cut_plain h.toPlain hborder _).trans
    (cutPlain_inBlock (takePlain_colon h.toPlain (fun _ => h.border) hrest))

/-- A key stands on one line and is not too long. -/
theorem KeyText.fresh (h : KeyText cs) (m : Mark) (required : Bool) (position : Nat) :
    Lexer.fresh (m.after cs) (some ⟨required, position, m⟩) =
      .ok (some ⟨required, position, m⟩) := by
  have hshort := h.short
  rw [Mark.after_line fun c hc => (h.printable c hc).2, Lexer.fresh]
  simp only [Nat.lt_irrefl, decide_false, Bool.false_or]
  rw [if_neg (by simp; omega)]

/-- A key does not move the mark to the left. -/
theorem KeyText.column_le (h : KeyText cs) (m : Mark) : m.column ≤ (m.after cs).column := by
  rw [Mark.after_line fun c hc => (h.printable c hc).2]
  exact Nat.le_add_right ..

/-- Behind the colon of a key, the line has gone on. -/
theorem KeyText.column_lt (h : KeyText cs) (m : Mark) :
    m.column < (m.after (cs ++ [':'])).column := by
  rw [Mark.after_append]
  exact Nat.lt_succ_of_le (h.column_le m)

/-- The colon behind a key makes it one. -/
theorem cutValue_inBlock (m' : Mark) (t : Token) (required : Bool) (rest : List Char) :
    (inBlock m' (ts ++ [t]) ind (some ⟨required, ts.length, m⟩) false).cutValue rest =
      .ok (((inBlock m' (ts ++ [.key, t]) ind none false).openBlock m.column ts.length
        .blockMappingStart).cutMark .value ':' rest) := by
  rw [cutValue]
  simp only [inBlock, insertIdx_append]
  rfl

/-- **The first key of a mapping** that is set in opens it. The key is noted when its text is cut,
and the colon behind it makes it one. -/
theorem leads_firstKey (h : KeyText cs) (hind : Inside ind m.column)
    (hrest : isBlankOrEnd rest.head? = true) :
    Leads (inBlock m ts ind none true) (cs ++ ':' :: rest)
      (inBlock (m.after (cs ++ [':']))
        (ts ++ [.blockMappingStart] ++ [.key, .scalar true cs, .value])
        (m.column :: ind) none false) rest := by
  refine (leads_keyText h hind.within hrest).trans (.of_cut (settle_token starts_colon
    (h.fresh m _ _) fun i hi => Nat.le_trans (hind.within i hi) (h.column_le m)) ?_ (by simp))
  rw [cut_colon _ hrest, cutValue_inBlock, openBlock_inside _ _ hind, cutMark, push_inBlock,
    Mark.after_append]
  simp [inBlock]

/-- **A further key of a mapping.** It stands in the column of the mapping, which stays open. -/
theorem leads_key {n : Nat} (h : KeyText cs) (hn : m.column = n) (ts : List Token) (ind : List Nat)
    (hrest : isBlankOrEnd rest.head? = true) :
    Leads (inBlock m ts (n :: ind) none true) (cs ++ ':' :: rest)
      (inBlock (m.after (cs ++ [':']))
        (ts ++ [.key, .scalar true cs, .value]) (n :: ind) none false) rest := by
  subst hn
  have hwithin : Within (m.column :: ind) m.column := fun i hi => by
    rw [List.head?_cons, Option.mem_some_iff] at hi
    exact Nat.le_of_eq hi.symm
  refine (leads_keyText h hwithin hrest).trans
    (.of_cut (settle_token starts_colon (h.fresh m _ _) fun i hi =>
    Nat.le_trans (hwithin i hi) (h.column_le m)) ?_ (by simp))
  rw [cut_colon _ hrest, cutValue_inBlock, openBlock_same, cutMark, push_inBlock, Mark.after_append]
  simp [inBlock]

end Lexer

end CoChange.Yaml
