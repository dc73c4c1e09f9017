import CoChange.Arithmetic
import CoChange.Proofs.Yaml.PlainText

/-!
# Texts behind a bar are read back

* **`takeBlockHeader_hint`**: what stands behind the bar is read back: the indentation, where it is
  given, and what becomes of the line breaks at the end.
* **`takeBlock_indented`**: the lines of a text are read back, up to the line that goes on less far
  in.
-/

namespace CoChange.Yaml

/-! ## The header -/

/-- Whether the indentation has to be given: a text that begins with a space or a line break does
not show it. -/
def hidesIndent (cs : List Char) : Bool := cs.head?.any fun c => c = ' ' || isBreak c

/-- What is to become of the line breaks at the end of a text. -/
def chompingOf (cs : List Char) : Chomping :=
  if cs.getLast?.any isBreak then
    if cs.dropLast.getLast?.any (!isBreak ·) then .clip else .keep
  else .strip

/-- The sign of a header. -/
def Chomping.sign : Chomping → List Char
  | .strip => ['-']
  | .clip => []
  | .keep => ['+']

theorem chompingOf_reverse (cs : List Char) : chompingOf cs.reverse =
    if cs.head?.any isBreak then if cs.tail.head?.any (!isBreak ·) then
      .clip else .keep else .strip := by
  rw [chompingOf, List.getLast?_reverse, List.dropLast_reverse, List.getLast?_reverse]

/-- The hint of a block of text is its indentation, if the first line would hide it, and the sign
for the line feeds at the end. -/
theorem literalHint_eq {cs : List Char} (hcs : cs ≠ []) :
    literalHint cs = (if hidesIndent cs then ['2'] else []) ++ (chompingOf cs).sign := by
  have hchomping := chompingOf_reverse cs.reverse
  rw [List.reverse_reverse] at hchomping
  rw [literalHint.eq_def, hchomping]
  congr 1
  · cases cs with
    | nil => exact absurd rfl hcs
    | cons c cs => rfl
  · cases hrev : cs.reverse with
    | nil => exact absurd (List.reverse_eq_nil_iff.mp hrev) hcs
    | cons c ds =>
      cases ds with
      | nil => cases hc : isBreak c <;> simp [hc, Chomping.sign]
      | cons d ds => cases hc : isBreak c <;> cases hd : isBreak d <;> simp [hc, hd, Chomping.sign]

/-- **The header is read back.** The indentation is given where the first line begins with a blank,
and the sign tells what becomes of the line feeds at the end. -/
theorem takeBlockHeader_hint {cs : List Char} (hcs : cs ≠ []) (rest : List Char) :
    takeBlockHeader (literalHint cs ++ '\n' :: rest) =
      .ok (⟨if hidesIndent cs then some 2 else none, chompingOf cs⟩, '\n' :: rest) := by
  rw [literalHint_eq hcs]
  cases hidesIndent cs <;> cases chompingOf cs <;> rfl

/-! ## Lines -/

/-- All that has been read of a text, the last character first. -/
def Block.total (b : Block) : List Char := b.emptyLines ++ b.lineBreak.toList ++ b.text

section Lines

variable (chomping : Chomping) (least : Nat) {indent column widest limit : Nat} {b : Block}
    {cs : List Char}
  (rest : List Char)

/-- The indentation of a line is skipped. -/
theorem takeBlock_blanks {indent? : Option Nat} {n : Nat} (h : ∀ i ∈ indent?, column + n ≤ i) :
    takeBlock true chomping least b (.start indent? column widest) (blanks n ++ rest) =
      takeBlock true chomping least b (.start indent? (column + n) widest) rest := by
  induction n generalizing column with
  | zero => rfl
  | succ n ih =>
    -- the line is still in the margin
    have hmargin : indent?.all (column < ·) = true := by
      cases indent? with
      | none => rfl
      | some i =>
        have := h i rfl
        simp only [Option.all_some, decide_eq_true_eq]
        omega
    rw [blanks_succ, List.cons_append, takeBlock]
    simp only [hmargin, decide_true, Bool.and_self, if_true]
    rw [ih fun i hi => by have := h i hi; omega]
    congr 2
    omega

/-- A line that begins less far in ends the block. -/
theorem takeBlock_end {rest : List Char} (hresumes : Resumes limit rest) (hlimit : limit ≤ indent)
    (hindent : 0 < indent) :
    takeBlock true chomping least b (.start (some indent) 0 widest) (nextLine limit rest) =
      .ok ⟨b.finish chomping, rest⟩ := by
  rw [nextLine,
    takeBlock_blanks chomping least rest fun i hi => by rw [Option.mem_some_iff] at hi; omega]
  cases rest with
  | nil => rw [takeBlock]
  | cons c rest =>
    have hc := hresumes.starts c rfl
    have hblank := hc.not_blank
    rw [isBlank, Bool.or_eq_false_iff] at hblank
    rw [takeBlock]
    simp only [hblank.1, hblank.2, hc.not_break, Bool.and_false, Bool.false_eq_true, if_false,
      Option.getD_some]
    rw [if_neg (by omega)]

/-- Where the reading of a text stands: at the start of a line, or in a line with content. -/
def LineState (indent : Nat) (atStart : Bool) (b : Block) (state : BlockState) : Prop :=
  if atStart then ∃ widest, state = .start (some indent) 0 widest
  else state = .inside indent ∧ b.lineBreak = none ∧ b.emptyLines = []

theorem start_lineState (indent : Nat) (b : Block) :
    LineState indent true b (.start (some indent) 0 0) := ⟨0, rfl⟩

theorem inside_lineState (indent : Nat) (text : List Char) (setIn : Bool) :
    LineState indent false ⟨text, none, [], setIn⟩ (.inside indent) := ⟨rfl, rfl, rfl⟩

/-- Whether a text ends its line. -/
def endsLine (atStart : Bool) (cs : List Char) : Bool := cs.foldl (fun _ c => isBreak c) atStart

/-- A line break is read. -/
theorem takeBlock_break {atStart : Bool} {state : BlockState} {c : Char}
    (hstate : LineState indent atStart b state)
    (hc : isBreak c = true) : ∃ b' state', LineState indent true b' state' ∧
      b'.total = c :: b.total ∧ (atStart = false → b' = { b with lineBreak := some c }) ∧
      takeBlock true chomping least b state (c :: rest) =
        takeBlock true chomping least b' state' rest := by
  have hspace : c ≠ ' ' := by
    rintro rfl
    exact absurd hc (by decide)
  have htab : c ≠ '\t' := by
    rintro rfl
    exact absurd hc (by decide)
  cases atStart with
  | true =>
    obtain ⟨widest, rfl⟩ := hstate
    -- the line was empty
    refine ⟨{ b with emptyLines := c :: b.emptyLines },
      .start (some indent) 0 (max widest 0), ⟨_, rfl⟩, rfl,
      fun h => absurd h (by decide), ?_⟩
    rw [takeBlock]
    simp only [hspace, htab, decide_false, Bool.and_false, Bool.false_eq_true, if_false, hc,
      if_true]
  | false =>
    obtain ⟨rfl, hbreak, hempty⟩ := hstate
    refine ⟨{ b with lineBreak := some c },
      .start (some indent) 0 0, ⟨_, rfl⟩, ?_, fun _ => rfl, ?_⟩
    · simp [Block.total, hbreak, hempty]
    · rw [takeBlock]
      simp only [hc, if_true]

/-- The first character of a line is read behind the indentation. -/
theorem takeBlock_first {indent? : Option Nat} {c : Char} (hindent? : indent? = some indent ∨
      (indent? = none ∧ widest ≤ indent ∧ least ≤ indent ∧ c ≠ ' ' ∧ c ≠ '\t'))
        (hc : isBreak c = false) :
    takeBlock true chomping least b (.start indent? 0 widest) (blanks indent ++ c :: rest) =
      takeBlock true chomping least ⟨c :: b.total, none, [], isBlank c⟩ (.inside indent) rest := by
  rw [takeBlock_blanks, takeBlock]
  · rcases hindent? with rfl | ⟨rfl, hwidest, hleast, hspace, htab⟩
    · simp [hc, Block.joined, Block.total]
    · have hmax : max (max widest indent) least = indent := by omega
      simp [hc, hspace, htab, hmax, Block.joined, Block.total]
  · rintro i hi
    rcases hindent? with rfl | ⟨rfl, -⟩
    · rw [Option.mem_some_iff] at hi
      omega
    · simp at hi

/-- A character with content is read, behind the indentation where it is the first one of its
line. -/
theorem takeBlock_content {atStart : Bool} {state : BlockState} {c : Char}
    (hstate : LineState indent atStart b state)
    (hc : isBreak c = false) : ∃ b', LineState indent false b' (.inside indent) ∧
      b'.total = c :: b.total ∧
      takeBlock true chomping least b state ((if atStart then blanks indent else []) ++ c :: rest) =
        takeBlock true chomping least b' (.inside indent) rest := by
  cases atStart with
  | true =>
    obtain ⟨widest, rfl⟩ := hstate
    exact ⟨⟨c :: b.total, none, [], isBlank c⟩,
      inside_lineState _ _ _, rfl, takeBlock_first _ _ _ (Or.inl rfl) hc⟩
  | false =>
    obtain ⟨rfl, hbreak, hempty⟩ := hstate
    refine ⟨{ b with text := c :: b.text }, ⟨rfl, hbreak, hempty⟩, ?_, ?_⟩
    · simp [Block.total, hbreak, hempty]
    · rw [if_neg Bool.false_ne_true, List.nil_append, takeBlock]
      simp only [hc, Bool.false_eq_true, if_false]

/-- **The lines of a text are read.** The induction is on the text, with the line that was begun and
the breaks that are pending. -/
theorem takeBlock_indented (cs : List Char) {atStart : Bool} {state : BlockState}
    (hstate : LineState indent atStart b state) :
    ∃ b' state', LineState indent (endsLine atStart cs) b' state' ∧
      b'.total = cs.reverse ++ b.total ∧
      takeBlock true chomping least b state (indented indent atStart cs ++ rest) =
        takeBlock true chomping least b' state' rest := by
  induction cs generalizing b atStart state with
  | nil => exact ⟨b, state, hstate, rfl, rfl⟩
  | cons c cs ih =>
    rw [indented, endsLine, List.foldl_cons, ← endsLine]
    cases hc : isBreak c with
    | true =>
      obtain ⟨b', state', hstate', htotal, -, hread⟩ := takeBlock_break chomping least
        (indented indent true cs ++ rest) hstate hc
      obtain ⟨b'', state'', hstate'', htotal', hread'⟩ := ih hstate'
      refine ⟨b'', state'', hstate'', ?_, ?_⟩
      · rw [htotal', htotal]
        simp
      · rw [if_pos rfl, List.cons_append, hread, hread']
    | false =>
      obtain ⟨b', hstate', htotal, hread⟩ := takeBlock_content chomping least
        (indented indent false cs ++ rest) hstate hc
      obtain ⟨b'', state'', hstate'', htotal', hread'⟩ := ih hstate'
      refine ⟨b'', state'', hstate'', ?_, ?_⟩
      · rw [htotal', htotal]
        simp
      · rw [if_neg Bool.false_ne_true, List.append_assoc, List.cons_append, hread, hread']

/-- The lines of a text are read behind its header. -/
theorem takeBlock_lines (hcs : cs ≠ []) (hprint : ∀ c ∈ cs, isPrintable c = true)
    (hleast : least ≤ indent) :
    ∃ b state, LineState indent (endsLine true cs) b state ∧ b.total = cs.reverse ∧
      takeBlock true chomping least ⟨[], none, [], false⟩
          (.start (if hidesIndent cs then some indent else none) 0 0)
            (indented indent true cs ++ rest) =
        takeBlock true chomping least b state rest := by
  cases hhides : hidesIndent cs with
  | true =>
    obtain ⟨b, state, hstate, htotal, hread⟩ := takeBlock_indented chomping least
      rest cs (start_lineState indent _)
    exact ⟨b, state, hstate, htotal.trans (List.append_nil _), hread⟩
  | false =>
    -- the first character shows the indentation, which holds for all lines
    obtain ⟨c, cs, rfl⟩ := List.exists_cons_of_ne_nil hcs
    rw [hidesIndent, List.head?_cons, Option.any_some, Bool.or_eq_false_iff,
      decide_eq_false_iff_not] at hhides
    have htab : c ≠ '\t' :=
      ne_of_toNat_ne (toNat_ne_of_isPrintable (hprint c List.mem_cons_self)).2.1
    obtain ⟨b, state, hstate, htotal, hread⟩ := takeBlock_indented chomping least
      rest cs (inside_lineState indent [c] (isBlank c))
    refine ⟨b, state, ?_, ?_, ?_⟩
    · rw [endsLine, List.foldl_cons, hhides.2]
      exact hstate
    · rw [htotal, List.reverse_cons]
      rfl
    · rw [indented, hhides.2, if_neg Bool.false_ne_true, if_pos rfl, if_neg Bool.false_ne_true,
        List.append_assoc, List.cons_append,
        takeBlock_first _ _ _ (Or.inr ⟨rfl, Nat.zero_le _, hleast, hhides.1, htab⟩) hhides.2]
      exact hread

theorem endsLine_concat (atStart : Bool) (cs : List Char) (c : Char) :
    endsLine atStart (cs ++ [c]) = isBreak c := by
  rw [endsLine, List.foldl_append]
  rfl

/-- A line feed at the end of an indented text is not indented. -/
theorem indented_concat_break (indent : Nat) (atStart : Bool) (cs : List Char) {c : Char}
    (hc : isBreak c = true) : indented indent atStart (cs ++ [c]) =
      indented indent atStart cs ++ [c] := by
  induction cs generalizing atStart with
  | nil => simp [indented, hc]
  | cons d cs ih =>
    rw [List.cons_append, indented, indented]
    split
    · rw [ih, List.cons_append]
    · rw [ih]
      simp

/-- A text whose last line has content is read with the line break behind it, and what becomes of
that line break is for the header to say. -/
theorem takeBlock_lastLine {c : Char} (hcs : cs ≠ []) (hprint : ∀ c ∈ cs, isPrintable c = true)
    (hline : endsLine true cs = false) (hc : isBreak c = true) (hindent : 0 < indent)
    (hleast : least ≤ indent) {rest : List Char} (hresumes : Resumes limit rest)
    (hlimit : limit ≤ indent) : ∃ setIn,
      takeBlock true chomping least ⟨[], none, [], false⟩
          (.start (if hidesIndent cs then some indent else none) 0 0)
          (indented indent true cs ++ c :: nextLine limit rest) =
        .ok ⟨(Block.mk cs.reverse (some c) [] setIn).finish chomping, rest⟩ := by
  obtain ⟨b, state, hstate, htotal, hread⟩ :=
    takeBlock_lines chomping least (c :: nextLine limit rest) hcs
    hprint hleast
  rw [hline] at hstate
  obtain ⟨b', state', ⟨widest, rfl⟩, -, hb', hread'⟩ :=
    takeBlock_break chomping least (nextLine limit rest)
    hstate hc
  obtain ⟨-, hbreak, hempty⟩ := hstate
  have htext : b.text = cs.reverse := by simpa [Block.total, hbreak, hempty] using htotal
  refine ⟨b.setIn, ?_⟩
  rw [hread, hread', takeBlock_end _ _ hresumes hlimit hindent, hb' rfl, hempty, htext]

/-- **A text is read back from its lines.** Lines are set in by the same number of blanks, and empty
lines by none. -/
theorem takeBlock_literal {rest : List Char} (hcs : cs ≠ [])
    (hprint : ∀ c ∈ cs, isPrintable c = true) (hindent : 0 < indent)
    (hleast : least ≤ indent) (hresumes : Resumes limit rest) (hlimit : limit ≤ indent) :
    takeBlock true (chompingOf cs) least ⟨[], none, [], false⟩
        (.start (if hidesIndent cs then some indent else none) 0 0)
        (indented indent true cs ++
          ((if cs.getLast?.any isBreak then [] else ['\n']) ++ nextLine limit rest)) =
      .ok ⟨cs, rest⟩ := by
  obtain ⟨ds, c, rfl⟩ : ∃ ds c, cs = ds ++ [c] :=
    ⟨cs.dropLast, cs.getLast hcs, (List.dropLast_concat_getLast hcs).symm⟩
  rw [chompingOf, List.getLast?_concat, List.dropLast_concat, Option.any_some]
  cases hc : isBreak c with
  | false =>
    -- the line break behind the text is stripped
    obtain ⟨setIn, hread⟩ :=
      takeBlock_lastLine .strip least hcs hprint ((endsLine_concat true ds c).trans hc)
      (c := '\n') rfl hindent hleast hresumes hlimit
    rw [if_neg Bool.false_ne_true, if_neg Bool.false_ne_true, List.singleton_append, hread,
      Block.finish, List.reverse_reverse]
  | true =>
    rw [if_pos rfl, if_pos rfl, List.nil_append]
    cases hd : ds.getLast?.any (!isBreak ·) with
    | true =>
      -- the only line break at the end is kept
      obtain ⟨es, d, rfl⟩ : ∃ es d, ds = es ++ [d] := by
        refine ⟨ds.dropLast, ds.getLast ?_, (List.dropLast_concat_getLast _).symm⟩
        rintro rfl
        exact absurd hd (by decide)
      rw [List.getLast?_concat, Option.any_some, Bool.not_eq_true'] at hd
      have hhides : hidesIndent (es ++ [d] ++ [c]) = hidesIndent (es ++ [d]) := by
        cases es <;> rfl
      obtain ⟨setIn, hread⟩ := takeBlock_lastLine .clip least (List.concat_ne_nil d es)
        (fun c hc => hprint c (List.mem_append_left _ hc))
          ((endsLine_concat true es d).trans hd) hc hindent hleast
        hresumes hlimit
      rw [if_pos rfl, hhides, indented_concat_break _ _ _ hc, List.append_assoc,
        List.singleton_append, hread, Block.finish, Option.toList_some, List.singleton_append,
        List.reverse_cons, List.reverse_reverse]
    | false =>
      -- all line breaks at the end are kept
      obtain ⟨b, state, hstate, htotal, hread⟩ :=
        takeBlock_lines .keep least (nextLine limit rest) hcs hprint
        hleast
      rw [endsLine_concat, hc] at hstate
      obtain ⟨widest, rfl⟩ := hstate
      rw [if_neg Bool.false_ne_true, hread, takeBlock_end _ _ hresumes hlimit hindent, Block.finish,
        ← Block.total, htotal, List.reverse_reverse]

end Lines

end CoChange.Yaml
