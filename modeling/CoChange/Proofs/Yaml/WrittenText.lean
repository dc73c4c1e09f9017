import CoChange.Arithmetic
import CoChange.Proofs.Yaml.Structure

/-!
# Written documents are cut

* **`printed_block`**: all that is written is printable.
* **`ofText_render`**: a written mapping is cut into the tokens that show its structure, with
  nothing behind them but the mark of its end.
-/

namespace CoChange.Yaml

/-! ## Printable texts -/

def Printed (cs : List Char) : Prop := ∀ c ∈ cs, isPrintable c = true

instance (cs : List Char) : Decidable (Printed cs) :=
  inferInstanceAs (Decidable (∀ c ∈ cs, isPrintable c = true))

section Printed

variable {cs ds : List Char}

theorem Printed.append (h : Printed cs) (h' : Printed ds) : Printed (cs ++ ds) :=
  List.forall_mem_append.mpr ⟨h, h'⟩

theorem Printed.cons {c : Char} (h : isPrintable c = true) (h' : Printed cs) : Printed (c :: cs) :=
  List.forall_mem_cons.mpr ⟨h, h'⟩

theorem printed_nil : Printed [] := fun _ hc => absurd hc List.not_mem_nil

theorem printed_blanks (n : Nat) : Printed (blanks n) := fun _ hc => by
  rw [(List.mem_replicate.mp hc).2]
  decide

/-- The lines of a text behind a bar are printable. -/
theorem printed_indented (n : Nat) (atStart : Bool) (h : Printed cs) :
    Printed (indented n atStart cs) := by
  induction cs generalizing atStart with
  | nil => exact printed_nil
  | cons c cs ih =>
    obtain ⟨hc, hcs⟩ := List.forall_mem_cons.mp h
    rw [indented]
    split
    · exact .cons hc (ih _ hcs)
    · refine .append ?_ (.cons hc (ih _ hcs))
      split
      · exact printed_blanks n
      · exact printed_nil

/-- A text between single quotes is printable. -/
theorem printed_singleQuoted (n : Nat) (afterBreak : Bool) (h : Printed cs) :
    Printed (singleQuoted n afterBreak cs) := by
  induction cs generalizing afterBreak with
  | nil =>
    rw [singleQuoted]
    split
    · exact printed_blanks n
    · exact printed_nil
  | cons c cs ih =>
    obtain ⟨hc, hcs⟩ := List.forall_mem_cons.mp h
    have hblanks : Printed (if afterBreak then blanks n else []) := by
      split
      · exact printed_blanks n
      · exact printed_nil
    have hquote : Printed (if c = '\'' then ['\'', '\''] else [c]) := by
      split
      · exact .cons (by decide) (.cons (by decide) printed_nil)
      · exact .cons hc printed_nil
    rw [singleQuoted]
    split
    · exact .cons hc (ih _ hcs)
    · exact (hblanks.append hquote).append (ih _ hcs)

/-- A digit of a number in base sixteen is printable. -/
theorem isPrintable_of_hexValue? {c : Char} {d : Nat} (h : hexValue? c = some d) :
    isPrintable c = true := by
  have hle : ∀ a b : Char, a ≤ b → a.toNat ≤ b.toNat := fun _ _ h => h
  -- digits and letters of both cases
  have hrange : 0x30 ≤ c.toNat ∧ c.toNat ≤ 0x66 := by
    unfold hexValue? at h
    split at h
    · rename_i hc
      simp only [Char.isDigit, Bool.and_eq_true, decide_eq_true_eq] at hc
      exact ⟨hc.1, Nat.le_trans hc.2 (by decide)⟩
    · split at h
      · rename_i hc
        simp only [Bool.and_eq_true, decide_eq_true_eq] at hc
        exact ⟨Nat.le_trans (by decide) (hle _ _ hc.1), hle _ _ hc.2⟩
      · split at h
        · rename_i hc
          simp only [Bool.and_eq_true, decide_eq_true_eq] at hc
          exact ⟨Nat.le_trans (by decide) (hle _ _ hc.1), Nat.le_trans (hle _ _ hc.2) (by decide)⟩
        · cases h
  rw [isPrintable_iff]
  omega

/-- Hexadecimal digits can be printed. -/
theorem printed_of_hexNumber? {value v : Nat} (h : hexNumber? value ds = some v) : Printed ds := by
  induction ds generalizing value with
  | nil => exact printed_nil
  | cons d ds ih =>
    obtain ⟨digit, hd, hmore⟩ := hexNumber?_cons.mp h
    exact .cons (isPrintable_of_hexValue? hd) (ih hmore)

/-- A character between double quotes is printable as it is written. -/
theorem printed_escape (c : Char) : Printed (escape c) := by
  -- the escapes by number differ only in their width
  have hhex : ∀ (letter : Char) (width : Nat), isPrintable letter = true →
      Printed ('\\' :: letter :: capitalHex width c.toNat) := fun letter width hletter =>
    .cons (by decide) (.cons hletter (printed_of_hexNumber? (hexNumber?_capitalHex width c.toNat)))
  unfold escape
  simp only
  split
  · rename_i hplain
    simp only [Bool.and_eq_true] at hplain
    exact .cons hplain.1.1.1 printed_nil
  · split
    · rename_i letter hletter
      have hall : ∀ p ∈ shortEscapes, isPrintable p.2 = true := by decide
      obtain ⟨before, after, hmem, -⟩ := List.lookup_eq_some_iff.mp hletter
      exact .cons (by decide) (.cons (hall (c.toNat, letter) (by rw [hmem]; simp)) printed_nil)
    · split
      · exact hhex 'x' 2 (by decide)
      · split
        · exact hhex 'u' 4 (by decide)
        · exact hhex 'U' 8 (by decide)

theorem Printed.flatMap {f : Char → List Char} (h : ∀ c, Printed (f c)) (cs : List Char) :
    Printed (cs.flatMap f) := by
  induction cs with
  | nil => exact printed_nil
  | cons c cs ih => exact (h c).append ih

/-- What stands behind a bar is printable. -/
theorem printed_literalHint (h : cs ≠ []) : Printed (literalHint cs) := by
  rw [literalHint_eq h]
  refine .append ?_ ?_
  · cases hidesIndent cs <;> decide
  · cases chompingOf cs <;> decide

/-- **A written text is printable.** The cases are the four styles; only double quotes can hold what
is not printable, and there it is escaped. -/
theorem printed_renderText (n : Nat) (s : String) : Printed (lineEnd (renderText n false s)) := by
  -- a line break is added where the text does not bring its own
  have hline : ∀ {text : List Char × Bool}, Printed text.1 → Printed (lineEnd text) := by
    intro text htext
    rw [lineEnd]
    split
    · exact htext
    · exact htext.append (by decide)
  refine hline ?_
  rcases Lexer.styleOf_cases s with
    ⟨hstyle, hplain, -⟩ | ⟨hstyle, hquotable⟩ | hstyle | ⟨hstyle, hne, hprint⟩
  · simp only [renderText, hstyle]
    exact fun c hc => (hplain.printable c hc).1
  · simp only [renderText, hstyle]
    exact (Printed.cons (by decide) (printed_singleQuoted n false hquotable.printable)).append
      (by decide)
  · simp only [renderText, hstyle]
    exact (Printed.cons (by decide) (.flatMap printed_escape _)).append (by decide)
  · simp only [renderText, hstyle]
    exact (Printed.cons (by decide) (printed_literalHint hne)).append
      (.cons (by decide) (printed_indented n true hprint))

end Printed

/-! ## Printable documents -/

section Documents

open Lexer

variable {n : Nat}

/-- Scalars and empty collections are printable as they are written. -/
theorem printed_flat {v : Json.Value} (hflat : isFlat v = true) (hlegible : v.Legible) :
    Printed (block n (.ofJson v)) := by
  match v with
  | .null => exact (by decide : Printed "null\n".toList)
  | .bool true => exact (by decide : Printed "true\n".toList)
  | .bool false => exact (by decide : Printed "false\n".toList)
  | .number k =>
    have hnumber : Printed (renderNumber k) :=
      fun c hc => ((plain_renderNumber hlegible).printable c hc).1
    exact hnumber.append (by decide)
  | .string s => exact printed_renderText n s
  | .array [] => exact (by decide : Printed "[]\n".toList)
  | .object [] => exact (by decide : Printed "\x7b\x7d\n".toList)

/-- The items of a list are written with characters that can be printed, if each of them is. -/
theorem printed_items {vs : List Json.Value} (hvs : ∀ v ∈ vs, ∀ n, Printed (block n (.ofJson v))) :
    Printed (items n (Value.ofJsonItems vs)) := by
  induction vs with
  | nil => exact printed_nil
  | cons v vs ih =>
    rw [List.forall_mem_cons] at hvs
    rw [Value.ofJsonItems, items]
    exact ((printed_blanks n).append (.cons (by decide) (.cons (by decide) (hvs.1 _)))).append
      (ih hvs.2)

/-- An entry is printable if its value is. -/
theorem printed_entry {name : String} {v : Json.Value} (hname : PlainName name)
    (hv : ∀ n, Printed (block n (.ofJson v))) : Printed (renderKey n (.string name) ++
      separator n (.string name) (.ofJson v) ++
        block (valueIndent n (.string name) (.ofJson v)) (.ofJson v)) := by
  have hkey : Printed name.toList := fun c hc => (hname.key.printable c hc).1
  rw [renderKey_plain hname]
  refine ((hkey.append (by decide)).append ?_).append (hv _)
  rw [separator]
  split
  · exact .cons (by decide) (printed_blanks _)
  · decide

/-- The entries of a map are written with characters that can be printed, if their names are plain
and their values are. -/
theorem printed_entries {members : List (String × Json.Value)}
    (hnames : ∀ e ∈ members, PlainName e.1)
    (hvalues : ∀ e ∈ members, ∀ n, Printed (block n (.ofJson e.2))) :
    Printed (entries n (Value.ofJsonMembers members)) := by
  induction members with
  | nil => exact printed_nil
  | cons e members ih =>
    obtain ⟨name, v⟩ := e
    rw [List.forall_mem_cons] at hnames hvalues
    have hentry := (printed_blanks n).append (printed_entry (n := n) hnames.1 hvalues.1)
    rw [Value.ofJsonMembers, entries, List.append_assoc (blanks n), List.append_assoc (blanks n)]
    exact hentry.append (ih hnames.2 hvalues.2)

/-- **All that is written is printable.** The induction is on the document. -/
theorem printed_block (v : Json.Value) (hlegible : v.Legible) (n : Nat) :
    Printed (block n (.ofJson v)) := by
  induction v using blockInduction generalizing n with
  | flat v hflat => exact printed_flat hflat hlegible
  | sequence v vs ih =>
    have hvs : ∀ w ∈ v :: vs, ∀ n, Printed (block n (.ofJson w)) := fun w hw =>
      ih w hw (Json.Value.legibleItems_iff.mp hlegible w hw)
    rw [List.forall_mem_cons] at hvs
    rw [Value.ofJson, Value.ofJsonItems, block]
    exact (Printed.cons (by decide) (.cons (by decide) (hvs.1 _))).append (printed_items hvs.2)
  | mapping e members ih =>
    obtain ⟨name, v⟩ := e
    have hmembers := Json.Value.legibleMembers_iff.mp hlegible
    have hvalues : ∀ e ∈ (name, v) :: members, ∀ n, Printed (block n (.ofJson e.2)) := fun e he =>
      ih e he (hmembers e he).2
    rw [List.forall_mem_cons] at hmembers hvalues
    rw [Value.ofJson, Value.ofJsonMembers, block]
    exact (printed_entry hmembers.1.1 hvalues.1).append
      (printed_entries (fun e he => (hmembers.2 e he).1) hvalues.2)

/-! ## Whole texts -/

theorem isAllowed_of_isPrintable {c : Char} (h : isPrintable c = true) : isAllowed c = true := by
  rw [isPrintable_iff] at h
  simp only [isAllowed, Bool.or_eq_true, Bool.and_eq_true, decide_eq_true_eq]
  omega

/-- A printable text is left as it is. -/
theorem Printed.unifyBreaks {cs : List Char} (h : Printed cs) : unifyBreaks cs = cs := by
  induction cs using Yaml.unifyBreaks.induct with
  | case1 rest => exact absurd (h '\r' List.mem_cons_self) (by decide)
  | case2 c rest hne ih =>
    obtain ⟨hc, hrest⟩ := List.forall_mem_cons.mp h
    obtain ⟨-, -, hreturn, hnext, -⟩ := toNat_ne_of_isPrintable hc
    have hkept : ¬ ((decide (c = '\r') || decide (c.toNat = 0x85)) = true) := by
      simp only [Bool.or_eq_true, decide_eq_true_eq, not_or]
      exact ⟨ne_of_toNat_ne hreturn, hnext⟩
    rw [Yaml.unifyBreaks, if_neg hkept, ih hrest]
    exact hne
  | case3 => rfl

/-- The mark of the end of a document, where one is written. -/
def endMark (isOpen : Bool) : List Char := if isOpen then "...\n".toList else []

def endTokens (isOpen : Bool) : List Token := if isOpen then [.documentEnd] else []

/-- A document may end where its end mark stands. -/
theorem resumes_endMark (isOpen : Bool) : Resumes 0 (endMark isOpen) := by
  cases isOpen with
  | false => exact ⟨fun c hc => by simp [endMark] at hc, fun _ => Or.inl rfl⟩
  | true =>
    refine ⟨fun c hc => ?_, fun _ => Or.inr rfl⟩
    obtain rfl : '.' = c := Option.some.inj hc
    exact ⟨rfl, rfl, by decide, by decide⟩

/-- A document ends with its text or with the mark of its end. -/
theorem leads_end {m : Mark} (hm : m.column = 0) (ts : List Token) (isOpen : Bool) :
    ∃ m', Leads (inBlock m ts [] none true)
      (endMark isOpen) (inBlock m' (ts ++ endTokens isOpen) [] none true) [] := by
  cases isOpen with
  | false =>
    refine ⟨m, ?_⟩
    rw [endTokens, if_neg Bool.false_ne_true, List.append_nil]
    exact .refl _ _
  | true =>
    obtain ⟨index, line, column⟩ := m
    obtain rfl : column = 0 := hm
    have hsettle := settle_free ⟨index, line, 0⟩ ts [] true (resumes_endMark true).starts
    rw [closeBlocks_within fun j hj => by simp at hj] at hsettle
    have hborder := Leads.of_cut hsettle (cut_border index line) (by decide)
    rw [List.map_nil, List.append_nil] at hborder
    exact ⟨_, hborder.trans (leads_newline (fun k hk => by simp at hk) [])⟩

/-- The text of a mapping. -/
theorem toList_render {v : Value} (hnested : isNested v = true) :
    v.render.toList = block 0 v ++ endMark (endsOpen false v) := by
  rw [Value.render, String.toList_ofList, hnested, if_pos rfl, endMark]

/-- A text that is cut to its end gives the tokens that are reached there. -/
theorem run_of_leads {l : Lexer} {cs : List Char} {m : Mark} {ts : List Token}
    (h : Leads l cs (inBlock m ts [] none true) []) : run cs.length l cs = .ok ts.toArray := by
  obtain ⟨fuel, -, hrun⟩ := h _ (Nat.le_refl _)
  have hsettle : (inBlock m ts [] none true).settle [] = _ :=
    settle_free m ts [] true (fun c hc => by simp at hc)
  rw [closeBlocks_within fun j hj => by simp at hj] at hsettle
  rw [hrun, run_of_settle_nil hsettle, finish_inBlock, List.map_nil, List.append_nil]

/-- **A written mapping is cut into its tokens.** What opens a stream and what ends it is added
around the tokens of the mapping. -/
theorem ofText_render {name : String} {v : Json.Value} {members : List (String × Json.Value)}
    (hlegible : (Json.Value.object ((name, v) :: members)).Legible) :
    Token.ofText (Value.ofJson (.object ((name, v) :: members))).render =
      .ok (valueTokens false (.object ((name, v) :: members)) ++
        endTokens (endsOpen false (.ofJson (.object ((name, v) :: members))))) := by
  have hmembers := Json.Value.legibleMembers_iff.mp hlegible
  have htext := toList_render (v := .ofJson (.object ((name, v) :: members))) rfl
  generalize endsOpen false (.ofJson (.object ((name, v) :: members))) = isOpen at htext ⊢
  have hprinted : Printed (Value.ofJson (.object ((name, v) :: members))).render.toList := by
    rw [htext]
    refine (printed_block _ hlegible 0).append ?_
    cases isOpen <;> decide
  have hall : (Value.ofJson (.object ((name, v) :: members))).render.toList.all isAllowed = true :=
    List.all_eq_true.mpr fun c hc => isAllowed_of_isPrintable (hprinted c hc)
  obtain ⟨m, hm, hleads⟩ : ReachesLine
    start _ ([] ++ valueTokens false (.object ((name, v) :: members))) [] _ :=
    leads_mapping (fun e he => (hmembers e he).1) (fun e he => (cuts e.2 (hmembers e he).2).2) rfl
      (fun i hi => by simp at hi) (fun _ => rfl) (resumes_endMark isOpen) (Nat.le_refl 0) false
  obtain ⟨m', hend⟩ :=
    leads_end hm ([] ++ valueTokens false (.object ((name, v) :: members))) isOpen
  have hrun := run_of_leads (hleads.trans hend)
  rw [Token.ofText]
  simp only [hall, if_true, hprinted.unifyBreaks]
  rw [htext]
  exact congrArg (· >>= fun tokens => pure tokens.toList) hrun

end Documents

end CoChange.Yaml
