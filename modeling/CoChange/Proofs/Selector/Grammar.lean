import CoChange.Proofs.Selector.Split
import CoChange.Proofs.Text.Joined
import CoChange.Selector.Parser

/-!
# The grammar of queries

What a query may look like, as relations between what is meant and the text that says so:

    selector    ::=  ("rfilter" | "filter") "(" all ("||" all)* ")"
    all         ::=  condition ("&&" condition)*
    condition   ::=  ".roles" "has" value  |  field ("==" | "!=") value
    field       ::=  ".type" | ".token" | ".id" | ".props." key
    value       ::=  '"' anything but a double quote '"'

with blanks between the tokens, and no line feed between the parentheses. The paths, which are
tokens, have none.

* `Field.Written`, `Condition.Written`, `Selector.Written`: the writings of each.
* **`Condition.Written.encloses`**: the signs of the separators stand in a condition inside its
  quotes only.
* **`Selector.exists_written_iff`**: which selectors can be written at all.
-/

namespace CoChange

open Text QueryParser

variable {α : Type} {R : α → List Char → Prop} {a : α} {as : List α} {cs separator : List Char}
    {mark : Char}

/-! ## Names and fields -/

/-- What a key may start with: the letters of ASCII and the underscore. -/
def KeyStart (c : Char) : Prop := ('A' ≤ c ∧ c ≤ 'Z') ∨ ('a' ≤ c ∧ c ≤ 'z') ∨ c = '_'

/-- What a key may go on with: these, the digits and the hyphen. -/
def KeyRest (c : Char) : Prop := KeyStart c ∨ ('0' ≤ c ∧ c ≤ '9') ∨ c = '-'

instance : DecidablePred KeyStart := fun _ => inferInstanceAs (Decidable (_ ∨ _ ∨ _))

instance : DecidablePred KeyRest := fun _ => inferInstanceAs (Decidable (_ ∨ _ ∨ _))

/-- What may stand as the key of a property. -/
def IsKey (cs : List Char) : Prop := ∃ c rest, cs = c :: rest ∧ KeyStart c ∧ ∀ d ∈ rest, KeyRest d

/-- The writings of a field. -/
inductive Field.Written : Field → List Char → Prop where
  | kind : Written .kind ".type".toList
  | token : Written .token ".token".toList
  | id : Written .id ".id".toList
  | prop {key : String} (h : IsKey key.toList) :
      Written (.prop key) (".props.".toList ++ key.toList)

theorem IsKey.forall_mem (h : IsKey cs) : ∀ c ∈ cs, KeyRest c := by
  obtain ⟨c, rest, rfl, hc, hrest⟩ := h
  exact List.forall_mem_cons.mpr ⟨.inl hc, hrest⟩

/-- The characters of a field path. -/
def IsPathChar (c : Char) : Prop := KeyRest c ∨ c = '.'

instance : DecidablePred IsPathChar := fun _ => inferInstanceAs (Decidable (_ ∨ _))

/-- The characters of names lie in a small range, so what holds of them can be decided. -/
theorem KeyRest.toNat_mem {c : Char} (h : KeyRest c) : 45 ≤ c.toNat ∧ c.toNat ≤ 122 := by
  simp only [KeyRest, KeyStart, Char.le_def, UInt32.le_iff_toNat_le] at h
  change ((65 ≤ c.toNat ∧ c.toNat ≤ 90) ∨ (97 ≤ c.toNat ∧ c.toNat ≤ 122) ∨ c = '_') ∨
    (48 ≤ c.toNat ∧ c.toNat ≤ 57) ∨ c = '-' at h
  rcases h with (h | h | rfl) | h | rfl
  · omega
  · omega
  · decide
  · omega
  · decide

/-- No path holds a blank. -/
theorem IsPathChar.not_blank {c : Char} (h : IsPathChar c) : isBlank c = false := by
  rcases h with h | rfl
  · have hrange := h.toNat_mem
    exact isBlank_of_toNat (by omega)
  · rfl

/-- Neither a quote nor a sign of a separator. -/
def Plain (c : Char) : Prop := c ≠ '"' ∧ c ≠ '&' ∧ c ≠ '|'

instance (c : Char) : Decidable (Plain c) := inferInstanceAs (Decidable (_ ∧ _))

theorem plain_of_isBlank {c : Char} (h : isBlank c = true) : Plain c := by
  refine ⟨?_, ?_, ?_⟩ <;> rintro rfl <;> exact absurd h (by decide)

theorem IsPathChar.plain {c : Char} (h : IsPathChar c) : Plain c := by
  refine ⟨?_, ?_, ?_⟩ <;> rintro rfl <;> exact absurd h (by decide)

/-- In plain text no separator stands outside quotes. -/
theorem encloses_of_plain (hmark : mark = '&' ∨ mark = '|') (h : ∀ c ∈ cs, Plain c) :
    Encloses mark false cs :=
  encloses_of_free fun c hc => ⟨(h c hc).1, hmark.elim (· ▸ (h c hc).2.1) (· ▸ (h c hc).2.2)⟩

/-- Nor does one among blanks. -/
theorem encloses_of_blank (hmark : mark = '&' ∨ mark = '|') (h : Blank cs) :
    Encloses mark false cs :=
  encloses_of_plain hmark fun c hc => plain_of_isBlank (h c hc)

/-- A written field has only characters of paths. -/
theorem Field.Written.isPathChar {f : Field} (h : f.Written cs) : ∀ c ∈ cs, IsPathChar c := by
  cases h with
  | kind => decide
  | token => decide
  | id => decide
  | prop hkey =>
    refine List.forall_mem_append.mpr ⟨by decide, fun c hc => .inl (hkey.forall_mem c hc)⟩

/-- A written field is as it is when it is trimmed. -/
theorem Field.Written.tight {f : Field} (h : f.Written cs) : trim cs = cs :=
  trim_of_ends (fun c hc => (h.isPathChar c (List.mem_of_mem_head? hc)).not_blank)
    fun c hc => (h.isPathChar c (List.mem_of_mem_getLast? hc)).not_blank

/-- It begins with a point. -/
theorem Field.Written.exists_name {f : Field} (h : f.Written cs) : ∃ name, cs = '.' :: name := by
  cases h <;> exact ⟨_, rfl⟩

/-! ## Conditions -/

/-- The word of an operator. -/
def QueryParser.Operator.word : Operator → List Char
  | .has => "has".toList
  | .equal => "==".toList
  | .notEqual => "!=".toList

/-- A text in double quotes. -/
def quote (value : List Char) : List Char := '"' :: (value ++ ['"'])

namespace Condition

/-- How a condition compares. -/
def operator : Condition → Operator
  | .hasRole _ => .has
  | .compare _ .equal _ => .equal
  | .compare _ .notEqual _ => .notEqual

/-- What a condition compares with. -/
def value : Condition → String
  | .hasRole role => role
  | .compare _ _ value => value

/-- The writings of what a condition is about: the roles of a node, or a field. -/
def Subject : Condition → List Char → Prop
  | .hasRole _, path => path = ".roles".toList
  | .compare field _ _, path => field.Written path

/-- The writings of a condition, without blanks around. -/
def Written (c : Condition) (cs : List Char) : Prop :=
  ∃ path gap gap', c.Subject path ∧ Blank gap ∧ Blank gap' ∧ '"' ∉ c.value.toList ∧
    cs = path ++ gap ++ c.operator.word ++ gap' ++ quote c.value.toList

variable {c : Condition} {path : List Char}

/-- What a condition is about is written with the characters of paths. -/
theorem Subject.isPathChar (h : c.Subject path) : ∀ d ∈ path, IsPathChar d := by
  cases c with
  | hasRole role => rw [show path = ".roles".toList from h]; decide
  | compare field comparison value => exact Field.Written.isPathChar h

theorem Subject.exists_name (h : c.Subject path) : ∃ name, path = '.' :: name := by
  cases c with
  | hasRole role => exact ⟨"roles".toList, h⟩
  | compare field comparison value => exact Field.Written.exists_name h

/-- A written condition begins with a point and ends with a quote. -/
theorem Written.exists_mid (h : c.Written cs) : ∃ mid, cs = '.' :: mid ++ ['"'] := by
  obtain ⟨path, gap, gap', hpath, -, -, -, rfl⟩ := h
  obtain ⟨name, rfl⟩ := hpath.exists_name
  exact ⟨name ++ gap ++ c.operator.word ++ gap' ++ '"' :: c.value.toList, by simp [quote]⟩

/-- A written condition neither begins nor ends with a blank. -/
theorem Written.tight (h : c.Written cs) : trim cs = cs := by
  obtain ⟨mid, rfl⟩ := h.exists_mid
  refine trim_of_ends (fun d hd => ?_) fun d hd => ?_
  · exact Option.some.inj hd ▸ rfl
  · rw [List.getLast?_concat, Option.mem_some] at hd
    exact hd ▸ rfl

/-- So it is not blank. -/
theorem Written.solid (h : c.Written cs) : ¬ Blank cs := by
  obtain ⟨mid, rfl⟩ := h.exists_mid
  exact fun hblank => absurd (hblank '.' List.mem_cons_self) (by decide)

/-- The signs of the separators stand inside the quotes of a condition only. -/
theorem Written.encloses (hmark : mark = '&' ∨ mark = '|') (h : c.Written cs) :
    Encloses mark false cs := by
  obtain ⟨path, gap, gap', hpath, hgap, hgap', hvalue, rfl⟩ := h
  -- only the value may hold signs, and it stands in quotes
  have hsubject : Encloses mark false path :=
    encloses_of_plain hmark fun d hd => (hpath.isPathChar d hd).plain
  have hword : Encloses mark false c.operator.word :=
    encloses_of_plain hmark (by cases c.operator <;> decide)
  exact (((hsubject.append (encloses_of_blank hmark hgap)).append hword).append
    (encloses_of_blank hmark hgap')).append (encloses_quoted hvalue)

end Condition

theorem loose_condition : Loose (Padded Condition.Written) :=
  .padded (fun _ _ => Condition.Written.tight) fun _ _ => Condition.Written.solid

/-! ## Selectors -/

namespace Selector

/-- The word that a selector starts with. -/
def keyword (recursive : Bool) : List Char :=
  if recursive then "rfilter".toList else "filter".toList

/-- The writings of a conjunction. -/
def AllWritten : List Condition → List Char → Prop := Joined ['&', '&'] (Padded Condition.Written)

/-- The writings of a disjunction of conjunctions. -/
def AnyWritten : List (List Condition) → List Char → Prop := Joined ['|', '|'] AllWritten

/-- The writings of a selector, without blanks around. -/
def Bare (s : Selector) (cs : List Char) : Prop :=
  ∃ gap body, Blank gap ∧ '\n' ∉ body ∧ AnyWritten s.alternatives body ∧
    cs = keyword s.recursive ++ gap ++ '(' :: (body ++ [')'])

/-- The writings of a selector. -/
def Written : Selector → List Char → Prop := Padded Bare

/-- A selector without blanks around it neither begins nor ends with one. -/
theorem Bare.tight {s : Selector} (h : s.Bare cs) : trim cs = cs := by
  obtain ⟨gap, body, -, -, -, rfl⟩ := h
  refine trim_of_ends (fun c hc => ?_) fun c hc => ?_
  · obtain ⟨recursive, alternatives⟩ := s
    cases recursive <;> exact Option.some.inj hc ▸ rfl
  · rw [← List.cons_append, ← List.append_assoc, List.getLast?_concat, Option.mem_some] at hc
    exact hc ▸ rfl

theorem loose_all : Loose AllWritten := loose_condition.joined

theorem loose_any : Loose AnyWritten := loose_all.joined

end Selector

/-! ## The signs of the separators -/

/-- Blanks around a part change nothing about which quotes are open in it. -/
theorem Padded.encloses (hmark : mark = '&' ∨ mark = '|')
    (henc : ∀ a cs, R a cs → Encloses mark false cs) (h : Padded R a cs) :
    Encloses mark false cs := by
  obtain ⟨left, mid, right, hleft, hright, hmid, rfl⟩ := h
  exact ((encloses_of_blank hmark hleft).append (henc a mid hmid)).append
    (encloses_of_blank hmark hright)

/-- What is joined of parts that leave no quote open leaves none open either. -/
theorem Joined.encloses (hsep : Encloses mark false separator)
    (henc : ∀ a cs, R a cs → Encloses mark false cs) (h : Joined separator R as cs) :
    Encloses mark false cs := by
  induction h with
  | single ha => exact henc _ _ ha
  | more ha hrest ih => exact ((henc _ _ ha).append hsep).append ih

/-- The sign of a conjunction stands inside the quotes of a condition only. -/
theorem encloses_condition (c : Condition) (cs : List Char) (h : Padded Condition.Written c cs) :
    Encloses '&' false cs :=
  h.encloses (.inl rfl) fun _ _ => Condition.Written.encloses (.inl rfl)

/-- The sign of a disjunction stands inside the quotes of a conjunction only. -/
theorem encloses_all (all : List Condition) (cs : List Char) (h : Selector.AllWritten all cs) :
    Encloses '|' false cs :=
  h.encloses (encloses_of_free (by decide)) fun _ _ hc =>
    hc.encloses (.inr rfl) fun _ _ => Condition.Written.encloses (.inr rfl)

/-! ## What can be written -/

/-- Texts that may be the value of a condition. -/
def Quotable (value : String) : Prop := '"' ∉ value.toList ∧ '\n' ∉ value.toList

/-- Fields that have a writing: all but properties under a key that no query can name. -/
def Field.Expressible : Field → Prop
  | .prop key => IsKey key.toList
  | _ => True

def Condition.Expressible : Condition → Prop
  | .hasRole role => Quotable role
  | .compare field _ value => field.Expressible ∧ Quotable value

/-- Selectors that have a writing: no disjunction and no conjunction in them is empty. -/
def Selector.Expressible (s : Selector) : Prop :=
  s.alternatives ≠ [] ∧ ∀ all ∈ s.alternatives, all ≠ [] ∧ ∀ c ∈ all, c.Expressible

/-- A field can be written exactly if it has a name or a key that the grammar allows. -/
theorem Field.exists_written_iff (f : Field) : (∃ cs, f.Written cs) ↔ f.Expressible := by
  constructor
  · rintro ⟨cs, h⟩
    cases h with
    | prop hkey => exact hkey
    | _ => trivial
  · intro h
    cases f with
    | kind => exact ⟨_, .kind⟩
    | token => exact ⟨_, .token⟩
    | id => exact ⟨_, .id⟩
    | prop key => exact ⟨_, .prop h⟩

/-- A condition can be written if what it is about can and its value can be quoted. -/
theorem Condition.expressible_iff (c : Condition) :
    c.Expressible ↔ (∃ path, c.Subject path) ∧ Quotable c.value := by
  cases c with
  | hasRole role => exact ⟨fun h => ⟨⟨_, rfl⟩, h⟩, fun h => h.2⟩
  | compare field comparison value => exact and_congr_left fun _ => (field.exists_written_iff).symm

/-- A condition can be written on one line exactly if its field can and its value has neither a
quote nor a line feed. -/
theorem Condition.exists_written_iff (c : Condition) : (∃ cs, c.Written cs ∧ '\n' ∉ cs) ↔
    c.Expressible := by
  rw [c.expressible_iff]
  constructor
  · rintro ⟨_, ⟨path, gap, gap', hpath, -, -, hquote, rfl⟩, hfree⟩
    refine ⟨⟨path, hpath⟩, hquote, fun hmem => hfree ?_⟩
    exact List.mem_append_right _ (List.mem_cons_of_mem _ (List.mem_append_left _ hmem))
  · rintro ⟨⟨path, hpath⟩, hquote, hfeed⟩
    refine ⟨_, ⟨path, [], [], hpath, blank_nil, blank_nil, hquote, rfl⟩, fun hmem => ?_⟩
    simp only [List.append_nil, List.mem_append, quote, List.mem_cons, List.not_mem_nil,
      or_false] at hmem
    -- a line feed can stand in the value only
    rcases hmem with (hmem | hmem) | hmem | hmem | hmem
    · exact absurd (hpath.isPathChar _ hmem) (by decide)
    · revert hmem
      cases c.operator <;> decide
    · exact absurd hmem (by decide)
    · exact hfeed hmem
    · exact absurd hmem (by decide)

/-- **A selector can be written when it is a disjunction of one or more conjunctions of one or more
conditions, with keys that are names and values without double quotes and line feeds.** -/
theorem Selector.exists_written_iff (s : Selector) : (∃ cs, s.Written cs) ↔ s.Expressible := by
  constructor
  · rintro ⟨_, _, _, _, -, -, ⟨gap, body, -, hfeed, hbody, rfl⟩, -⟩
    refine ⟨hbody.ne_nil, fun all hall => ?_⟩
    obtain ⟨clause, hclause, hsub⟩ := hbody.exists_part all hall
    refine ⟨hclause.ne_nil, fun c hc => ?_⟩
    obtain ⟨_, ⟨left, mid, right, -, -, hmid, rfl⟩, hsub'⟩ := hclause.exists_part c hc
    refine (c.exists_written_iff).mp ⟨mid, hmid, fun hmem => hfeed (hsub (hsub' ?_))⟩
    exact List.mem_append_left _ (List.mem_append_right _ hmem)
  · rintro ⟨hne, halternatives⟩
    -- from the conditions outwards, each part is written without line feeds and without further
    -- blanks
    have hatom : ∀ c : Condition, c.Expressible →
        ∃ cs, Padded Condition.Written c cs ∧ '\n' ∉ cs := by
      intro c hc
      obtain ⟨cs, hcs, hfree⟩ := (c.exists_written_iff).mpr hc
      exact ⟨cs, ⟨[], cs, [], blank_nil, blank_nil, hcs, by simp⟩, hfree⟩
    have hclause : ∀ all ∈ s.alternatives, ∃ cs, AllWritten all cs ∧ '\n' ∉ cs := fun all hall =>
      exists_joined (by decide) (halternatives all hall).1 fun c hc =>
        hatom c ((halternatives all hall).2 c hc)
    have hany : ∃ cs, AnyWritten s.alternatives cs ∧ '\n' ∉ cs :=
      exists_joined (by decide) hne hclause
    obtain ⟨body, hbody, hfree⟩ := hany
    exact ⟨_, [], _, [], blank_nil, blank_nil, ⟨[], body, blank_nil, hfree, hbody, rfl⟩, rfl⟩

end CoChange
