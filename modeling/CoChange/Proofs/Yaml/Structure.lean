import CoChange.Arithmetic
import CoChange.Proofs.Yaml.NumberText
import CoChange.Proofs.Yaml.ScalarTokens

/-!
# Documents are cut

A document whose numbers are legible and whose names are plain keys (`Json.Value.Legible`) is cut
into the tokens that show its structure (`valueTokens`).

* **`leads_items`**, **`leads_entries`**: the lines of a collection are cut, if its values are.
* **`cuts`**: every value is cut, behind the dash of an item and behind the colon of an entry; by
  recursion on the value.
* **`leads_mapping`**: a mapping is cut where it stands, up to the line that goes on less far in.
-/

namespace CoChange

namespace Yaml

/-! ## Legible documents -/

/-- A name that is written as it is, in front of its colon. -/
structure PlainName (name : String) : Prop where
  key : Lexer.KeyText name.toList
  simple : isSimpleKey (.string name) = true
  plain : styleOf true name = .plain

instance (name : String) : Decidable (PlainName name) :=
  decidable_of_iff (Lexer.KeyText name.toList ∧
    isSimpleKey (.string name) = true ∧ styleOf true name = .plain)
    ⟨fun ⟨hkey, hsimple, hplain⟩ => ⟨hkey, hsimple, hplain⟩,
      fun ⟨hkey, hsimple, hplain⟩ => ⟨hkey, hsimple, hplain⟩⟩

end Yaml

namespace Json.Value

mutual

/-- All numbers of a document are legible, and all names in it are plain keys. -/
def Legible : Value → Prop
  | .number n => n.Legible
  | .array items => LegibleItems items
  | .object members => LegibleMembers members
  | _ => True

def LegibleItems : List Value → Prop
  | [] => True
  | v :: rest => v.Legible ∧ LegibleItems rest

def LegibleMembers : List (String × Value) → Prop
  | [] => True
  | (name, v) :: rest => Yaml.PlainName name ∧ v.Legible ∧ LegibleMembers rest

end

theorem legibleItems_iff {items : List Value} :
    LegibleItems items ↔ ∀ v ∈ items, v.Legible := by
  induction items with
  | nil => exact ⟨fun _ _ h => absurd h List.not_mem_nil, fun _ => trivial⟩
  | cons v items ih => rw [LegibleItems, ih, List.forall_mem_cons]

theorem legibleMembers_iff {members : List (String × Value)} :
    LegibleMembers members ↔ ∀ e ∈ members, Yaml.PlainName e.1 ∧ e.2.Legible := by
  induction members with
  | nil => exact ⟨fun _ _ h => absurd h List.not_mem_nil, fun _ => trivial⟩
  | cons e members ih => rw [LegibleMembers, ih, List.forall_mem_cons, and_assoc]

mutual

/-- The floating point numbers of a document. -/
def floats : Value → List Binary64
  | .number n => n.floats
  | .array items => floatsItems items
  | .object members => floatsMembers members
  | _ => []

def floatsItems : List Value → List Binary64
  | [] => []
  | v :: rest => v.floats ++ floatsItems rest

def floatsMembers : List (String × Value) → List Binary64
  | [] => []
  | (_, v) :: rest => v.floats ++ floatsMembers rest

end

theorem mem_floatsItems {items : List Value} {x : Binary64} :
    x ∈ floatsItems items ↔ ∃ v ∈ items, x ∈ v.floats := by
  induction items with
  | nil => simp [floatsItems]
  | cons v items ih => rw [floatsItems, List.mem_append, ih, List.exists_mem_cons_iff]

theorem mem_floatsMembers {members : List (String × Value)} {x : Binary64} :
    x ∈ floatsMembers members ↔ ∃ e ∈ members, x ∈ e.2.floats := by
  induction members with
  | nil => simp [floatsMembers]
  | cons e members ih => rw [floatsMembers, List.mem_append, ih, List.exists_mem_cons_iff]

/-- A legible document is read back from JSON, too, if its floating point numbers are rounded
back. -/
theorem Legible.readable {reader : FloatReader} (v : Value) (h : v.Legible)
    (hreads : ∀ x ∈ v.floats, reader.ReadsBack x) : v.Readable reader := by
  induction v using nestedInduction with
  | null => trivial
  | bool _ => trivial
  | number _ => exact Number.Legible.readable h hreads
  | string _ => trivial
  | array items ih =>
    exact readableItems_iff.mpr fun w hw => ih w hw (legibleItems_iff.mp h w hw) fun x hx =>
      hreads x (mem_floatsItems.mpr ⟨w, hw, hx⟩)
  | object members ih =>
    exact readableMembers_iff.mpr fun e he => ih e he (legibleMembers_iff.mp h e he).2 fun x hx =>
      hreads x (mem_floatsMembers.mpr ⟨e, he, hx⟩)

end Json.Value

namespace Yaml

mutual

/-- The tokens of a document. A sequence right below its key is not set in: only its dashes show
it. -/
def valueTokens (belowKey : Bool) : Json.Value → List Token
  | .null => [.scalar true "null".toList]
  | .bool b => [.scalar true (if b then "true".toList else "false".toList)]
  | .number n => [.scalar true (renderNumber n)]
  | .string s => [.scalar (styleOf false s = .plain) s.toList]
  | .array [] => [.flowSequenceStart, .flowSequenceEnd]
  | .object [] => [.flowMappingStart, .flowMappingEnd]
  | .array items => if belowKey then
      itemTokens items else .blockSequenceStart :: itemTokens items ++ [.blockEnd]
  | .object members => .blockMappingStart :: entryTokens members ++ [.blockEnd]

def itemTokens : List Json.Value → List Token
  | [] => []
  | v :: rest => .blockEntry :: valueTokens false v ++ itemTokens rest

def entryTokens : List (String × Json.Value) → List Token
  | [] => []
  | (name, v) :: rest => .key :: .scalar true name.toList :: .value :: valueTokens true v ++
      entryTokens rest

end

namespace Lexer

/-! ## Scalars -/

section Scalar

variable {m : Mark} {ts : List Token} {ind : List Nat} {allowed : Bool} {rest : List Char}
    {i limit : Nat}

/-- What is written as one token, or as two brackets. -/
def isFlat (v : Json.Value) : Bool := !isNested (.ofJson v)

/-- What is true of all that is flat, and of sequences and mappings whenever it is true of what
stands in them, is true of all documents. -/
@[elab_as_elim]
theorem blockInduction {motive : Json.Value → Prop} (flat : ∀ v, isFlat v = true → motive v)
    (sequence : ∀ v vs, (∀ w ∈ v :: vs, motive w) → motive (.array (v :: vs)))
    (mapping : ∀ e members, (∀ f ∈ e :: members, motive f.2) → motive (.object (e :: members)))
    (v : Json.Value) :
    motive v := by
  induction v using Json.Value.nestedInduction with
  | null => exact flat _ rfl
  | bool _ => exact flat _ rfl
  | number _ => exact flat _ rfl
  | string _ => exact flat _ rfl
  | array items ih =>
    cases items with
    | nil => exact flat _ rfl
    | cons v vs => exact sequence v vs ih
  | object members ih =>
    cases members with
    | nil => exact flat _ rfl
    | cons e members => exact mapping e members ih

theorem plain_words : Plain "null".toList ∧ Plain "true".toList ∧ Plain "false".toList := by
  decide

theorem starts_bracket : Starts '[' ∧ Starts ']' ∧ Starts '\x7b' ∧ Starts '\x7d' := by
  refine ⟨?_, ?_, ?_, ?_⟩ <;> exact ⟨rfl, rfl, by decide, by decide⟩

/-- **A scalar or an empty collection is cut.** It takes up its own lines and nothing of what
follows. -/
theorem leads_flat {v : Json.Value} (hflat : isFlat v = true) (hlegible : v.Legible)
    (belowKey : Bool)
    (hcolumn : i < m.column) (hresumes : Resumes limit rest) (hlimit : limit ≤ i + 1) :
    ReachesLine (inBlock m ts (i :: ind) none allowed)
      (block (i + 2) (.ofJson v) ++ nextLine limit rest)
      (ts ++ valueTokens belowKey v) (i :: ind) (nextLine limit rest) := by
  -- all but texts and brackets are plain
  have hplain : ∀ {cs : List Char}, Plain cs → block (i + 2) (.ofJson v) = cs ++ ['\n'] →
      valueTokens belowKey v = [.scalar true cs] →
        ReachesLine (inBlock m ts (i :: ind) none allowed)
          (block (i + 2) (.ofJson v) ++ nextLine limit rest)
          (ts ++ valueTokens belowKey v) (i :: ind) (nextLine limit rest) := by
    intro cs hcs htext htokens
    rw [htext, htokens, List.append_assoc]
    exact ⟨_, column_after_newline m cs, leads_plain hcs hcolumn hresumes hlimit⟩
  match v with
  | .null => exact hplain plain_words.1 rfl rfl
  | .bool true => exact hplain plain_words.2.1 rfl rfl
  | .bool false => exact hplain plain_words.2.2 rfl rfl
  | .number n => exact hplain (plain_renderNumber hlegible) rfl rfl
  | .string s => exact leads_text s hcolumn hresumes hlimit
  | .array [] =>
    exact ⟨_, column_after_newline m ['[', ']'], leads_brackets starts_bracket.1 starts_bracket.2.1
      (fun l rest => (cut_brackets l rest).1) (fun l rest => (cut_brackets l rest).2.1) hcolumn _⟩
  | .object [] =>
    exact ⟨_, column_after_newline m ['\x7b', '\x7d'],
      leads_brackets starts_bracket.2.2.1 starts_bracket.2.2.2
      (fun l rest => (cut_brackets l rest).2.2.1)
        (fun l rest => (cut_brackets l rest).2.2.2) hcolumn _⟩

end Scalar

/-! ## Collections -/

/-- A document is cut behind the dash of an item. -/
def CutsAsItem (v : Json.Value) : Prop :=
  ∀ {n limit : Nat} {m : Mark} {rest : List Char}
    (ts : List Token) (ind : List Nat), m.column = n + 2 →
    Resumes limit rest → limit ≤ n + 1 →
    ReachesLine (inBlock m ts (n :: ind) none true)
      (block (n + 2) (.ofJson v) ++ nextLine limit rest)
      (ts ++ valueTokens false v) (n :: ind) (nextLine limit rest)

/-- A document is cut behind the colon of an entry. -/
def CutsAsEntry (v : Json.Value) : Prop :=
  ∀ {n limit : Nat} {m : Mark} {k : Key} {rest : List Char} (ts : List Token) (ind : List Nat),
    isSimpleKey k = true → n < m.column → Resumes limit rest → limit ≤ n + 1 →
    ReachesLine (inBlock m ts (n :: ind) none false)
      (separator n k (.ofJson v) ++
        (block (valueIndent n k (.ofJson v)) (.ofJson v) ++ nextLine limit rest))
      (ts ++ valueTokens true v) (n :: ind) (nextLine limit rest)

section Collection

variable {m : Mark} {ts : List Token} {ind : List Nat} {rest : List Char} {n limit : Nat}

/-- Behind an item, the sequence or what is around it goes on. -/
theorem items_resumes (vs : List Value) (hresumes : Resumes limit rest) (hlimit : limit ≤ n + 1) :
    ∃ limit' rest', items n vs ++ nextLine limit rest = nextLine limit' rest' ∧
      Resumes limit' rest' ∧
      limit' ≤ n + 1 := by
  cases vs with
  | nil => exact ⟨limit, rest, rfl, hresumes, hlimit⟩
  | cons v vs =>
    refine ⟨n + 1, '-' :: ' ' :: (block (n + 2) v ++ items n vs ++ nextLine limit rest),
      ?_, ⟨?_, ?_⟩, Nat.le_refl _⟩
    · simp [items, nextLine]
    · exact fun c hc => by
        rw [List.head?_cons, Option.mem_some_iff] at hc
        exact hc ▸ starts_dash
    · exact fun h => absurd h (Nat.succ_ne_zero n)

theorem append_itemTokens (ts : List Token) (v : Json.Value) (vs : List Json.Value) :
    ts ++ itemTokens (v :: vs) = ts ++ [.blockEntry] ++ valueTokens false v ++ itemTokens vs := by
  simp [itemTokens]

/-- **The items of a sequence are cut**, from behind the dash of the first one on. The induction is
on the items; in front of each there is a dash in the column of the sequence. -/
theorem leads_items {v : Json.Value} {vs : List Json.Value} (hvs : ∀ w ∈ v :: vs, CutsAsItem w)
    (hm : m.column = n + 2) (hresumes : Resumes limit rest) (hlimit : limit ≤ n + 1) :
    ReachesLine (inBlock m (ts ++ [.blockEntry]) (n :: ind) none true)
      (block (n + 2) (.ofJson v) ++ (items n (Value.ofJsonItems vs) ++ nextLine limit rest))
      (ts ++ itemTokens (v :: vs)) (n :: ind) (nextLine limit rest) := by
  rw [append_itemTokens]
  induction vs generalizing v m ts with
  | nil =>
    rw [itemTokens, List.append_nil]
    exact hvs v List.mem_cons_self _ ind hm hresumes hlimit
  | cons w ws ih =>
    rw [List.forall_mem_cons] at hvs
    -- an item ends where the next one begins
    obtain ⟨limit', rest', htext, hresumes', hlimit'⟩ :=
      items_resumes (Value.ofJsonItems (w :: ws)) hresumes hlimit
    rw [htext]
    refine (hvs.1 _ ind hm hresumes' hlimit').trans fun m' hm' => ?_
    have hlines : nextLine limit' rest' = blanks n ++ ('-' :: ' ' :: (block (n + 2) (.ofJson w) ++
        (items n (Value.ofJsonItems ws) ++ nextLine limit rest))) := by
      rw [← htext]
      simp [Value.ofJsonItems, items]
    have hcolumn : (m'.after (blanks n)).column = n := by rw [Mark.after_blanks, hm', Nat.zero_add]
    have hbehind : (((m'.after (blanks n)).past '-').past ' ').column = n + 2 :=
      congrArg (· + 2) hcolumn
    rw [hlines, append_itemTokens]
    exact .of_leads (leads_blanks n _) (.of_leads (leads_item hcolumn _ ind _) (ih hvs.2 hbehind))

theorem block_array (v : Json.Value) (vs : List Json.Value) (after : List Char) :
    block n (.ofJson (.array (v :: vs))) ++ after =
      '-' :: ' ' :: (block (n + 2) (.ofJson v) ++ (items n (Value.ofJsonItems vs) ++ after)) := by
  simp [Value.ofJson, Value.ofJsonItems, block]

/-- **A sequence is cut** where it stands set in. The first dash opens it, and it is closed in front
of the next line, which stands further out. -/
theorem leads_sequence {v : Json.Value} {vs : List Json.Value} (hvs : ∀ w ∈ v :: vs, CutsAsItem w)
    (hm : m.column = n) (hind : Inside ind n) (houter : n = 0 → ind = [])
    (hresumes : Resumes limit rest) (hlimit : limit ≤ n) :
    ReachesLine (inBlock m ts ind none true)
      (block n (.ofJson (.array (v :: vs))) ++ nextLine limit rest)
      (ts ++ valueTokens false (.array (v :: vs))) ind (nextLine limit rest) := by
  subst hm
  have htokens : ts ++ valueTokens false (.array (v :: vs)) =
      ts ++ [.blockSequenceStart] ++ itemTokens (v :: vs) ++ [.blockEnd] := by
    simp [valueTokens]
  rw [block_array, htokens]
  refine .of_leads (leads_firstItem hind _) ?_
  refine (leads_items hvs rfl hresumes (Nat.le_succ_of_le hlimit)).trans fun m' hm' => ?_
  exact ⟨m', hm', leads_close hm' hresumes hlimit houter⟩

/-- **A sequence is cut** that stands right below its key. It is not set in and has no closing token
of its own: the first line that is no item ends it. -/
theorem leads_dashes {v : Json.Value} {vs : List Json.Value} (hvs : ∀ w ∈ v :: vs, CutsAsItem w)
    (hm : m.column = n) (hresumes : Resumes limit rest) (hlimit : limit ≤ n + 1) :
    ReachesLine (inBlock m ts (n :: ind) none true)
      (block n (.ofJson (.array (v :: vs))) ++ nextLine limit rest)
      (ts ++ valueTokens true (.array (v :: vs))) (n :: ind) (nextLine limit rest) := by
  subst hm
  rw [block_array]
  exact .of_leads (leads_item rfl ts ind _) (leads_items hvs rfl hresumes hlimit)

end Collection

/-! ## Mappings -/

section Mapping

variable {m : Mark} {ts : List Token} {ind : List Nat} {rest : List Char} {n limit : Nat}

/-- A name is written in front of its colon. -/
theorem renderKey_plain {name : String} (h : PlainName name) (n : Nat) :
    renderKey n (.string name) = name.toList ++ [':'] := by
  simp [renderKey, h.simple, renderText, h.plain]

/-- Behind an entry, the mapping or what is around it goes on. -/
theorem entries_resumes {members : List (String × Json.Value)}
    (hnames : ∀ e ∈ members, PlainName e.1)
    (hresumes : Resumes limit rest) (hlimit : limit ≤ n + 1) :
    ∃ limit' rest', entries n (Value.ofJsonMembers members) ++ nextLine limit rest =
      nextLine limit' rest' ∧
      Resumes limit' rest' ∧ limit' ≤ n + 1 := by
  cases members with
  | nil => exact ⟨limit, rest, rfl, hresumes, hlimit⟩
  | cons e members =>
    obtain ⟨name, v⟩ := e
    have hname := hnames _ List.mem_cons_self
    obtain ⟨c, cs, hcs⟩ := List.exists_cons_of_ne_nil hname.key.ne
    refine ⟨n + 1, name.toList ++ ':' :: (separator n (.string name) (.ofJson v) ++
      (block (valueIndent n (.string name) (.ofJson v)) (.ofJson v) ++
        (entries n (Value.ofJsonMembers members) ++ nextLine limit rest))),
          ?_, ⟨?_, ?_⟩, Nat.le_refl _⟩
    · rw [Value.ofJsonMembers, entries, renderKey_plain hname]
      simp [nextLine]
    · intro d hd
      rw [hcs, List.cons_append, List.head?_cons, Option.mem_some_iff] at hd
      exact hd ▸ (Plain.first (hcs ▸ hname.key.toPlain)).1
    · exact fun h => absurd h (Nat.succ_ne_zero n)

/-- What follows a key on its line. -/
theorem isBlankOrEnd_separator (k : Key) (v : Value) (after : List Char) :
    isBlankOrEnd (separator n k v ++ after).head? = true := by
  rw [separator]
  split <;> rfl

/-- The text of a mapping behind the colon of its first key. -/
def behindColon (n : Nat) (name : String) (v : Json.Value) (members : List (String × Json.Value))
    (after : List Char) : List Char :=
  separator n (.string name) (.ofJson v) ++
    (block (valueIndent n (.string name) (.ofJson v)) (.ofJson v) ++
    (entries n (Value.ofJsonMembers members) ++ after))

theorem append_entryTokens (ts : List Token) (name : String) (v : Json.Value)
    (members : List (String × Json.Value)) : ts ++ entryTokens ((name, v) :: members) =
      ts ++ [.key, .scalar true name.toList, .value] ++
        valueTokens true v ++ entryTokens members := by
  simp [entryTokens]

/-- **The entries of a mapping are cut**, from behind the colon of the first one on. The induction
is on the entries; in front of each there is a key in the column of the mapping. -/
theorem leads_entries {name : String} {v : Json.Value} {members : List (String × Json.Value)}
    (hnames : ∀ e ∈ (name, v) :: members, PlainName e.1)
    (hvalues : ∀ e ∈ (name, v) :: members, CutsAsEntry e.2) (hm : n < m.column)
    (hresumes : Resumes limit rest) (hlimit : limit ≤ n + 1) :
    ReachesLine (inBlock m (ts ++ [.key, .scalar true name.toList, .value]) (n :: ind) none false)
      (behindColon n name v members (nextLine limit rest))
        (ts ++ entryTokens ((name, v) :: members)) (n :: ind)
      (nextLine limit rest) := by
  rw [append_entryTokens]
  induction members generalizing name v m ts with
  | nil =>
    rw [entryTokens, List.append_nil, behindColon]
    exact hvalues _ List.mem_cons_self _ ind (hnames _ List.mem_cons_self).simple hm hresumes hlimit
  | cons e members ih =>
    obtain ⟨name', v'⟩ := e
    rw [List.forall_mem_cons] at hnames hvalues
    have hname' := hnames.2 _ List.mem_cons_self
    -- an entry ends where the next one begins
    obtain ⟨limit', rest', htext, hresumes', hlimit'⟩ := entries_resumes hnames.2 hresumes hlimit
    rw [behindColon, htext]
    refine (hvalues.1 _ ind hnames.1.simple hm hresumes' hlimit').trans fun m' hm' => ?_
    have hlines : nextLine limit' rest' =
        blanks n ++
          (name'.toList ++ ':' :: behindColon n name' v' members (nextLine limit rest)) := by
      rw [← htext, Value.ofJsonMembers, entries, renderKey_plain hname', behindColon]
      simp
    have hcolumn : (m'.after (blanks n)).column = n := by rw [Mark.after_blanks, hm', Nat.zero_add]
    have hbehind : n < ((m'.after (blanks n)).after (name'.toList ++ [':'])).column :=
      Nat.lt_of_le_of_lt (Nat.le_of_eq hcolumn.symm) (hname'.key.column_lt _)
    rw [hlines, append_entryTokens]
    exact .of_leads (leads_blanks n _)
      (.of_leads (leads_key hname'.key hcolumn _ ind (isBlankOrEnd_separator ..))
      (ih hnames.2 hvalues.2 hbehind))

theorem block_object {name : String} (h : PlainName name) (v : Json.Value)
    (members : List (String × Json.Value))
    (after : List Char) : block n (.ofJson (.object ((name, v) :: members))) ++ after =
      name.toList ++ ':' :: behindColon n name v members after := by
  simp [Value.ofJson, Value.ofJsonMembers, block, renderKey_plain h, behindColon]

/-- **A mapping is cut** where it stands set in. The first key opens it, and it is closed in front
of the next line, which stands further out. -/
theorem leads_mapping {name : String} {v : Json.Value} {members : List (String × Json.Value)}
    (hnames : ∀ e ∈ (name, v) :: members, PlainName e.1)
    (hvalues : ∀ e ∈ (name, v) :: members, CutsAsEntry e.2) (hm : m.column = n)
    (hind : Inside ind n) (houter : n = 0 → ind = []) (hresumes : Resumes limit rest)
    (hlimit : limit ≤ n) (belowKey : Bool) :
    ReachesLine (inBlock m ts ind none true) (block n (.ofJson (.object ((name, v) :: members))) ++
      nextLine limit rest) (ts ++ valueTokens belowKey (.object ((name, v) :: members))) ind
      (nextLine limit rest) := by
  subst hm
  have hname := hnames _ List.mem_cons_self
  have htokens : ts ++ valueTokens belowKey (.object ((name, v) :: members)) =
      ts ++ [.blockMappingStart] ++ entryTokens ((name, v) :: members) ++ [.blockEnd] := by
    simp [valueTokens]
  rw [block_object hname, htokens]
  refine .of_leads (leads_firstKey hname.key hind (isBlankOrEnd_separator ..)) ?_
  refine (leads_entries hnames hvalues
    (hname.key.column_lt m) hresumes (Nat.le_succ_of_le hlimit)).trans
    fun m' hm' => ?_
  exact ⟨m', hm', leads_close hm' hresumes hlimit houter⟩

end Mapping

/-! ## Documents -/

/-- Scalars and empty collections are cut. -/
theorem cuts_flat {v : Json.Value} (hflat : isFlat v = true) (hlegible : v.Legible) :
    CutsAsItem v ∧ CutsAsEntry v := by
  have hnested : isNested (.ofJson v) = false := by
    rwa [isFlat, Bool.not_eq_true'] at hflat
  refine ⟨fun ts ind hm hresumes hlimit =>
    leads_flat hflat hlegible false (by omega) hresumes hlimit, ?_⟩
  intro n limit m k rest ts ind hk hm hresumes hlimit
  have hindent : valueIndent n k (.ofJson v) = n + 2 := by
    unfold valueIndent
    split
    · rename_i heq
      rw [heq] at hnested
      exact absurd hnested Bool.noConfusion
    · rfl
  -- behind a colon there is only a space
  have hseparator : separator n k (.ofJson v) = [' '] := by
    rw [separator, hnested, Bool.and_false, if_neg Bool.false_ne_true]
  rw [hseparator, hindent]
  exact .of_leads (.of_settle settle_space (Nat.le_succ _))
    (leads_flat hflat hlegible true (Nat.lt_succ_of_lt hm) hresumes hlimit)

/-- Between a colon and a collection, the line is ended and the next one is set in. -/
theorem leads_separator {n : Nat} {k : Key} {v : Value} {m : Mark} {ts : List Token}
    {ind : List Nat} (hk : isSimpleKey k = true) (hnested : isNested v = true) (after : List Char) :
    Leads (inBlock m ts ind none false) (separator n k v ++ after)
      (inBlock ((m.past '\n').after (blanks (valueIndent n k v))) ts ind none true) after := by
  rw [separator, hk, hnested, Bool.and_self, if_pos rfl]
  exact (leads_newline (fun k hk => by simp at hk) _).trans (leads_blanks _ _)

/-- **Every document is cut**, as an item and as the value of an entry. The induction is on the
document, with the items and entries in it. -/
theorem cuts (v : Json.Value) (hlegible : v.Legible) : CutsAsItem v ∧ CutsAsEntry v := by
  induction v using blockInduction with
  | flat v hflat => exact cuts_flat hflat hlegible
  | sequence v vs ih =>
    have hvs : ∀ w ∈ v :: vs, CutsAsItem w := fun w hw =>
      (ih w hw (Json.Value.legibleItems_iff.mp hlegible w hw)).1
    refine ⟨fun {n limit m rest} ts ind hm hresumes hlimit => ?_,
      fun {n limit m k rest} ts ind hk hm hresumes hlimit => ?_⟩
    · have hinside : Inside (n :: ind) (n + 2) := fun i hi => by
        rw [List.head?_cons, Option.mem_some_iff] at hi
        omega
      exact leads_sequence hvs hm hinside (fun h => absurd h (Nat.succ_ne_zero _)) hresumes
        (Nat.le_succ_of_le hlimit)
    · -- below a simple key a sequence is not set in
      have hindent : valueIndent n k (.ofJson (.array (v :: vs))) = n := if_pos hk
      refine .of_leads (leads_separator hk rfl _) ?_
      rw [hindent]
      exact leads_dashes hvs (by simp) hresumes hlimit
  | mapping e members ih =>
    obtain ⟨name, v⟩ := e
    have hnames : ∀ e ∈ (name, v) :: members, PlainName e.1 := fun e he =>
      (Json.Value.legibleMembers_iff.mp hlegible e he).1
    have hvalues : ∀ e ∈ (name, v) :: members, CutsAsEntry e.2 := fun e he =>
      (ih e he (Json.Value.legibleMembers_iff.mp hlegible e he).2).2
    refine ⟨fun ts ind hm hresumes hlimit => ?_,
      fun {n limit m k rest} ts ind hk hm hresumes hlimit => ?_⟩
    · exact leads_mapping hnames hvalues hm (fun i hi => by simp at hi; omega)
        (fun h => absurd h (Nat.succ_ne_zero _)) hresumes (Nat.le_succ_of_le hlimit) false
    · refine .of_leads (leads_separator hk rfl _) ?_
      exact leads_mapping hnames hvalues (by simp; rfl) (fun i hi => by simp at hi; omega)
        (fun h => absurd h (Nat.succ_ne_zero _)) hresumes (Nat.le_succ_of_le hlimit) true

end Lexer

end Yaml

end CoChange
