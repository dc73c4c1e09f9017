import CoChange.Proofs.SortedMap
import CoChange.Proofs.Text
import CoChange.Toml.Parser

/-!
# Documents are tidy

No table of a document that has been read has a key twice, at whatever depth it stands. A document
in the making may well have one key twice; a table has each key once as soon as it is finished. So
all that has to be kept while a document is put together is that the values in it are tidy
(`Item.Tidy`).

* **`parse_tidy`**: what has been read is tidy.
* **`Value.HasAt.unique`**: in a tidy value, one value stands at a path.
-/

namespace CoChange.Toml

/-- All tables that stand in tables only have a property. -/
inductive Value.Throughout (P : Entries → Prop) : Value → Prop where
  | table {entries : Entries} (own : P entries) (inner : ∀ e ∈ entries, e.2.Throughout P) :
    Throughout P (.table entries)
  | plain {v : Value} (h : v.isTable = false) : Throughout P v

def Value.Tidy : Value → Prop := Value.Throughout fun entries => (entries.map (·.1)).Nodup

/-- A value has another one at a path of keys. -/
inductive Value.HasAt : Value → List String → Value → Prop where
  | here {v : Value} : HasAt v [] v
  | under {entries : Entries} {key : String}
      {v w : Value} {path : List String} (h : (key, v) ∈ entries)
    (inner : v.HasAt path w) : HasAt (.table entries) (key :: path) w

namespace Value

/-- Values are tables of values, or else no tables. -/
@[elab_as_elim]
theorem tableInduction {motive : Value → Prop}
    (table : ∀ entries : Entries, (∀ e ∈ entries, motive e.2) → motive (.table entries))
    (plain : ∀ v, v.isTable = false → motive v) (v : Value) : motive v := by
  match v with
  | .table entries => exact table entries fun e he => tableInduction table plain e.2
  | .string _ => exact plain _ rfl
  | .integer _ => exact plain _ rfl
  | .float _ => exact plain _ rfl
  | .boolean _ => exact plain _ rfl
  | .datetime _ => exact plain _ rfl
  | .array _ => exact plain _ rfl
termination_by v
decreasing_by
  have hmem := List.sizeOf_lt_of_mem he
  obtain ⟨key, w⟩ := e
  simp only [Prod.mk.sizeOf_spec, Value.table.sizeOf_spec] at hmem ⊢
  omega

variable {P : Entries → Prop} {entries : Entries} {v w w' : Value} {path : List String}
    {key : String}

/-- What holds throughout a table holds of its entries, and throughout each of their values. -/
theorem throughout_table_iff :
    Throughout P (.table entries) ↔ P entries ∧ ∀ e ∈ entries, e.2.Throughout P := by
  constructor
  · intro h
    cases h with
    | table own inner => exact ⟨own, inner⟩
    | plain h => exact nomatch h
  · exact fun ⟨own, inner⟩ => .table own inner

/-- What holds of all keys of a document holds of those on the path to a value in it. -/
theorem HasAt.forall_key {p : String → Prop} (h : v.HasAt path w)
    (hv : v.Throughout fun entries => ∀ e ∈ entries, p e.1) : ∀ k ∈ path, p k := by
  induction h with
  | here => exact List.forall_mem_nil _
  | under hmem _ ih =>
    obtain ⟨hown, hinner⟩ := throughout_table_iff.mp hv
    exact List.forall_mem_cons.mpr ⟨hown _ hmem, ih (hinner _ hmem)⟩

/-- What stands at a path goes on to what stands below. -/
theorem HasAt.concat (h : v.HasAt path (.table entries)) (hmem : (key, w) ∈ entries) :
    v.HasAt (path ++ [key]) w := by
  induction path generalizing v with
  | nil =>
    cases h
    exact .under hmem .here
  | cons k path ih =>
    cases h with
    | under h inner => exact .under h (ih inner)

/-- Below what is no table stands nothing. -/
theorem HasAt.of_plain (h : v.HasAt path w) (hv : v.isTable = false) : path = [] ∧ v = w := by
  cases h with
  | here => exact ⟨rfl, rfl⟩
  | under => exact nomatch hv

/-- **One value stands at a path.** The induction is on the path, and in a tidy table each key leads
to one value. -/
theorem HasAt.unique (hv : v.Tidy) (h : v.HasAt path w) (h' : v.HasAt path w') : w = w' := by
  induction h with
  | here =>
    cases h'
    rfl
  | under hmem _ ih =>
    obtain ⟨hnodup, hinner⟩ := throughout_table_iff.mp hv
    cases h' with
    | under hmem' inner' =>
      obtain ⟨⟩ := List.inj_on_of_nodup_map hnodup hmem hmem' rfl
      exact ih (hinner _ hmem) inner'

end Value

/-! ## Documents in the making -/

/-- All values in an item are tidy. -/
inductive Item.Tidy : Item → Prop where
  | value {v : Value} (h : v.Tidy) : Tidy (.value v)
  | table {origin : Origin} {entries : Items} (h : ∀ e ∈ entries, e.2.Tidy) :
      Tidy (.table origin entries)
  | tables {elements : List Items} (h : ∀ entries ∈ elements, ∀ e ∈ entries, e.2.Tidy) :
      Tidy (.tables elements)

theorem Item.finishEntries_eq (items : Items) :
    Item.finishEntries items = items.map fun e => (e.1, e.2.finish) := by
  induction items with
  | nil => rfl
  | cons e rest ih => rw [Item.finishEntries, ih, List.map_cons]

/-- What a table has when it is finished. -/
def Items.finish (items : Items) : Entries := (SortedMap.ofList (Item.finishEntries items)).toList

def Items.Tidy (items : Items) : Prop := ∀ e ∈ items, e.2.Tidy

variable {items items' : Items} {item : Item} {key : String} {path : List String}
    {origin own : Origin} {v : Value}

theorem Items.nodup_finish (items : Items) : (items.finish.map (·.1)).Nodup :=
  SortedMap.nodup_keys _

/-- Each entry of a finished table comes from an item under the same key. -/
theorem Items.mem_of_mem_finish {e : String × Value} (h : e ∈ items.finish) :
    ∃ item, (e.1, item) ∈ items ∧ item.finish = e.2 := by
  have hget := SortedMap.get?_of_mem_toList h
  rcases SortedMap.get?_foldl_insert_cases hget with hmem | hmem
  · rw [Item.finishEntries_eq] at hmem
    obtain ⟨⟨key, item⟩, hitem, he⟩ := List.mem_map.mp hmem
    obtain ⟨rfl, hfinish⟩ := Prod.mk.inj he
    exact ⟨item, hitem, hfinish⟩
  · exact nomatch hmem

/-- **A table has each key once when it is finished.** Of several items with one key the last one is
kept. -/
theorem Items.tidy_finish (h : ∀ e ∈ items, e.2.finish.Tidy) : (Value.table items.finish).Tidy := by
  refine .table items.nodup_finish fun e he => ?_
  obtain ⟨item, hitem, hfinish⟩ := Items.mem_of_mem_finish he
  exact hfinish ▸ h _ hitem

theorem Item.Tidy.finish (h : item.Tidy) : item.finish.Tidy := by
  induction h with
  | value h => exact h
  | table _ ih => exact Items.tidy_finish ih
  | tables => exact .plain rfl

namespace Items

theorem tidy_nil : Items.Tidy [] := fun _ he => nomatch he

theorem Tidy.put (h : items.Tidy) (hitem : item.Tidy) : (items.put key item).Tidy :=
  List.forall_mem_cons.mpr ⟨hitem, fun e he => h e (List.mem_of_mem_filter he)⟩

theorem Tidy.lookup (h : items.Tidy) (hitem : items.lookup key = some item) : item.Tidy := by
  obtain ⟨before, after, rfl, -⟩ := List.lookup_eq_some_iff.mp hitem
  exact h (key, item) (List.mem_append_right _ List.mem_cons_self)

/-- **A change of a table somewhere in a document keeps it tidy** if it keeps that table tidy. The
induction is on the path; tables on the way keep their keys. -/
theorem Tidy.changeAt {change : Origin → Items → Option Items}
    (hchange : ∀ own items items', Items.Tidy items →
      change own items = some items' → Items.Tidy items')
    (h : items.Tidy) (hitems : items.changeAt origin change own path = some items') :
      items'.Tidy := by
  induction path generalizing own items items' with
  | nil => exact hchange own items items' h hitems
  | cons key path ih =>
    -- the path leads on through a new table, through one that is there, or through the last one of
    -- an array
    rw [Items.changeAt] at hitems
    cases hfound : items.lookup key with
    | none =>
      simp only [hfound, Option.bind_eq_bind, Option.bind_eq_some_iff] at hitems
      obtain ⟨inner, hinner, ⟨⟩⟩ := hitems
      exact h.put (.table (ih tidy_nil hinner))
    | some item =>
      have hitem := h.lookup hfound
      cases hitem with
      | value => simp [hfound] at hitems
      | table hentries =>
        simp only [hfound, Option.bind_eq_bind, Option.ite_none_left_eq_some,
          Option.bind_eq_some_iff] at hitems
        obtain ⟨-, inner, hinner, ⟨⟩⟩ := hitems
        exact h.put (.table (ih hentries hinner))
      | tables helements =>
        rename_i elements
        cases elements with
        | nil => simp [hfound] at hitems
        | cons last rest =>
          simp only [hfound, Option.bind_eq_bind, Option.bind_eq_some_iff] at hitems
          obtain ⟨inner, hinner, ⟨⟩⟩ := hitems
          obtain ⟨hlast, hrest⟩ := List.forall_mem_cons.mp helements
          exact h.put (.tables (List.forall_mem_cons.mpr ⟨ih hlast hinner, hrest⟩))

/-- Tidy items stay so when a tidy value is added under a path, as an addition under a key that is
taken fails. -/
theorem Tidy.addValue (h : items.Tidy) (hv : v.Tidy)
    (hitems : items.addValue path key v = some items') :
    items'.Tidy := by
  refine h.changeAt (fun own entries entries' hentries hchange => ?_) hitems
  simp only [Option.ite_none_left_eq_some, Option.some.injEq] at hchange
  obtain ⟨-, -, rfl⟩ := hchange
  exact hentries.put (.value hv)

end Items

/-- Tidy items stay so when values are added one by one, since an addition under a key that is taken
fails. -/
theorem Items.Tidy.addValues {entries : List (List String × String × Value)}
    (hentries : ∀ e ∈ entries, e.2.2.Tidy) (h : Items.Tidy items)
    (hitems : entries.foldlM (fun items (path, key, v) => Items.addValue path key v items) items =
      some items') :
    Items.Tidy items' := by
  induction entries generalizing items with
  | nil => exact Option.some.inj hitems ▸ h
  | cons e rest ih =>
    obtain ⟨he, hrest⟩ := List.forall_mem_cons.mp hentries
    rw [List.foldlM_cons] at hitems
    obtain ⟨next, hnext, hitems⟩ := Option.bind_eq_some_iff.mp hitems
    exact ih hrest (h.addValue he hnext) hitems

/-- A table between braces is tidy if the values in it are. -/
theorem tidy_tableOf {entries : List (List String × String × Value)} (h : ∀ e ∈ entries, e.2.2.Tidy)
    (hv : tableOf entries = some v) : v.Tidy := by
  obtain ⟨items, hitems, ⟨⟩⟩ := Option.bind_eq_some_iff.mp hv
  exact Item.Tidy.finish (.table (Items.tidy_nil.addValues h hitems))

namespace Draft

variable {d d' : Draft}

/-- All values of a document in the making are tidy. -/
structure Tidy (d : Draft) : Prop where
  root : d.root.Tidy
  current : d.current.Tidy

theorem tidy_empty : Draft.empty.Tidy := ⟨Items.tidy_nil, Items.tidy_nil⟩

/-- Where the current table is put back under its path, the whole is tidy. It is a new entry, an
element of an array, or the table that was there already. -/
theorem Tidy.settle (h : d.Tidy) (hroot : d.settle = some items) : items.Tidy := by
  rw [Draft.settle] at hroot
  split at hroot
  · exact Option.some.inj hroot ▸ h.current
  · rename_i key _
    refine h.root.changeAt (fun own entries entries' hentries hchange => ?_) hroot
    -- the current table becomes an element of an array, or the table under its key
    split at hchange
    · split at hchange
      · rename_i elements hfound
        obtain rfl := Option.some.inj hchange
        cases hentries.lookup hfound with
        | tables helements =>
          exact hentries.put (.tables (List.forall_mem_cons.mpr ⟨h.current, helements⟩))
      · obtain rfl := Option.some.inj hchange
        exact hentries.put (.tables (List.forall_mem_singleton.mpr h.current))
      · exact nomatch hchange
    · obtain rfl := Option.some.inj hchange
      exact hentries.put (.table h.current)

/-- What is found at the place of a table header is tidy, since the whole is. -/
theorem tidy_lookupIn (h : items.Tidy) (hitem : startTable.lookupIn items path key = some item) :
    item.Tidy := by
  induction path generalizing items with
  | nil => exact h.lookup hitem
  | cons k path ih =>
    rw [startTable.lookupIn] at hitem
    split at hitem
    · rename_i hfound
      cases h.lookup hfound with
      | table hentries => exact ih hentries hitem
    · rename_i hfound
      cases h.lookup hfound with
      | tables helements => exact ih (helements _ List.mem_cons_self) hitem
    · exact nomatch hitem

/-- A table that a header defines may have been there already, with tables inside it. -/
theorem Tidy.startTable (h : d.Tidy) (hd : d.startTable path = some d') : d'.Tidy := by
  obtain ⟨root, hroot, hd⟩ := Option.bind_eq_some_iff.mp hd
  obtain ⟨key, hkey, hd⟩ := Option.bind_eq_some_iff.mp hd
  obtain ⟨root', hroot', hd⟩ := Option.bind_eq_some_iff.mp hd
  have hroot := h.settle hroot
  -- what stood under the key goes out, and may come back as the current table
  have hroot' : root'.Tidy := hroot.changeAt (fun own entries entries' hentries hchange => by
    obtain rfl := Option.some.inj hchange
    exact fun e he => hentries e (List.mem_of_mem_filter he)) hroot'
  split at hd
  · obtain rfl := Option.some.inj hd
    exact ⟨hroot', Items.tidy_nil⟩
  · rename_i hfound
    obtain rfl := Option.some.inj hd
    cases tidy_lookupIn hroot hfound with
    | table hentries => exact ⟨hroot', hentries⟩
  · exact nomatch hd

/-- To start an element of an array of tables keeps a draft tidy. -/
theorem Tidy.startElement (h : d.Tidy) (hd : d.startElement path = some d') : d'.Tidy := by
  obtain ⟨root, hroot, hd⟩ := Option.bind_eq_some_iff.mp hd
  obtain ⟨key, hkey, hd⟩ := Option.bind_eq_some_iff.mp hd
  obtain ⟨root', hroot', ⟨⟩⟩ := Option.bind_eq_some_iff.mp hd
  refine ⟨(h.settle hroot).changeAt (fun own entries entries' hentries hchange => ?_) hroot',
    Items.tidy_nil⟩
  split at hchange
  · exact Option.some.inj hchange ▸ hentries
  · exact Option.some.inj hchange ▸ hentries
  · exact nomatch hchange

theorem Tidy.addValue (h : d.Tidy) (hv : v.Tidy) (hd : d.addValue path key v = some d') :
    d'.Tidy := by
  obtain ⟨current, hcurrent, ⟨⟩⟩ := Option.bind_eq_some_iff.mp hd
  exact ⟨h.root, h.current.addValue hv hcurrent⟩

theorem Tidy.finish {entries : Entries} (h : d.Tidy) (hentries : d.finish = some entries) :
    (Value.table entries).Tidy := by
  obtain ⟨items, hitems, ⟨⟩⟩ := Option.bind_eq_some_iff.mp hentries
  have hwhole : (Item.table .defined items).Tidy := .table (h.settle hitems)
  exact hwhole.finish

end Draft

/-! ## Reading -/

/-- A reader reads tidy values only. -/
def ReadsTidy (read : Reader Value) : Prop := ∀ cs v rest, read cs = .ok (v, rest) → v.Tidy

section Reading

variable {read : Reader Value} {cs rest : List Char}

theorem ReadsTidy.entry (h : ReadsTidy read) {e : Entry} (he : readEntry read cs = .ok (e, rest)) :
    e.2.2.Tidy := by
  simp only [readEntry, bind_eq_ok_iff] at he
  obtain ⟨⟨parts, cs'⟩, -, cs'', -, ⟨v, rest'⟩, hv, ⟨⟩⟩ := he
  exact h _ _ _ hv

/-- The entries of an inline table are tidy, if its values are read as such. -/
theorem ReadsTidy.entries (h : ReadsTidy read) {fuel : Nat} {entries : List Entry}
    (hentries : readEntries read fuel cs = .ok (entries, rest)) : ∀ e ∈ entries, e.2.2.Tidy := by
  induction fuel generalizing cs rest entries with
  | zero => exact nomatch hentries
  | succ fuel ih =>
    simp only [readEntries, bind_eq_ok_iff] at hentries
    obtain ⟨⟨e, cs'⟩, he, hentries⟩ := hentries
    split at hentries
    · obtain ⟨⟨more, cs''⟩, hmore, ⟨⟩⟩ := bind_eq_ok_iff.mp hentries
      exact List.forall_mem_cons.mpr ⟨h.entry he, ih hmore⟩
    · obtain ⟨cs'', -, ⟨⟩⟩ := bind_eq_ok_iff.mp hentries
      exact List.forall_mem_singleton.mpr (h.entry he)

end Reading

/-! ### Numbers and words -/

/-- What may have been found is no table. -/
def NoTable (found : Option Value) : Prop := ∀ v, found = some v → v.isTable = false

namespace NoTable

theorem of_some {v : Value} (h : v.isTable = false) : NoTable (some v) :=
  fun _ hv => Option.some.inj hv ▸ h

theorem of_none : NoTable none := fun _ hv => nomatch hv

theorem bind {α : Type} {x : Option α} {f : α → Option Value} (h : ∀ a, NoTable (f a)) :
    NoTable (x >>= f) := by
  intro v hv
  obtain ⟨a, -, hv⟩ := Option.bind_eq_some_iff.mp hv
  exact h a v hv

theorem or {x y : Option Value} (hx : NoTable x) (hy : NoTable y) : NoTable (x.or y) := fun v hv =>
  (Option.or_eq_some_iff.mp hv).elim (hx v) fun h => hy v h.2

theorem word? (z : Int) : NoTable (word? z) := by
  rw [Toml.word?]
  split
  · exact of_some rfl
  · exact of_none

theorem basedInteger? (base : Nat) (cs : List Char) : NoTable (basedInteger? base cs) :=
  bind fun _ => word? _

theorem decimalInteger? (negative : Bool) (cs : List Char) :
    NoTable (decimalInteger? negative cs) :=
  bind fun _ => bind fun _ => word? _

/-- What is read as a float is no table. -/
theorem float? (negative : Bool) (cs : List Char) : NoTable (float? negative cs) := by
  refine bind fun whole => bind fun _ => ?_
  simp only
  -- with and without a fraction, and then with and without an exponent
  split
  · refine bind fun fraction => bind fun _ => ?_
    split
    · exact bind fun _ => bind fun _ => of_some rfl
    · exact bind fun _ => bind fun _ => bind fun _ => bind fun _ => of_some rfl
  · refine bind fun _ => ?_
    split
    · exact bind fun _ => bind fun _ => of_some rfl
    · exact bind fun _ => bind fun _ => bind fun _ => bind fun _ => of_some rfl

/-- What is read as a number without a sign is no table. -/
theorem unsigned? (negative : Bool) (cs : List Char) : NoTable (unsigned? negative cs) := by
  rw [Toml.unsigned?]
  split_ifs
  · exact of_some rfl
  · exact of_some rfl
  · exact (decimalInteger? negative cs).or (float? negative cs)
  · exact of_none

/-- What is read as a number is no table. -/
theorem number? (cs : List Char) : NoTable (number? cs) := by
  rw [Toml.number?.eq_def]
  split
  · exact unsigned? _ _
  · exact unsigned? _ _
  · exact basedInteger? _ _
  · exact basedInteger? _ _
  · exact basedInteger? _ _
  · exact unsigned? _ _

end NoTable

/-- Values that are no arrays and no tables are tidy, as there is nothing in them. -/
theorem readsTidy_readScalar : ReadsTidy readScalar := by
  intro cs v rest h
  rw [readScalar] at h
  split at h
  · obtain ⟨⟩ := h
    exact .plain rfl
  · simp only at h
    split at h
    · exact nomatch h
    · split at h
      · obtain ⟨⟩ := h
        exact .plain rfl
      · split at h
        · obtain ⟨⟩ := h
          exact .plain rfl
        · split at h
          · rename_i number hnumber
            obtain ⟨⟩ := h
            exact .plain (NoTable.number? _ _ hnumber)
          · exact nomatch h

/-! ### Values and documents -/

/-- Whatever is read as a value is tidy. The induction is on the depth; an inline table is tidy
because adding a key twice fails. -/
theorem readsTidy_readValue (depth : Nat) : ReadsTidy (readValue depth) := by
  induction depth using Nat.strong_induction_on with
  | _ depth ih =>
    intro cs v rest h
    unfold readValue at h
    split at h
    · obtain ⟨⟨s, cs'⟩, -, ⟨⟩⟩ := bind_eq_ok_iff.mp h
      exact .plain rfl
    · obtain ⟨⟨s, cs'⟩, -, ⟨⟩⟩ := bind_eq_ok_iff.mp h
      exact .plain rfl
    · exact nomatch h
    · exact nomatch h
    · obtain ⟨⟨items, cs'⟩, -, ⟨⟩⟩ := bind_eq_ok_iff.mp h
      exact .plain rfl
    · rename_i depth
      have hinner : ReadsTidy (readValue depth) := ih depth (Nat.lt_succ_self depth)
      simp only at h
      -- no entries, or some
      split at h
      · obtain ⟨⟨entries, cs'⟩, hentries, h⟩ := bind_eq_ok_iff.mp h
        obtain ⟨rfl, -⟩ := Prod.mk.inj (Except.ok.inj hentries)
        split at h
        · rename_i htable
          obtain ⟨⟩ := h
          exact tidy_tableOf (List.forall_mem_nil _) htable
        · exact nomatch h
      · obtain ⟨⟨entries, cs'⟩, hentries, h⟩ := bind_eq_ok_iff.mp h
        split at h
        · rename_i htable
          obtain ⟨⟩ := h
          exact tidy_tableOf (hinner.entries hentries) htable
        · exact nomatch h
    · exact readsTidy_readScalar _ _ _ h

section Documents

variable {d d' : Draft} {cs rest : List Char}

theorem advance_eq_ok_iff {next : Option Draft} : advance path next = .ok d ↔ next = some d := by
  cases next <;> simp [advance]

/-- A line keeps a draft tidy, whether it is a header, an element or an entry. -/
theorem tidy_readLine (h : d.Tidy) (hd : readLine d cs = .ok (d', rest)) : d'.Tidy := by
  unfold readLine at hd
  split at hd
  · simp only [bind_eq_ok_iff, advance_eq_ok_iff] at hd
    obtain ⟨_, -, _, -, _, -, d'', hd, _, -, ⟨⟩⟩ := hd
    exact h.startElement hd
  · simp only [bind_eq_ok_iff, advance_eq_ok_iff] at hd
    obtain ⟨_, -, _, -, d'', hd, _, -, ⟨⟩⟩ := hd
    exact h.startTable hd
  · simp only [bind_eq_ok_iff, advance_eq_ok_iff] at hd
    obtain ⟨⟨⟨path, key, v⟩, _⟩, hentry, d'', hd, _, -, ⟨⟩⟩ := hd
    exact h.addValue ((readsTidy_readValue maxDepth).entry hentry) hd

/-- All lines of a file keep a draft tidy. The induction is on the lines. -/
theorem tidy_readLines {fuel : Nat} (h : d.Tidy) (hd : readLines fuel d cs = .ok d') : d'.Tidy := by
  induction fuel using Nat.strong_induction_on generalizing d cs with
  | _ fuel ih =>
    unfold readLines at hd
    split at hd
    · exact Except.ok.inj hd ▸ h
    · exact nomatch hd
    · rename_i fuel _
      obtain ⟨⟨next, rest⟩, hline, hd⟩ := bind_eq_ok_iff.mp hd
      exact ih fuel (Nat.lt_succ_self fuel) (tidy_readLine h hline) hd

/-- A text is read line by line, and what the lines make is finished. -/
theorem parse_eq_ok {s : String} {entries : Entries}
    (hmark : s.toList.head?.any (·.toNat = 0xFEFF) = false)
    (hd : readLines (s.toList.length + 1) .empty s.toList = .ok d)
    (hentries : d.finish = some entries) :
    parse s = .ok entries := by
  simp only [parse, hmark, Bool.false_eq_true, if_false, hd, ok_bind, hentries]
  rfl

/-- **A document that has been read has no key twice**, at whatever depth. Every way to add to a
document either finds the key free or fails. -/
theorem parse_tidy {s : String} {entries : Entries} (h : parse s = .ok entries) :
    (Value.table entries).Tidy := by
  rw [parse] at h
  obtain ⟨d, hd, h⟩ := bind_eq_ok_iff.mp h
  split at h
  · rename_i hfinish
    obtain ⟨⟩ := h
    exact (tidy_readLines Draft.tidy_empty hd).finish hfinish
  · exact nomatch h

end Documents

end CoChange.Toml
