import CoChange.Proofs.Settings.Lookup
import CoChange.Proofs.Text.Joined
import CoChange.Proofs.Toml.Document

/-!
# Which settings of a file can be looked up

A table of a file whose keys have no points is a section with the name of its path, unless there are
tables in it. Then nothing in it can be looked up under the name of its path: each value in it has
become a section of its own.

* **`mem_entryAssignments_iff`**: what a document assigns.
* **`setting_found_iff`**: a value of a table is found under the path of the table and its key
  exactly if there are no tables in that table, or the section `base` happens to have the same text
  under the same key.
* **`setting_lost_beside_table`**: a value that is not found.
-/

namespace CoChange

namespace Settings

/-! ## Names of sections -/

/-- The name of the section of the table at a path. -/
def sectionName (path : List String) : String := ".".intercalate path

theorem sectionName_singleton (key : String) : sectionName [key] = key := Text.dotted_singleton key

theorem sectionName_concat {path : List String} (h : path ≠ []) (key : String) :
    sectionName (path ++ [key]) = sectionName path ++ "." ++ key := Text.dotted_concat h key

/-- **Keys without points can be told from the name of a section.** The points in the name are those
between the keys. -/
theorem sectionName_inj {path path' : List String} (hpath : path ≠ []) (hpath' : path' ≠ [])
    (hdots : ∀ key ∈ path, '.' ∉ key.toList) (hdots' : ∀ key ∈ path', '.' ∉ key.toList)
    (h : sectionName path = sectionName path') : path = path' :=
      Text.dotted_inj hpath hpath' hdots hdots' h

/-! ## What a document assigns -/

/-- The assignment for a value of the table at a path. -/
def assignment (path : List String) (holder : Toml.Entries) (key : String) (v : Toml.Value) :
    Assignment :=
  if path = [] ∨ holder.any (·.2.isTable) then
    ⟨sectionName (path ++ [key]), looseKey, v.settingText⟩
  else ⟨sectionName path, key, v.settingText⟩

/-- A value beside a table, or of the document itself, gets a section of its own. -/
theorem assignment_loose {path : List String} {holder : Toml.Entries}
    (h : path = [] ∨ holder.any (·.2.isTable)) (key : String) (v : Toml.Value) :
    assignment path holder key v = ⟨sectionName (path ++ [key]), looseKey, v.settingText⟩ :=
  if_pos h

/-- A value in a table without tables is gathered in the section of that table. -/
theorem assignment_gathered {path : List String} {holder : Toml.Entries} (hpath : path ≠ [])
    (hplain : ∀ e ∈ holder, e.2.isTable = false) (key : String) (v : Toml.Value) :
    assignment path holder key v = ⟨sectionName path, key, v.settingText⟩ :=
  if_neg (by simpa [hpath] using hplain)

/-- In either case its text is that of the value. -/
theorem text_assignment (path : List String) (holder : Toml.Entries) (key : String)
    (v : Toml.Value) :
    (assignment path holder key v).text = v.settingText := by
  unfold assignment
  split <;> rfl

/-- A value has a table at a path, and in that table, under a key, a value that is no table. -/
structure Stands (whole : Toml.Value) (path : List String) (holder : Toml.Entries) (key : String)
    (v : Toml.Value) :
    Prop where
  inTable : whole.HasAt path (.table holder)
  mem : (key, v) ∈ holder
  plain : v.isTable = false

/-- The assignments of what stands at a path: one for each value that is no table. -/
inductive Assigns (path : List String) (v : Toml.Value) : Assignment → Prop where
  | loose (h : v.isTable = false) : Assigns path v ⟨sectionName path, looseKey, v.settingText⟩
  | held {inner : List String} {holder : Toml.Entries} {key : String} {w : Toml.Value}
    (h : Stands v inner holder key w) : Assigns path v (assignment (path ++ inner) holder key w)

/-- The name that the parts of what stands at a path begin with. -/
def outerName (path : List String) : Option String :=
  if path = [] then none else some (sectionName path)

/-- A part of what stands at a path has the name of the path that goes on with its key. -/
theorem partName_outerName (path : List String) (key : String) :
    partName (outerName path) key = sectionName (path ++ [key]) := by
  rw [outerName]
  split
  · rename_i h
    rw [h, List.nil_append, sectionName_singleton]
    rfl
  · rename_i h
    rw [sectionName_concat h]
    rfl

/-- The assignments of a table are those of its entries, each under the name of its part. -/
theorem entryAssignments_eq (outer : Option String) (entries : Toml.Entries) :
    entryAssignments outer entries =
      entries.flatMap fun e => valueAssignments (partName outer e.1) e.2 := by
  induction entries with
  | nil => rfl
  | cons e rest ih => rw [entryAssignments, ih, List.flatMap_cons]

/-- A value at the top is put under its own name. -/
theorem valueAssignments_plain {name : String} {v : Toml.Value} (h : v.isTable = false) :
    valueAssignments name v = [⟨name, looseKey, v.settingText⟩] := by
  cases v with
  | table => exact nomatch h
  | _ => rw [valueAssignments]; nofun

variable {path : List String} {entries : Toml.Entries} {a : Assignment}

/-- The parts of the top of a document, and of a table with tables in it, are taken one by one. -/
theorem mem_entryAssignments_of_scattered (path : List String) (a : Assignment)
    (h : path = [] ∨ entries.any (·.2.isTable))
    (hparts : ∀ e ∈ entries, ∀ path ≠ [], ∀ a, a ∈ valueAssignments (sectionName path) e.2 ↔
      Assigns path e.2 a) :
    a ∈ entryAssignments (outerName path) entries ↔ Assigns path (.table entries) a := by
  rw [entryAssignments_eq, List.mem_flatMap]
  simp only [partName_outerName]
  constructor
  · rintro ⟨⟨key, v⟩, he, ha⟩
    cases (hparts _ he _ (by simp) a).mp ha with
    | loose hplain =>
      -- a value that is held by the table itself
      have hheld : Assigns path (.table entries) _ := .held ⟨.here, he, hplain⟩
      rwa [List.append_nil, assignment_loose h] at hheld
    | held hstands =>
      -- one that is held by a table below it
      have hheld : Assigns path (.table entries) _ :=
        .held ⟨.under he hstands.inTable, hstands.mem, hstands.plain⟩
      rwa [List.append_cons] at hheld
  · rintro (⟨⟨⟩⟩ | ⟨htable, hmem, hplain⟩)
    cases htable with
    | here =>
      refine ⟨_, hmem, (hparts _ hmem _ (by simp) _).mpr ?_⟩
      rw [List.append_nil, assignment_loose h]
      exact .loose hplain
    | @under _ outer _ _ _ he htable =>
      refine ⟨_, he, (hparts _ he _ (by simp) _).mpr ?_⟩
      have hheld : Assigns (path ++ [outer]) _ _ := .held ⟨htable, hmem, hplain⟩
      rw [List.append_assoc] at hheld
      exact hheld

/-- What stands at a path is assigned by its own rules: a table without tables as a section, any
other table part by part, and a value that is no table on its own. The induction is on the tables in
it. -/
theorem mem_valueAssignments_iff (v : Toml.Value) :
    ∀ path ≠ [], ∀ a, a ∈ valueAssignments (sectionName path) v ↔ Assigns path v a := by
  induction v using Toml.Value.tableInduction with
  | table entries ih =>
    intro path hpath a
    rw [valueAssignments]
    -- with a table in it, a table is taken apart; without, it is a section
    split
    · rename_i hany
      have hscattered := mem_entryAssignments_of_scattered path a (.inr hany) ih
      rwa [outerName, if_neg hpath] at hscattered
    · rename_i hany
      have hplain : ∀ e ∈ entries, e.2.isTable = false := by simpa using hany
      rw [sectionAssignments, List.mem_map]
      constructor
      · rintro ⟨⟨key, w⟩, he, rfl⟩
        have hheld : Assigns path (.table entries) _ := .held ⟨.here, he, hplain _ he⟩
        rwa [List.append_nil, assignment_gathered hpath hplain] at hheld
      · rintro (⟨⟨⟩⟩ | ⟨htable, hmem, -⟩)
        cases htable with
        | here => exact ⟨_, hmem, by rw [List.append_nil, assignment_gathered hpath hplain]⟩
        | under he htable =>
          obtain ⟨-, rfl⟩ := htable.of_plain (hplain _ he)
          exact nomatch hplain _ he
  | plain v hv =>
    intro path hpath a
    rw [valueAssignments_plain hv, List.mem_singleton]
    constructor
    · rintro rfl
      exact .loose hv
    · rintro (⟨-⟩ | ⟨htable, -, -⟩)
      · rfl
      · obtain ⟨-, rfl⟩ := htable.of_plain hv
        exact nomatch hv

/-- **What a document assigns**: each value that is no table, in the section of its table or in one
of its own. -/
theorem mem_entryAssignments_iff :
    a ∈ entryAssignments none entries ↔
      ∃ path holder key v, Stands (.table entries) path holder key v ∧
        a = assignment path holder key v := by
  have hassigns : a ∈ entryAssignments none entries ↔ Assigns [] (.table entries) a :=
    mem_entryAssignments_of_scattered [] a (.inl rfl) fun e _ => mem_valueAssignments_iff e.2
  refine hassigns.trans ⟨?_, ?_⟩
  · rintro (⟨⟨⟩⟩ | h)
    exact ⟨_, _, _, _, h, rfl⟩
  · rintro ⟨path, holder, key, v, h, rfl⟩
    exact Assigns.held h

/-! ## What can be looked up -/

def DotFree : Toml.Value → Prop :=
  Toml.Value.Throughout fun entries => ∀ e ∈ entries, '.' ∉ e.1.toList

section Document

variable {whole v v' : Toml.Value} {holder holder' : Toml.Entries} {key key' : String}
    {path' : List String}

/-- What stands in a table is found along the path of the table. -/
theorem Stands.hasAt (h : Stands whole path holder key v) : whole.HasAt (path ++ [key]) v :=
  h.inTable.concat h.mem

/-- Where a value stands there is no table. -/
theorem Stands.ne_path (htidy : whole.Tidy) (h : Stands whole path holder key v)
    (htable : whole.HasAt path' (.table holder')) : path ++ [key] ≠ path' := by
  rintro rfl
  obtain rfl := h.hasAt.unique htidy htable
  exact nomatch h.plain

/-- **No two values of a document have one place.** A value is found by the path that its section
and its key spell, and a document has one value at a path. -/
theorem Stands.unique (htidy : whole.Tidy) (hdots : DotFree whole)
    (h : Stands whole path holder key v) (h' : Stands whole path' holder' key' v')
    (hsection : (assignment path holder key v).sectionName =
      (assignment path' holder' key' v').sectionName)
    (hkey : (assignment path holder key v).key = (assignment path' holder' key' v').key) :
      v = v' := by
  have hinj {p p' : List String}
      {w w' : Toml.Value} (hw : whole.HasAt p w) (hw' : whole.HasAt p' w')
      (hp : p ≠ []) (hp' : p' ≠ []) : sectionName p = sectionName p' → p = p' :=
    sectionName_inj hp hp' (hw.forall_key hdots) (hw'.forall_key hdots)
  suffices hpath : path ++ [key] = path' ++ [key'] from (hpath ▸ h.hasAt).unique htidy h'.hasAt
  -- each of the two values has a section of its own or stands in the section of its table; a
  -- section of its own cannot be that of a table, because there would have to be a table where the
  -- value stands
  unfold assignment at hsection hkey
  split at hsection
  case isTrue =>
    split at hsection
    case isTrue => exact hinj h.hasAt h'.hasAt (by simp) (by simp) hsection
    case isFalse hgathered' =>
      have hpath := hinj h.hasAt h'.inTable (by simp) (not_or.mp hgathered').1 hsection
      exact absurd hpath (h.ne_path htidy h'.inTable)
  case isFalse hgathered =>
    split at hsection
    case isTrue =>
      have hpath := hinj h.inTable h'.hasAt (not_or.mp hgathered).1 (by simp) hsection
      exact absurd hpath.symm (h'.ne_path htidy h.inTable)
    case isFalse hgathered' =>
      rw [if_neg hgathered, if_neg hgathered'] at hkey
      have hpath :=
        hinj h.inTable h'.inTable (not_or.mp hgathered).1 (not_or.mp hgathered').1 hsection
      have hkey : key = key' := hkey
      rw [hpath, hkey]

variable (htidy : (Toml.Value.table entries).Tidy) (hdots : DotFree (.table entries))
include htidy hdots

theorem consistent_entryAssignments : Consistent (entryAssignments none entries) := by
  intro a ha b hb hsection hkey
  obtain ⟨_, _, _, v, h, rfl⟩ := mem_entryAssignments_iff.mp ha
  obtain ⟨_, _, _, v', h', rfl⟩ := mem_entryAssignments_iff.mp hb
  rw [text_assignment, text_assignment, h.unique htidy hdots h' hsection hkey]

/-- A text is found in a section under a key exactly if the document assigns it there. -/
theorem textAt?_sectionsOfToml_eq_some_iff {name text : String} :
    (sectionsOfToml entries).textAt? name key = some text ↔
      ∃ path holder key' v, Stands (.table entries) path holder key' v ∧
        ⟨name, key, text⟩ = assignment path holder key' v := by
  rw [sectionsOfToml, textAt?_sectionsOf_eq_some_iff (consistent_entryAssignments htidy hdots),
    mem_entryAssignments_iff]

/-- **A table without tables is a section.** Its values are gathered under the name of its path. -/
theorem textAt?_of_no_table (h : Stands (.table entries) path holder key v) (hpath : path ≠ [])
    (hplain : ∀ e ∈ holder, e.2.isTable = false) :
    (sectionsOfToml entries).textAt? (sectionName path) key = some v.settingText :=
  (textAt?_sectionsOfToml_eq_some_iff htidy hdots).mpr
    ⟨_, _, _, _, h, (assignment_gathered hpath hplain key v).symm⟩

/-- What stands beside a table has a section of its own. -/
theorem textAt?_beside_table (h : Stands (.table entries) path holder key v)
    (htable : holder.any (·.2.isTable)) :
    (sectionsOfToml entries).textAt? (sectionName (path ++ [key])) looseKey = some v.settingText :=
  (textAt?_sectionsOfToml_eq_some_iff htidy hdots).mpr
    ⟨_, _, _, _, h, (assignment_loose (.inr htable) key v).symm⟩

/-- **A table with tables in it is no section.** A value would have to stand at the place of the
table itself to be found under its name. -/
theorem textAt?_of_table (hholder : (Toml.Value.table entries).HasAt path (.table holder))
    (hpath : path ≠ []) (htable : holder.any (·.2.isTable)) (key : String) :
    (sectionsOfToml entries).textAt? (sectionName path) key = none := by
  rw [Option.eq_none_iff_forall_ne_some]
  intro text hentry
  obtain ⟨path', holder', key', v, h, hassignment⟩ :=
    (textAt?_sectionsOfToml_eq_some_iff htidy hdots).mp hentry
  have hname : sectionName path = (assignment path' holder' key' v).sectionName :=
    congrArg (·.sectionName) hassignment
  unfold assignment at hname
  split at hname
  case isTrue =>
    -- a loose value would have to stand at the place of the table
    have hpath' :=
      sectionName_inj hpath (by simp) (hholder.forall_key hdots) (h.hasAt.forall_key hdots) hname
    exact h.ne_path htidy hholder hpath'.symm
  case isFalse hgathered =>
    obtain ⟨hne, hplain⟩ := not_or.mp hgathered
    obtain rfl :=
      sectionName_inj hpath hne (hholder.forall_key hdots) (h.inTable.forall_key hdots) hname
    obtain ⟨⟩ := hholder.unique htidy h.inTable
    exact hplain htable

end Document

end Settings

/-- **Which settings of a document are found.** In a document whose keys have no points and no two
keys of one table are the same, a value of a table is found under the path of the table and its key
exactly if there are no tables in that table, or the section that all look-ups end with has the same
text under the key. A value beside a table is found under its own path. A file whose text can be
read is such a document as far as its keys go, and is loaded with what the document assigns. -/
theorem setting_found_iff {entries : Toml.Entries} (hdots : Settings.DotFree (.table entries)) :
    (∀ file text, Toml.parse text = .ok entries → (Toml.Value.table entries).Tidy ∧
      ∃ s, Settings.ofFile file (.ok text) = .ok s ∧ s.sections = Settings.sectionsOfToml entries ∧
        s.selected = none) ∧
    ((Toml.Value.table entries).Tidy → ∀ s : Settings,
      s.sections = Settings.sectionsOfToml entries → s.selected = none →
      ∀ path holder key v, path ≠ [] → Settings.Stands (.table entries) path holder key v →
        (s.get? (Settings.sectionName path) key = some v.settingText ↔
          (∀ e ∈ holder, e.2.isTable = false) ∨
            s.sections.textAt? Settings.baseSection key = some v.settingText) ∧
        ((∃ e ∈ holder, e.2.isTable = true) →
          s.get? (Settings.sectionName (path ++ [key])) Settings.looseKey =
            some v.settingText)) := by
  refine ⟨fun file text hdoc =>
    ⟨Toml.parse_tidy hdoc, ⟨Settings.sectionsOfToml entries, some file, none⟩,
    by rw [Settings.ofFile, hdoc], rfl, rfl⟩,
      fun htidy s hsections hselected path holder key v hpath h => ?_⟩
  simp only [Settings.get?_eq, hselected, Option.bind_none, Option.none_or, hsections]
  by_cases htable : holder.any (·.2.isTable)
  · have hplain : ¬ ∀ e ∈ holder, e.2.isTable = false := by simpa using htable
    rw [Settings.textAt?_of_table htidy hdots h.inTable hpath htable,
      Settings.textAt?_beside_table htidy hdots h htable, Option.none_or, Option.some_or]
    exact ⟨(or_iff_right hplain).symm, fun _ => rfl⟩
  · have hplain : ∀ e ∈ holder, e.2.isTable = false := by simpa using htable
    rw [Settings.textAt?_of_no_table htidy hdots h hpath hplain, Option.some_or]
    exact ⟨iff_of_true rfl (.inl hplain),
      fun ⟨e, he, hinner⟩ => absurd hinner (by simp [hplain e he])⟩

namespace Sample

/-- A file with a table in a table. -/
def nestedText : String := "[shotness]\nshards = 4\n[shotness.ci]\nshards = 16\n"

def innerTable : Toml.Entries := [("shards", .integer 16)]

def outerTable : Toml.Entries := [("ci", .table innerTable), ("shards", .integer 4)]

/-- The document that the file is. -/
def nestedDocument : Toml.Value := .table [("shotness", .table outerTable)]

theorem parse_nestedText : Toml.parse nestedText = .ok [("shotness", .table outerTable)] :=
  Toml.parse_eq_ok (d := ⟨[("shotness", .table .defined [("shards", .value (.integer 4))])],
    [("shards", .value (.integer 16))], ["shotness", "ci"], false⟩) (by decide) rfl rfl

theorem dotFree_nestedDocument : Settings.DotFree nestedDocument :=
  .table (by decide) (List.forall_mem_singleton.mpr
    (.table (by decide) (List.forall_mem_cons.mpr
      ⟨.table (by decide) (List.forall_mem_singleton.mpr (.plain rfl)),
        List.forall_mem_singleton.mpr (.plain rfl)⟩)))

theorem stands_outerTable :
    Settings.Stands nestedDocument ["shotness"] outerTable "shards" (.integer 4) :=
  ⟨.under (List.mem_singleton_self _) .here,
    List.mem_cons_of_mem _ (List.mem_singleton_self _), rfl⟩

theorem stands_innerTable :
    Settings.Stands nestedDocument ["shotness", "ci"] innerTable "shards" (.integer 16) :=
  ⟨.under (List.mem_singleton_self _) (.under List.mem_cons_self .here),
    List.mem_singleton_self _, rfl⟩

end Sample

/-- In a file with a table in a table, the values of the inner one are found under its path. -/
theorem setting_found_sample :
    ∃ s, Settings.ofFile "config.toml" (.ok Sample.nestedText) = .ok s ∧
      s.get? "shotness.ci" "shards" = some "16" ∧ s.get? "shotness.shards" "value" = some "4" := by
  obtain ⟨hload, hfound⟩ := setting_found_iff Sample.dotFree_nestedDocument
  obtain ⟨htidy, s, hfile, hsections, hselected⟩ := hload "config.toml" _ Sample.parse_nestedText
  have hfound := hfound htidy s hsections hselected
  have hinner := (hfound _ _ _ _ (by simp) Sample.stands_innerTable).1.mpr
    (.inl (List.forall_mem_singleton.mpr rfl))
  have houter := (hfound _ _ _ _ (by simp) Sample.stands_outerTable).2
    ⟨("ci", .table Sample.innerTable), List.mem_cons_self, rfl⟩
  exact ⟨s, hfile, hinner, houter⟩

/-- **A setting is lost beside a table.** The outer table of a file has a number of shards, and
nothing is found. -/
theorem setting_lost_beside_table :
    Toml.parse Sample.nestedText = .ok [("shotness", .table Sample.outerTable)] ∧
    Settings.DotFree Sample.nestedDocument ∧
    Settings.Stands Sample.nestedDocument ["shotness"] Sample.outerTable "shards" (.integer 4) ∧
    ∃ s, Settings.ofFile "config.toml" (.ok Sample.nestedText) = .ok s ∧
      s.get? (Settings.sectionName ["shotness"]) "shards" = none :=
  ⟨Sample.parse_nestedText, Sample.dotFree_nestedDocument, Sample.stands_outerTable, _,
    by rw [Settings.ofFile, Sample.parse_nestedText], by decide +kernel⟩

end CoChange
