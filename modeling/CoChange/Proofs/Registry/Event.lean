import CoChange.Engine
import CoChange.Proofs.Registry.Coupling

/-!
# A commit as a series of events

To a registry, a commit is a series of renames of files and touches of units. Which ones, and in
which order, is settled by the commit and the query alone and not by what the registry holds:

* `Change.units`, `Change.events`, `Commit.events`: the touched units of a change, and the events of
  a change and of a commit.
* `Registry.Pass.apply`: what one event does to a registry in the middle of a commit.
* **`applyCommit_eq`**: a commit applies its events in order, counts pairs, and then removes the
  deleted files.

Of a touch the look-ups say everything: `get?_touch`, `mem_touched_touch` and `lists_touch`. Touches
leave the couplings alone (`coupling_touch`). The touched keys of a commit depend on its events
alone (`mem_touched_foldl`).
-/

namespace CoChange

/-- One thing that a commit does to a registry. -/
inductive Event where
  | rename (source target : String)
  | touch (unit : CodeUnit)
  deriving DecidableEq

/-- The units that a change touches, in order, each as often as it is met. -/
def Change.units (q : UnitQuery) (c : Change) : List CodeUnit :=
  match c.kind, c.after with
  | .inserted, some after => (q.extract after).toList.map fun n => ⟨n.2.kind, n.1, c.target⟩
  | .modified, _ =>
    match c.diff with
    | none => []
    | some d => (d.touches (q.extractFrom c.before) (q.extractFrom c.after)).map fun n =>
        ⟨n.2.kind, n.1, c.target⟩
  | _, _ => []

/-- The events of a change: a rename comes before the touches. -/
def Change.events (q : UnitQuery) (c : Change) : List Event :=
  (if c.isRename then [.rename c.source c.target] else []) ++ (c.units q).map .touch

/-- The events of a commit, in the order of its changes. -/
def Commit.events (q : UnitQuery) (c : Commit) : List Event := c.changes.flatMap (·.events q)

/-- All touched units of a change are of the file that it leaves behind. -/
theorem Change.file_of_mem_units {q : UnitQuery} {c : Change} {u : CodeUnit} (h : u ∈ c.units q) :
    u.file = c.target := by
  unfold Change.units at h
  split at h
  · obtain ⟨n, _, rfl⟩ := List.mem_map.mp h
    rfl
  · split at h
    · exact absurd h (by simp)
    · obtain ⟨n, _, rfl⟩ := List.mem_map.mp h
      rfl
  · exact absurd h (by simp)

/-- Only a modification touches units or renames a file together with an old path. -/
theorem Change.kind_of_isRename {c : Change} (h : c.isRename = true) :
    c.kind = .modified ∧ c.source ≠ c.target := by
  simpa [Change.isRename] using h

/-- A change touches what is among its units. -/
theorem Change.touch_mem_events {q : UnitQuery} {c : Change} {u : CodeUnit} :
    .touch u ∈ c.events q ↔ u ∈ c.units q := by
  unfold Change.events
  cases c.isRename <;> simp

/-- A change renames at most one path, its source, and to its target. -/
theorem Change.rename_mem_events {q : UnitQuery} {c : Change} {source target : String} :
    .rename source target ∈ c.events q ↔
      c.isRename = true ∧ source = c.source ∧ target = c.target := by
  unfold Change.events
  cases c.isRename <;> simp

/-- A commit touches what its changes touch. -/
theorem Commit.touch_mem_events {q : UnitQuery} {c : Commit} {u : CodeUnit} :
    .touch u ∈ c.events q ↔ u ∈ c.changes.flatMap (·.units q) := by
  simp only [Commit.events, List.mem_flatMap, Change.touch_mem_events]

/-- A file is renamed to another path only. -/
theorem Commit.ne_of_rename_mem_events {q : UnitQuery} {c : Commit} {source target : String}
    (h : .rename source target ∈ c.events q) : source ≠ target := by
  obtain ⟨ch, _, hev⟩ := List.mem_flatMap.mp h
  obtain ⟨hr, rfl, rfl⟩ := Change.rename_mem_events.mp hev
  exact (Change.kind_of_isRename hr).2

namespace Registry

namespace Pass

/-- What an event does in the middle of a commit, given the orders of the hash tables. -/
def applyIn (o : TableOrder) (p : Pass) : Event → Pass
  | .rename source target => { p with registry := p.registry.renameIn o source target }
  | .touch u => p.touch u

/-- What an event does in the middle of a commit. -/
def apply (p : Pass) (event : Event) : Pass := p.applyIn .byKey event

theorem apply_touch (u : CodeUnit) (p : Pass) : p.apply (.touch u) = p.touch u := rfl

/-- Touches of named nodes are one event for each of them. -/
theorem touchAll_eq (o : TableOrder) (file : String) (nodes : List (String × Node)) (p : Pass) :
    p.touchAll file nodes = ((nodes.map fun n => (⟨n.2.kind, n.1, file⟩ : CodeUnit)).map
      Event.touch).foldl (applyIn o) p := by
  rw [touchAll, List.map_map, List.foldl_map]
  rfl

/-! ## Touches -/

/-- The first touch of a unit makes its entry and puts its key under its file. -/
theorem registry_touch_of_none {u : CodeUnit} {p : Pass}
    (h : p.registry.entries.get? u.key = none) :
    (p.touch u).registry =
      ⟨p.registry.entries.insert u.key (.first u), p.registry.files.add u.file u.key⟩ := by
  simp only [touch, get?, h]

/-- A touch of a unit that is there raises the count of its entry, once in a commit. -/
theorem registry_touch_of_some {u : CodeUnit} {p : Pass} {e : Entry}
    (h : p.registry.entries.get? u.key = some e) :
    (p.touch u).registry =
      if u.key ∈ p.touched then p.registry
      else { p.registry with
        entries := p.registry.entries.insert u.key { e with count := e.count + 1 } } := by
  simp only [touch, get?, h]

/-- What a touch leaves under a key: a new entry, or the old one with a count that is larger by one
if the key has not been touched before. -/
theorem get?_touch (u : CodeUnit) (p : Pass) (k : String) :
    (p.touch u).registry.entries.get? k =
      if k = u.key then
        some (match p.registry.entries.get? k with
          | some e => if k ∈ p.touched then e else { e with count := e.count + 1 }
          | none => .first u)
      else p.registry.entries.get? k := by
  cases h : p.registry.entries.get? u.key with
  | none =>
    rw [registry_touch_of_none h, SortedMap.get?_insert]
    by_cases hk : k = u.key
    · rw [if_pos hk, if_pos hk, hk, h]
    · rw [if_neg hk, if_neg hk]
  | some e =>
    rw [registry_touch_of_some h]
    by_cases hk : k = u.key
    · subst hk
      -- a further touch of the same commit does not count
      by_cases ht : u.key ∈ p.touched
      · simp only [ht, if_true, h]
      · simp only [ht, if_false, if_true, h, SortedMap.get?_insert_self]
    · by_cases ht : u.key ∈ p.touched
      · rw [if_pos ht, if_neg hk]
      · rw [if_neg ht, if_neg hk, SortedMap.get?_insert, if_neg hk]

/-- A touch makes at most one entry, that of its key. -/
theorem mem_touch {u : CodeUnit} {p : Pass} {k : String} :
    k ∈ (p.touch u).registry.entries ↔ k = u.key ∨ k ∈ p.registry.entries := by
  by_cases hk : k = u.key
  · exact iff_of_true (SortedMap.mem_of_get? (by rw [get?_touch, if_pos hk])) (Or.inl hk)
  · rw [SortedMap.mem_iff, get?_touch, if_neg hk, ← SortedMap.mem_iff, or_iff_right hk]

/-- It marks its key as touched. -/
theorem mem_touched_touch {u : CodeUnit} {p : Pass} {k : String} :
    k ∈ (p.touch u).touched ↔ k = u.key ∨ k ∈ p.touched :=
  SortedSet.mem_insert

/-- **The touched keys of a commit are those of the units that it touches**: whatever the registry
holds, and wherever a unit goes afterwards. -/
theorem mem_touched_foldlIn {o : TableOrder} {events : List Event} {p : Pass} {k : String} :
    k ∈ (events.foldl (applyIn o) p).touched ↔
      (∃ u, .touch u ∈ events ∧ u.key = k) ∨ k ∈ p.touched := by
  induction events generalizing p with
  | nil => simp
  | cons event rest ih =>
    rw [List.foldl_cons, ih]
    cases event with
    | rename source target =>
      have hsame : (p.applyIn o (.rename source target)).touched = p.touched := rfl
      simp [hsame]
    | touch v =>
      -- what is touched first is among the touched keys when the rest begins
      show _ ∨ k ∈ (p.touch v).touched ↔ _
      rw [mem_touched_touch]
      simp only [List.mem_cons, Event.touch.injEq]
      constructor
      · rintro (⟨u, hu, hk⟩ | hk | hk)
        · exact Or.inl ⟨u, Or.inr hu, hk⟩
        · exact Or.inl ⟨v, Or.inl rfl, hk.symm⟩
        · exact Or.inr hk
      · rintro (⟨u, rfl | hu, hk⟩ | hk)
        · exact Or.inr (Or.inl hk.symm)
        · exact Or.inl ⟨u, hu, hk⟩
        · exact Or.inr (Or.inr hk)

/-- What events mark as touched are the keys of the units that they touch. Renames do not change the
marks. -/
theorem mem_touched_foldl {events : List Event} {p : Pass} {k : String} :
    k ∈ (events.foldl apply p).touched ↔
      (∃ u, .touch u ∈ events ∧ u.key = k) ∨ k ∈ p.touched :=
  mem_touched_foldlIn (o := .byKey)

/-- A new unit is listed under its file, and nothing else changes in the index. -/
theorem files_touch (u : CodeUnit) (p : Pass) :
    (p.touch u).registry.files =
      if u.key ∈ p.registry.entries then p.registry.files
      else p.registry.files.add u.file u.key := by
  cases h : p.registry.entries.get? u.key with
  | none => rw [registry_touch_of_none h, if_neg (SortedMap.get?_eq_none_iff.mp h)]
  | some e =>
    rw [registry_touch_of_some h, if_pos (SortedMap.mem_of_get? h)]
    by_cases ht : u.key ∈ p.touched <;> simp only [ht, if_true, if_false]

/-- Touches keep all couplings: a new entry has none. -/
theorem coupling_touch (u : CodeUnit) (p : Pass) (j k : String) :
    (p.touch u).registry.entries.coupling j k = p.registry.entries.coupling j k := by
  rw [Entries.coupling, Entries.coupling, get?_touch]
  by_cases hj : j = u.key
  · rw [if_pos hj, Option.bind_some]
    cases h : p.registry.entries.get? j with
    | none => rfl
    | some e =>
      by_cases ht : j ∈ p.touched <;> simp [ht]
  · rw [if_neg hj]

/-- A touch adds one line to the index, of a unit that had no entry under its key. -/
theorem lists_touch {u : CodeUnit} {p : Pass} {file key : String} :
    (p.touch u).registry.files.Lists file key ↔
      (u.key ∉ p.registry.entries ∧ file = u.file ∧ key = u.key) ∨
        p.registry.files.Lists file key := by
  rw [files_touch]
  by_cases hu : u.key ∈ p.registry.entries
  · rw [if_pos hu, or_iff_right fun h => h.1 hu]
  · rw [if_neg hu, FileIndex.lists_add, and_iff_right hu]

end Pass

/-- A touch raises the count under the key of the unit, unless the key was touched before. Where
nothing stood, the unit has changed once from now on. -/
theorem tally_touch (u : CodeUnit) (p : Pass) (k : String) :
    (p.touch u).registry.tally k =
      if k = u.key then
        some (match p.registry.tally k with
          | some (v, n) => (v, if k ∈ p.touched then n else n + 1)
          | none => (u, 1))
      else p.registry.tally k := by
  rw [tally, tally, Pass.get?_touch]
  by_cases hk : k = u.key
  · rw [if_pos hk, if_pos hk]
    cases p.registry.entries.get? k with
    | none => rfl
    | some e => by_cases ht : k ∈ p.touched <;> simp [ht]
  · rw [if_neg hk, if_neg hk]

/-- A touch keeps the index right: a known unit stays in its file, and a new one is listed. -/
theorem Indexed.touch {p : Pass} (h : p.registry.Indexed) (u : CodeUnit) :
    (p.touch u).registry.Indexed := by
  intro file key
  rw [Pass.lists_touch, Pass.get?_touch, h file key]
  by_cases hk : key = u.key
  · subst hk
    rw [if_pos rfl]
    cases he : p.registry.entries.get? u.key with
    | none =>
      -- the new entry and the new line of the index are those of the touched unit
      have hnew : u.key ∉ p.registry.entries := SortedMap.get?_eq_none_iff.mp he
      simp [hnew, Entry.first, eq_comm]
    | some e =>
      have hold : u.key ∈ p.registry.entries := SortedMap.mem_of_get? he
      by_cases ht : u.key ∈ p.touched <;> simp [hold, ht]
  · rw [if_neg hk, or_iff_right fun hnew => hk hnew.2.2]

end Registry

namespace Entries

open Registry

/-- Couplings stay symmetric when a unit is touched. A new entry has no peers, and no one lists it,
as all peers that are listed are there. -/
theorem Symmetric.touch {p : Pass} (h : p.registry.entries.Symmetric)
    (hc : p.registry.entries.Closed) (u : CodeUnit) : (p.touch u).registry.entries.Symmetric := by
  intro j k _ _
  rw [Pass.coupling_touch, Pass.coupling_touch]
  -- a unit that is new is nobody's peer, so both sides are empty
  by_cases hj : j ∈ p.registry.entries
  · by_cases hk : k ∈ p.registry.entries
    · exact h j k hj hk
    · rw [coupling_eq_none_of_not_mem hk]
      exact Option.eq_none_iff_forall_ne_some.mpr fun n hn => hk (hc j k n hn)
  · rw [coupling_eq_none_of_not_mem hj]
    exact (Option.eq_none_iff_forall_ne_some.mpr fun n hn => hj (hc k j n hn)).symm

/-- A touch lists no peers, so peers still have entries. -/
theorem Closed.touch {p : Pass} (h : p.registry.entries.Closed) (u : CodeUnit) :
    (p.touch u).registry.entries.Closed := by
  intro j k n hn
  rw [Pass.coupling_touch] at hn
  exact Pass.mem_touch.mpr (Or.inr (h j k n hn))

/-- It makes no unit a peer of its own. -/
theorem Irreflexive.touch {p : Pass} (h : p.registry.entries.Irreflexive) (u : CodeUnit) :
    (p.touch u).registry.entries.Irreflexive := fun k => by
  rw [Pass.coupling_touch]
  exact h k

end Entries

/-! ## Commits -/

namespace Engine

open Registry

/-- A change does what its events do, one after the other. The cases are those of its kind. -/
theorem applyChangeIn_eq (o : TableOrder) (q : UnitQuery) (p : Pass) (c : Change) :
    applyChangeIn o q p c = (c.events q).foldl (Pass.applyIn o) p := by
  unfold applyChangeIn Change.events Change.units
  cases hk : c.kind with
  | inserted =>
    -- only a modification renames
    have hr : c.isRename = false := by simp [Change.isRename, hk]
    rw [hr]
    cases c.after with
    | none => rfl
    | some after => exact Pass.touchAll_eq o c.target _ p
  | modified =>
    show p.modificationIn o q c = _
    rw [Pass.modificationIn]
    have hrename :
        (if c.isRename then [Event.rename c.source c.target] else []).foldl (Pass.applyIn o) p =
          if c.isRename then { p with registry := p.registry.renameIn o c.source c.target }
          else p := by
      cases c.isRename <;> rfl
    rw [List.foldl_append, hrename]
    cases c.diff with
    | none => rfl
    | some d => exact Pass.touchAll_eq o c.target _ _
  | deleted =>
    have hr : c.isRename = false := by simp [Change.isRename, hk]
    rw [hr]
    rfl
  | untracked =>
    have hr : c.isRename = false := by simp [Change.isRename, hk]
    rw [hr]
    rfl

/-- The registry and the touched keys after the changes of a commit, before pairs are counted, given
the orders of the hash tables. -/
def passIn (orders : Nat → TableOrder) (q : UnitQuery) (r : Registry) (c : Commit) : Pass :=
  c.changes.zipIdx.foldl (fun p x => (x.1.events q).foldl (Pass.applyIn (orders x.2)) p) ⟨r, ∅⟩

/-- The registry and the touched keys after the events of a commit, before pairs are counted. -/
def passOf (q : UnitQuery) (r : Registry) (c : Commit) : Pass :=
  (c.events q).foldl Pass.apply ⟨r, ∅⟩

/-- With all tables in the order of their keys, a commit makes the pass that it makes by default. -/
theorem passIn_byKey (q : UnitQuery) (r : Registry) (c : Commit) :
    passIn (fun _ => .byKey) q r c = passOf q r c := by
  have hchanges : c.changes.zipIdx.map Prod.fst = c.changes := List.zipIdx_map_fst 0 c.changes
  rw [passOf, Commit.events, List.foldl_flatMap]
  conv_rhs => rw [← hchanges, List.foldl_map]
  rfl

/-- What a commit touches is told by its events: neither the registry nor the orders of the hash
tables have a part in it. -/
theorem mem_touched_passIn {orders : Nat → TableOrder} {q : UnitQuery} {r : Registry} {c : Commit}
    {k : String} : k ∈ (passIn orders q r c).touched ↔ ∃ u, .touch u ∈ c.events q ∧ u.key = k := by
  -- over the changes that are left, with what the ones before them have touched
  have hfrom (changes : List (Change × Nat)) (p : Pass) :
      k ∈ (changes.foldl (fun p x => (x.1.events q).foldl (Pass.applyIn (orders x.2)) p)
        p).touched ↔
        (∃ u, .touch u ∈ (changes.map Prod.fst).flatMap (·.events q) ∧ u.key = k) ∨
          k ∈ p.touched := by
    induction changes generalizing p with
    | nil => simp
    | cons x rest ih =>
      rw [List.foldl_cons, ih, Pass.mem_touched_foldlIn, List.map_cons, List.flatMap_cons]
      simp only [List.mem_append, or_and_right, exists_or, or_assoc, or_left_comm]
  rw [passIn, hfrom, List.zipIdx_map_fst 0 c.changes, or_iff_left (SortedMap.not_mem_empty k)]
  rfl

/-- What a commit touches depends neither on the registry nor on the orders of its tables. -/
theorem touched_passIn (orders orders' : Nat → TableOrder) (q : UnitQuery) (r r' : Registry)
    (c : Commit) : (passIn orders q r c).touched = (passIn orders' q r' c).touched :=
  SortedSet.ext_mem fun _ => mem_touched_passIn.trans mem_touched_passIn.symm

/-- Removes the files that a commit deletes. -/
def dropFiles (r : Registry) (c : Commit) : Registry :=
  (deletedFiles c).foldl (fun r file => r.removeFile file) r

/-- **A commit applies its events in order, counts pairs, and removes the deleted files.** Changes
that delete a file have no events of their own; their files go behind everything else. -/
theorem applyCommitIn_eq (orders : Nat → TableOrder) (q : UnitQuery) (cap : Nat) (r : Registry)
    (c : Commit) :
    applyCommitIn orders q cap r c =
      ⟨dropFiles ((passIn orders q r c).registry.coupleWithin cap (passIn orders q r c).touched) c,
        (passIn orders q r c).touched⟩ := by
  rw [applyCommitIn]
  simp only [applyChangeIn_eq]
  rfl

/-- **A commit in three parts**: its events, the count of its pairs, and the removal of the files
that it deletes. -/
theorem applyCommit_eq (q : UnitQuery) (cap : Nat) (r : Registry) (c : Commit) :
    applyCommit q cap r c =
      ⟨dropFiles ((passOf q r c).registry.coupleWithin cap (passOf q r c).touched) c,
        (passOf q r c).touched⟩ := by
  rw [applyCommit, applyCommitIn_eq, passIn_byKey]

/-- Whether a commit changes the registry: it is no merge that was consumed before. -/
def takes (e : Engine) (c : Commit) : Bool := (e.merges.accept c.hash c.parentCount).1

/-- The statistics after a commit: its own are kept if it was taken and touched anything. -/
def statsAfter (e : Engine) (c : Commit) : SortedMap String CommitStats :=
  let touched := (passOf e.query e.registry c).touched
  if e.takes c && !touched.isEmpty then e.stats.insert c.hash (.ofTouched touched.size) else e.stats

/-- **Everything that a commit does to an engine**, whatever the orders of the hash tables are:
these show in the registry only. -/
theorem stepIn_eq (orders : TableOrders) (e : Engine) (c : Commit) :
    e.stepIn orders c =
      { e with
        registry :=
          if e.takes c then
            (applyCommitIn (orders e.processed) e.query e.cap e.registry c).registry
          else e.registry
        merges := (e.merges.accept c.hash c.parentCount).2
        stats := e.statsAfter c
        processed := e.processed + 1
        last := some c.hash } := by
  unfold stepIn consumeIn statsAfter takes
  rcases hm : e.merges.accept c.hash c.parentCount with ⟨new, merges⟩
  cases new with
  | false => simp only [hm, Bool.false_and, Bool.false_eq_true, if_false]
  | true =>
    -- neither pairs nor deletions change what is touched
    have ht : (applyCommitIn (orders e.processed) e.query e.cap e.registry c).touched =
        (passOf e.query e.registry c).touched := by
      rw [applyCommitIn_eq, ← passIn_byKey]
      exact touched_passIn _ _ _ _ _ _
    simp only [hm, ht, Bool.true_and, if_true]
    cases (passOf e.query e.registry c).touched.isEmpty <;> rfl

/-- What a commit does to an engine, field by field: a merge that comes again is passed over, and
statistics are kept if something was touched. -/
theorem step_eq (e : Engine) (c : Commit) :
    e.step c =
      { e with
        registry :=
          if e.takes c then (applyCommit e.query e.cap e.registry c).registry else e.registry
        merges := (e.merges.accept c.hash c.parentCount).2
        stats := e.statsAfter c
        processed := e.processed + 1
        last := some c.hash } :=
  stepIn_eq .byKey e c

section Orders

variable (orders : TableOrders)

@[simp] theorem query_stepIn (e : Engine) (c : Commit) : (e.stepIn orders c).query = e.query := by
  rw [stepIn_eq]

@[simp] theorem cap_stepIn (e : Engine) (c : Commit) : (e.stepIn orders c).cap = e.cap := by
  rw [stepIn_eq]

/-- A commit that is not taken leaves the registry as it is. -/
theorem registry_stepIn (e : Engine) (c : Commit) :
    (e.stepIn orders c).registry =
      if e.takes c then (applyCommitIn (orders e.processed) e.query e.cap e.registry c).registry
      else e.registry := by
  rw [stepIn_eq]

/-- A run goes on with the engine that the first commit leaves. -/
theorem runIn_cons (e : Engine) (c : Commit) (commits : List Commit) :
    e.runIn orders (c :: commits) = (e.stepIn orders c).runIn orders commits := by
  rw [runIn, List.foldl_cons, ← runIn]

/-- A run goes on with the engine that a first part leaves. -/
theorem runIn_append (e : Engine) (commits more : List Commit) :
    e.runIn orders (commits ++ more) = (e.runIn orders commits).runIn orders more :=
  List.foldl_append

@[simp] theorem query_runIn (e : Engine) (commits : List Commit) :
    (e.runIn orders commits).query = e.query := by
  induction commits generalizing e with
  | nil => rfl
  | cons c rest ih => rw [runIn_cons, ih, query_stepIn]

@[simp] theorem cap_runIn (e : Engine) (commits : List Commit) :
    (e.runIn orders commits).cap = e.cap := by
  induction commits generalizing e with
  | nil => rfl
  | cons c rest ih => rw [runIn_cons, ih, cap_stepIn]

/-- A run has processed all of its commits, taken or not. -/
theorem processed_runIn (e : Engine) (commits : List Commit) :
    (e.runIn orders commits).processed = e.processed + commits.length := by
  induction commits generalizing e with
  | nil => rfl
  | cons c rest ih =>
    have hstep : (e.stepIn orders c).processed = e.processed + 1 := by rw [stepIn_eq]
    rw [runIn_cons, ih, hstep, List.length_cons, Nat.add_assoc, Nat.add_comm 1]

/-- The last commit of a run is the last one of its commits, taken or not. -/
theorem last_runIn (e : Engine) (commits : List Commit) :
    (e.runIn orders commits).last = (commits.map (·.hash)).getLast?.or e.last := by
  induction commits generalizing e with
  | nil => rfl
  | cons c rest ih =>
    have hstep : (e.stepIn orders c).last = some c.hash := by rw [stepIn_eq]
    rw [runIn_cons, ih, hstep, List.map_cons, List.getLast?_cons]
    cases (rest.map (·.hash)).getLast? <;> rfl

end Orders

@[simp] theorem query_step (e : Engine) (c : Commit) : (e.step c).query = e.query :=
  query_stepIn .byKey e c

@[simp] theorem cap_step (e : Engine) (c : Commit) : (e.step c).cap = e.cap := cap_stepIn .byKey e c

/-- A commit that is not taken leaves the registry as it is. -/
theorem registry_step (e : Engine) (c : Commit) :
    (e.step c).registry =
      if e.takes c then (applyCommit e.query e.cap e.registry c).registry else e.registry :=
  registry_stepIn .byKey e c

/-- A run goes on with the engine that the first commit leaves. -/
theorem run_cons (e : Engine) (c : Commit) (commits : List Commit) :
    e.run (c :: commits) = (e.step c).run commits := by
  rw [run, List.foldl_cons, ← run]

/-- A run goes on with the engine that a first part leaves. -/
theorem run_append (e : Engine) (commits more : List Commit) :
    e.run (commits ++ more) = (e.run commits).run more := List.foldl_append

@[simp] theorem query_run (e : Engine) (commits : List Commit) : (e.run commits).query = e.query :=
  query_runIn .byKey e commits

@[simp] theorem cap_run (e : Engine) (commits : List Commit) : (e.run commits).cap = e.cap :=
  cap_runIn .byKey e commits

/-- Every commit counts as processed, also one that is not taken. -/
theorem processed_run (e : Engine) (commits : List Commit) :
    (e.run commits).processed = e.processed + commits.length := processed_runIn .byKey e commits

/-- The last commit is the last one that was consumed, if there was one. -/
theorem last_run (e : Engine) (commits : List Commit) :
    (e.run commits).last = (commits.map (·.hash)).getLast?.or e.last := last_runIn .byKey e commits

/-- A merge is taken if its hash is not in the log, and any other commit always. -/
theorem takes_eq (e : Engine) (c : Commit) :
    e.takes c = !(c.isMerge && decide (c.hash ∈ e.merges.seen.getD ∅)) := by
  unfold takes MergeLog.accept
  by_cases h : c.parentCount ≤ 1
  · have hm : c.isMerge = false := by simp [Commit.isMerge, h]
    rw [if_pos h, hm]
    rfl
  · have hm : c.isMerge = true := by simpa [Commit.isMerge] using h
    rw [if_neg h, hm, Bool.true_and, ← SortedMap.contains_eq_decide]

/-- The log of merges has one more hash after a merge, and the same ones after any other commit. -/
theorem mem_seen_stepIn (orders : TableOrders) (e : Engine) (c : Commit) (hash : String) :
    hash ∈ (e.stepIn orders c).merges.seen.getD ∅ ↔
      (c.isMerge = true ∧ hash = c.hash) ∨ hash ∈ e.merges.seen.getD ∅ := by
  rw [stepIn_eq]
  unfold MergeLog.accept
  by_cases h : c.parentCount ≤ 1
  · have hm : c.isMerge = false := by simp [Commit.isMerge, h]
    rw [if_pos h, hm]
    simp
  · have hm : c.isMerge = true := by simpa [Commit.isMerge] using h
    rw [if_neg h, hm]
    simp only [Option.getD_some, SortedSet.mem_insert, true_and]

/-- A commit adds its hash to those of the merges if it is one. -/
theorem mem_seen_step (e : Engine) (c : Commit) (hash : String) :
    hash ∈ (e.step c).merges.seen.getD ∅ ↔
      (c.isMerge = true ∧ hash = c.hash) ∨ hash ∈ e.merges.seen.getD ∅ :=
  mem_seen_stepIn .byKey e c hash

end Engine

/-! ## Small commits

Files whose root has a few functions below it, for histories that are written out. -/

namespace Sample

/-- Picks what stands directly below the root, named by its token. -/
def query : UnitQuery := ⟨⟨false, [[]]⟩, .token⟩

/-- A function on the given lines. -/
def function (name : String) (first last : Nat) : Node :=
  ⟨0, "Function", name, [], ∅, some ⟨first, 0, 0, last, 0, 0⟩, []⟩

def file (functions : List Node) : Node := ⟨0, "File", "", [], ∅, none, functions⟩

def foo : Node := function "foo" 1 2

def bar : Node := function "bar" 3 4

def unit (name path : String) : CodeUnit := ⟨"Function", name, path⟩

/-- A new file. -/
def added (path : String) (functions : List Node) : Change :=
  ⟨"", path, none, some (file functions), none⟩

/-- A file that gets a new second line, under another path if they differ. -/
def edited (source target : String) (functions : List Node) : Change :=
  ⟨source, target, some (file functions), some (file functions),
    some ⟨4, 5, [⟨.equal, 1⟩, ⟨.insert, 1⟩, ⟨.equal, 3⟩]⟩⟩

/-- Adds a file with two functions. -/
def first : Commit := ⟨"first", 1, [added "a.go" [foo, bar]]⟩

/-- Renames the file and edits one of the functions. -/
def second : Commit := ⟨"second", 1, [edited "a.go" "b.go" [foo, bar]]⟩

theorem events_first :
    first.events query = [.touch (unit "bar" "a.go"), .touch (unit "foo" "a.go")] := rfl

theorem events_second :
    second.events query = [.rename "a.go" "b.go", .touch (unit "foo" "b.go")] := rfl

end Sample

end CoChange
