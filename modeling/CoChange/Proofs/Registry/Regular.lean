import CoChange.Proofs.Registry.Identity

/-!
# Registries that their entries tell

A registry is *regular* if its index is right and has no file without keys, and all entries stand
under the keys of their units. Then the entries alone tell it (**`Regular.ofEntries_eq`**), so it
can be saved without the index. Touches, counting pairs and removing files keep it regular, and so
does a rename that puts a moved unit in the place of another one only in the new file.

A commit keeps it regular if none of its events has to do with two units of one key
(**`regular_step`**). Of the events of a whole run `Engine.KeepsApart` asks that, and besides that
no file is renamed to a path with tracked units, which makes all renames separate
(`separates_of_met`).
-/

namespace CoChange

namespace Registry

/-- The index is the one that is built from the entries, and those stand under the keys of their
units. -/
structure Regular (r : Registry) : Prop where
  indexed : r.Indexed
  populated : r.files.Populated
  keyed : ∀ k u n, r.tally k = some (u, n) → u.key = k

/-- The empty registry is regular, as there is nothing in it. -/
theorem regular_empty : Regular .empty where
  indexed := indexed_empty
  populated file keys h := by
    rw [empty, SortedMap.get?_empty] at h
    cases h
  keyed k u n h := by
    rw [tally, empty, SortedMap.get?_empty] at h
    cases h

variable {r : Registry}

/-- **A regular registry is built from its entries.** The index that is built anew lists the same
keys, and neither has a file without any. -/
theorem Regular.ofEntries_eq (h : r.Regular) : Registry.ofEntries r.entries = r := by
  have hfiles := files_eq_ofEntries_iff.mpr ⟨h.indexed, h.populated⟩
  rw [Registry.ofEntries, ← hfiles]

/-- A touch keeps a registry regular: the entry that it may add stands under the key of its unit and
is listed under the file of it. -/
theorem Regular.touch {p : Pass} (h : p.registry.Regular) (u : CodeUnit) :
    (p.touch u).registry.Regular where
  indexed := h.indexed.touch u
  populated := by
    rw [Pass.files_touch]
    split
    · exact h.populated
    · exact h.populated.add u.file u.key
  keyed k v n hv := by
    rw [tally_touch] at hv
    by_cases hk : k = u.key
    · rw [if_pos hk, Option.some.injEq] at hv
      -- an entry that is there keeps its unit, which need not be the one that is touched
      cases ht : p.registry.tally k with
      | none =>
        rw [ht] at hv
        rw [← (Prod.mk.inj hv).1, hk]
      | some t =>
        rw [ht] at hv
        exact h.keyed k v t.2 (by rw [ht, ← (Prod.mk.inj hv).1])
    · rw [if_neg hk] at hv
      exact h.keyed k v n hv

/-- A renaming keeps a registry regular, if no two of the keys that move become one with different
units. -/
theorem Regular.rename {source target : String} (h : r.Regular) (hne : source ≠ target)
    (hover : r.Overlays source target) : (r.rename source target).Regular where
  indexed := h.indexed.rename hne hover
  populated := populated_rename h.populated h.indexed
  keyed k v n hv := by
    rcases (tally_rename_eq_some_iff hne hover).mp hv with
      ⟨j, e, hm, he, rfl, rfl, _⟩ | ⟨_, _, hold⟩
    · exact (newKey_of_mem hm he).symm
    · exact h.keyed k v n hold

/-- Counting pairs keeps a registry regular, since it changes couplings only. -/
theorem Regular.coupleWithin (h : r.Regular) (cap : Nat) (touched : SortedSet String) :
    (r.coupleWithin cap touched).Regular where
  indexed := by
    rw [Registry.coupleWithin]
    split
    · exact h.indexed.couple touched
    · exact h.indexed
  populated := by
    rw [Registry.coupleWithin]
    split
    · exact h.populated
    · exact h.populated
  keyed k u n hu := h.keyed k u n (by rwa [tally_coupleWithin] at hu)

/-- The removal of a file keeps a registry regular: entries and index lose the same units. -/
theorem Regular.removeFile (h : r.Regular) (file : String) : (r.removeFile file).Regular where
  indexed := h.indexed.removeFile file
  populated := populated_removeFile h.populated file
  keyed k u n hu := by
    rw [tally_removeFile] at hu
    split at hu
    · cases hu
    · exact h.keyed k u n hu

theorem Regular.removeFiles (h : r.Regular) (files : List String) :
    (files.foldl (fun r file => r.removeFile file) r).Regular := by
  induction files generalizing r with
  | nil => exact h
  | cons file rest ih => exact ih (h.removeFile file)

/-! ## Events that keep units apart -/

namespace Pass

/-- Events that are applied one after the other, each with what it is applied to. -/
def visits (p : Pass) : List Event → List (Pass × Event)
  | [] => []
  | event :: rest => (p, event) :: visits (p.apply event) rest

/-- The events that are met in a run are those met in its first part and those met in the rest, from
where the first part ends. -/
theorem visits_append (done ahead : List Event) (p : Pass) :
    p.visits (done ++ ahead) = p.visits done ++ (done.foldl apply p).visits ahead := by
  induction done generalizing p with
  | nil => rfl
  | cons event rest ih => exact congrArg ((p, event) :: ·) (ih (p.apply event))

/-- Every event of a pass is met by some pass on the way. -/
theorem exists_mem_visits {p : Pass} {events : List Event} {event : Event} (h : event ∈ events) :
    ∃ before, (before, event) ∈ p.visits events := by
  obtain ⟨done, ahead, rfl⟩ := List.append_of_mem h
  refine ⟨done.foldl apply p, ?_⟩
  rw [visits_append]
  exact List.mem_append_right _ List.mem_cons_self

/-- The units that are tracked. -/
def tracked (p : Pass) : List CodeUnit := p.registry.entries.values.map (·.unit)

/-- The units that an event has to do with: those that are tracked, and the one that it touches or
those that tracked ones become. -/
def met (p : Pass) (event : Event) : List CodeUnit :=
  p.tracked ++ match event with
    | .touch u => [u]
    | .rename source target => (p.tracked.filter (·.file == source)).map (·.relocated target)

/-- If the event is a rename, no tracked unit is of the file with the new path. -/
def TargetFree (p : Pass) : Event → Prop
  | .touch _ => True
  | .rename _ target => ∀ u ∈ p.tracked, u.file ≠ target

instance (p : Pass) : (event : Event) → Decidable (p.TargetFree event)
  | .touch _ => inferInstanceAs (Decidable True)
  | .rename _ target => inferInstanceAs (Decidable (∀ u ∈ p.tracked, u.file ≠ target))

theorem mem_tracked {p : Pass} {k : String} {d : Entry} (h : p.registry.entries.get? k = some d) :
    d.unit ∈ p.tracked :=
  List.mem_map_of_mem (List.mem_map_of_mem (SortedMap.get?_eq_some_iff.mp h))

/-- A rename separates whose new path is free, if the units that it has to do with have different
keys. -/
theorem separates_of_met {p : Pass} {source target : String} (h : p.registry.Regular)
    (hfree : p.TargetFree (.rename source target))
    (hapart : CodeUnit.KeysApart (p.met (.rename source target))) :
    p.registry.Separates source target := by
  refine separates_of_untracked h.indexed
    (fun k d hd => h.keyed k d.unit d.count (tally_of_get? hd))
    (fun k d hd => hfree d.unit (mem_tracked hd)) fun j k d d' hd hsource hd' hkey => ?_
  -- a unit under its new path and a tracked one are both met by the event
  refine hapart _ (List.mem_append_right _ ?_) _ (List.mem_append_left _ (mem_tracked hd')) hkey
  exact List.mem_map_of_mem (List.mem_filter.mpr ⟨mem_tracked hd, by simpa using hsource⟩)

/-- A rename, to whatever path, puts a moved unit only in the place of that very unit, if the units
that it has to do with have different keys. -/
theorem overlays_of_met {p : Pass} {source target : String} (h : p.registry.Regular)
    (hapart : CodeUnit.KeysApart (p.met (.rename source target))) :
    p.registry.Overlays source target := by
  have hmoved {k : String} (hk : k ∈ p.registry.moves source target) :
      ∃ d, p.registry.entries.get? k = some d ∧ d.unit.file = source ∧ d.unit.key = k ∧
        p.registry.newKey source target k = (d.unit.relocated target).key := by
    obtain ⟨d, hd, hfile⟩ := (h.indexed source k).mp (mem_moves.mp hk).1
    exact ⟨d, hd, hfile, h.keyed k d.unit d.count (tally_of_get? hd), newKey_of_mem hk hd⟩
  constructor
  · intro j k hj hk heq
    obtain ⟨d, _, hd, hdj, hnewj⟩ := hmoved hj
    obtain ⟨e, _, he, hek, hnewk⟩ := hmoved hk
    rw [hnewj, hnewk] at heq
    rw [← hdj, ← hek]
    exact key_eq_of_relocated (hd.trans he.symm) heq
  · intro j k e hj _ heq he
    obtain ⟨d, hd, hsource, _, hnew⟩ := hmoved hj
    have hkey : (d.unit.relocated target).key = e.unit.key := by
      rw [← hnew, heq, h.keyed k e.unit e.count (tally_of_get? he)]
    -- both the moved unit under its new path and the tracked one are met by the rename
    have hmet : d.unit.relocated target ∈ p.met (.rename source target) := by
      refine List.mem_append_right
        _ (List.mem_map_of_mem (List.mem_filter.mpr ⟨mem_tracked hd, ?_⟩))
      simpa using hsource
    have hsame := hapart _ hmet _ (List.mem_append_left _ (mem_tracked he)) hkey
    rw [← hsame, CodeUnit.relocated_file]

/-- Events keep the registry regular, one after the other. -/
theorem regular_foldl {p : Pass} {events : List Event} (h : p.registry.Regular)
    (hne : ∀ source target, .rename source target ∈ events → source ≠ target)
    (hapart : ∀ visit ∈ p.visits events, CodeUnit.KeysApart (visit.1.met visit.2)) :
    (events.foldl apply p).registry.Regular := by
  induction events generalizing p with
  | nil => exact h
  | cons event rest ih =>
    rw [visits, List.forall_mem_cons] at hapart
    refine ih ?_ (fun source target hm => hne source target (List.mem_cons_of_mem _ hm)) hapart.2
    cases event with
    | touch u => exact h.touch u
    | rename source target =>
      exact h.rename (hne source target List.mem_cons_self) (overlays_of_met h hapart.1)

/-- Behind the first of some events that keep units apart, the registry is regular. -/
theorem regular_before {p : Pass} {events : List Event} (h : p.registry.Regular)
    (hne : ∀ source target, .rename source target ∈ events → source ≠ target)
    (hapart : ∀ visit ∈ p.visits events, CodeUnit.KeysApart (visit.1.met visit.2))
    {done ahead : List Event} (heq : events = done ++ ahead) :
    (done.foldl apply p).registry.Regular := by
  subst heq
  refine regular_foldl h (fun source target hm => hne source target (List.mem_append_left _ hm))
    fun visit hv => hapart visit ?_
  rw [visits_append]
  exact List.mem_append_left _ hv

end Pass

end Registry

namespace Engine

open Registry

/-! ## Runs that keep units apart -/

/-- The events that a run applies, each with what it is applied to: none of the merges that it
passes over. -/
def visits (e : Engine) : List Commit → List (Pass × Event)
  | [] => []
  | c :: rest =>
    (if e.takes c then Pass.visits ⟨e.registry, ∅⟩ (c.events e.query) else []) ++
      visits (e.step c) rest

/-- What keeps the units of a run apart. -/
structure KeepsApart (e : Engine) (commits : List Commit) : Prop where
  /-- Distinct units that the run meets have distinct keys. -/
  distinct : CodeUnit.KeysApart ((e.visits commits).flatMap fun visit => visit.1.met visit.2)
  /-- No file is renamed to a path with tracked units. -/
  untracked : ∀ visit ∈ e.visits commits, visit.1.TargetFree visit.2

instance (e : Engine) (commits : List Commit) : Decidable (e.KeepsApart commits) :=
  decidable_of_iff
    (CodeUnit.KeysApart ((e.visits commits).flatMap fun visit => visit.1.met visit.2) ∧
      ∀ visit ∈ e.visits commits, visit.1.TargetFree visit.2)
    ⟨fun ⟨hd, hu⟩ => ⟨hd, hu⟩, fun ⟨hd, hu⟩ => ⟨hd, hu⟩⟩

section Run

variable {e : Engine} {commits more : List Commit} {c : Commit}

theorem visits_append : e.visits (commits ++ more) =
    e.visits commits ++ (e.run commits).visits more := by
  induction commits generalizing e with
  | nil => rfl
  | cons c rest ih =>
    rw [List.cons_append, visits, visits, ih, List.append_assoc]
    rfl

/-- What is asked of a history is asked of the beginning of it. -/
theorem KeepsApart.of_append (h : e.KeepsApart (commits ++ more)) : e.KeepsApart commits where
  distinct := by
    have hdistinct := h.distinct
    rw [visits_append, List.flatMap_append] at hdistinct
    exact hdistinct.mono (List.subset_append_left _ _)
  untracked visit hv := h.untracked visit (by
    rw [visits_append]
    exact List.mem_append_left _ hv)

/-- What is asked of a history is asked of its rest, from behind its first commit. -/
theorem KeepsApart.tail (h : e.KeepsApart (c :: commits)) : (e.step c).KeepsApart commits where
  distinct := by
    have hdistinct := h.distinct
    rw [visits, List.flatMap_append] at hdistinct
    exact hdistinct.mono (List.subset_append_right _ _)
  untracked visit hv := h.untracked visit (List.mem_append_right _ hv)

/-- Of the units that one event has to do with, no two have one key. -/
theorem KeepsApart.apart (h : e.KeepsApart commits) {visit : Pass × Event}
    (hv : visit ∈ e.visits commits) : CodeUnit.KeysApart (visit.1.met visit.2) :=
  h.distinct.mono fun _ hu => List.mem_flatMap.mpr ⟨visit, hv, hu⟩

/-- What is asked of a history is asked of the renamings of its first commit. -/
theorem KeepsApart.head (h : e.KeepsApart (c :: commits)) (htakes : e.takes c = true) :
    ∀ visit ∈ Pass.visits ⟨e.registry, ∅⟩ (c.events e.query),
      visit.1.TargetFree visit.2 ∧ CodeUnit.KeysApart (visit.1.met visit.2) := by
  intro visit hv
  have hmem : visit ∈ e.visits (c :: commits) := by
    rw [visits, if_pos htakes]
    exact List.mem_append_left _ hv
  exact ⟨h.untracked visit hmem, h.apart hmem⟩

/-- **A commit keeps the registry regular** if at none of its events two units have one key. The
events keep it so one by one, counting pairs changes couplings only, and deletions take out whole
files. -/
theorem regular_step (h : e.registry.Regular)
    (hapart : ∀ visit ∈ e.visits [c], CodeUnit.KeysApart (visit.1.met visit.2)) :
    (e.step c).registry.Regular := by
  rw [registry_step]
  cases htakes : e.takes c with
  | false => exact h
  | true =>
    rw [visits, visits, List.append_nil, if_pos htakes] at hapart
    have hpass : (passOf e.query e.registry c).registry.Regular := Pass.regular_foldl h
      (fun source target hm => Commit.ne_of_rename_mem_events hm) hapart
    rw [if_pos rfl, applyCommit_eq]
    exact (hpass.coupleWithin _ _).removeFiles _

theorem KeepsApart.regular_step (h : e.KeepsApart (c :: commits)) (hstart : e.registry.Regular) :
    (e.step c).registry.Regular := by
  refine Engine.regular_step hstart fun visit hv => h.apart ?_
  rw [visits, visits, List.append_nil] at hv
  exact List.mem_append_left _ hv

/-- **All registries of a run that keeps its units apart are regular.** The induction is on the
commits, and what is asked of a history is asked of its rest. -/
theorem regular_run (h : e.KeepsApart commits) (hstart : e.registry.Regular) :
    (e.run commits).registry.Regular := by
  induction commits generalizing e with
  | nil => exact hstart
  | cons c rest ih => exact ih h.tail (h.regular_step hstart)

end Run

end Engine

end CoChange
