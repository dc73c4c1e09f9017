import CoChange.Proofs.Registry.Regular
import CoChange.Proofs.Sharding

/-!
# The index of every engine is the one that its entries tell

Touches, renames and removals keep the index up to date key by key, merges and restored states have
it built anew. Neither leaves it wrong: the registry of an engine stays regular, however the engine
has been reached (`Engine.Reached`), if no event of its history has to do with two units of one key.
A rename may then go to a path with tracked units, where it can only put a unit in the place of the
very same one.

* **`Reached.regular`**: the invariant, one case for each way to reach an engine.
* **`index_of_reached`**: what it says of the entries and of the index.
-/

namespace CoChange

namespace Registry

/-- A registry that is made anew from entries under the keys of their units is regular. -/
theorem regular_ofEntries {es : Entries} (hkeyed : ∀ k d, es.get? k = some d → d.unit.key = k) :
    (Registry.ofEntries es).Regular where
  indexed := indexed_ofEntries es
  populated := FileIndex.populated_ofEntries es
  keyed k u n hu := by
    obtain ⟨d, hd, rfl, -⟩ := tally_eq_some_iff.mp hu
    exact hkeyed k d hd

end Registry

namespace Engine

open Registry

/-- The engines that can be reached, with the events that their registries come from and what each
of these was applied to. -/
inductive Reached : Engine → List (Pass × Event) → Prop
  | new (query : UnitQuery) (cap : Nat) : Reached (.new query cap) []
  | consume {e : Engine} {visits : List (Pass × Event)} (h : Reached e visits) (c : Commit) :
      Reached (e.step c) (visits ++ e.visits [c])
  | fork {e fork : Engine} {visits : List (Pass × Event)} {n : Nat} (h : Reached e visits)
      (hfork : fork ∈ e.fork n) : Reached fork []
  | merge {e : Engine} {visits : List (Pass × Event)} (h : Reached e visits)
      (branches : List (Engine × List (Pass × Event)))
        (hbranches : ∀ b ∈ branches, Reached b.1 b.2) :
      Reached (e.merge (branches.map (·.1))) (visits ++ branches.flatMap (·.2))
  | hibernate {e : Engine} {visits : List (Pass × Event)} (h : Reached e visits) :
      Reached e.hibernate visits
  | boot {e : Engine} {visits : List (Pass × Event)} (h : Reached e visits) : Reached e.boot visits
  | reset {e : Engine} {visits : List (Pass × Event)} (h : Reached e visits) : Reached e.reset []
  | restore {e saved : Engine} {visits visits' : List (Pass × Event)} (h : Reached e visits)
      (hsaved : Reached saved visits') : Reached (e.restore saved.state) visits'

/-- Entries stand under the keys of their units after any branches were absorbed, if they do in the
engine and in the branches. -/
theorem keyed_foldl_absorb {e : Engine} {branches : List Engine}
    (hkeyed : ∀ k d, e.registry.entries.get? k = some d → d.unit.key = k)
    (hbranches : ∀ b ∈ branches, ∀ k d, b.registry.entries.get? k = some d → d.unit.key = k)
    (k : String) (d : Entry) (hd : (branches.foldl absorb e).registry.entries.get? k = some d) :
    d.unit.key = k := by
  induction branches generalizing e with
  | nil => exact hkeyed k d hd
  | cons b rest ih =>
    obtain ⟨hb, hrest⟩ := List.forall_mem_cons.mp hbranches
    refine ih (fun k d hd => ?_) hrest hd
    rcases Entries.unit_of_join hd with ⟨x, hx, hunit⟩ | ⟨y, hy, hunit⟩
    · rw [hunit]
      exact hkeyed k x hx
    · rw [hunit]
      exact hb k y hy

/-- A merge of regular registries is regular. The induction is on the branches. -/
theorem regular_merge {e : Engine} {branches : List Engine} (h : e.registry.Regular)
    (hbranches : ∀ b ∈ branches, b.registry.Regular) : (e.merge branches).registry.Regular := by
  show (Registry.ofEntries (branches.foldl absorb e).registry.entries).Regular
  refine regular_ofEntries (keyed_foldl_absorb ?_ ?_)
  · exact fun k d hd => h.keyed k d.unit d.count (tally_of_get? hd)
  · exact fun b hb k d hd => (hbranches b hb).keyed k d.unit d.count (tally_of_get? hd)

/-- **The registry of every engine that can be reached is regular**, if no event of its history has
to do with two units of one key. -/
theorem Reached.regular {e : Engine} {visits : List (Pass × Event)} (h : Reached e visits)
    (hapart : ∀ visit ∈ visits, CodeUnit.KeysApart (visit.1.met visit.2)) : e.registry.Regular := by
  induction h with
  | new query cap => exact regular_empty
  | consume _ c ih =>
    obtain ⟨hbefore, hnow⟩ := List.forall_mem_append.mp hapart
    exact regular_step (ih hbefore) hnow
  | fork _ hfork _ =>
    rw [eq_reset_of_mem_fork hfork]
    exact regular_empty
  | merge _ branches _ ih ihbranches =>
    obtain ⟨hown, hothers⟩ := List.forall_mem_append.mp hapart
    refine regular_merge (ih hown) fun b hb => ?_
    obtain ⟨branch, hbranch, rfl⟩ := List.mem_map.mp hb
    exact ihbranches branch hbranch fun visit hv =>
      hothers visit (List.mem_flatMap.mpr ⟨branch, hbranch, hv⟩)
  | hibernate _ ih => exact ih hapart
  | boot _ ih => exact ih hapart
  | reset _ _ => exact regular_empty
  | restore _ _ _ ih =>
    -- what is restored is built from the entries, and those tell the registry that was saved
    have hsame := (ih hapart).ofEntries_eq
    show (Registry.ofEntries _).Regular
    rw [state, hsame]
    exact ih hapart

end Engine

/-- **The index of every engine that can be reached is the one that its entries tell**: each key
stands under the file of its unit and under no other, no file lists an absent key, and none is
listed without keys. And each entry stands under the key of its unit. -/
theorem index_of_reached (e : Engine) (visits : List (Registry.Pass × Event)) (h : e.Reached visits)
    (hapart : ∀ visit ∈ visits, CodeUnit.KeysApart (visit.1.met visit.2)) :
    (∀ k d, e.registry.entries.get? k = some d → d.unit.key = k) ∧
    e.registry.reindex = e.registry ∧
    (∀ k d, e.registry.entries.get? k = some d → ∀ file,
      e.registry.files.Lists file k ↔ file = d.unit.file) ∧
    (∀ file k, e.registry.files.Lists file k → k ∈ e.registry.entries) ∧
    (∀ file keys, e.registry.files.get? file = some keys → ∃ k, k ∈ keys) := by
  have hregular : e.registry.Regular := h.regular hapart
  refine ⟨fun k d hd => hregular.keyed k d.unit d.count (Registry.tally_of_get? hd),
    hregular.ofEntries_eq, fun k d hd file => ?_, fun file k hl => ?_, hregular.populated⟩
  · rw [hregular.indexed file k]
    constructor
    · rintro ⟨d', hd', hfile⟩
      rw [hd, Option.some.injEq] at hd'
      rw [← hfile, hd']
    · exact fun hfile => ⟨d, hd, hfile.symm⟩
  · obtain ⟨d, hd, -⟩ := (hregular.indexed file k).mp hl
    exact SortedMap.mem_of_get? hd

/-! ### A rename to a tracked file, a merge, and a restored state -/

namespace Sample

/-- Two files have a function of one name, and one of them gets the path of the other. -/
def overlaid : List Commit :=
  [⟨"one", 1, [added "a.go" [foo]]⟩, ⟨"two", 1, [added "b.go" [foo]]⟩,
    ⟨"three", 1, [edited "a.go" "b.go" [foo]]⟩]

/-- An engine that is restored from one that has consumed this, and was merged with a fork. -/
def restored : Engine :=
  (Engine.new query 0).restore
    (((Engine.new query 0).run overlaid).merge [(Engine.new query 0).step first]).state

/-- The events that it comes from. -/
def restoredVisits : List (Registry.Pass × Event) :=
  (Engine.new query 0).visits overlaid ++ (Engine.new query 0).visits [first]

/-- The sample engine is reached through a run, a merge of a fork, and a state that is taken
over. -/
theorem reached_restored : restored.Reached restoredVisits := by
  have hnew : (Engine.new query 0).Reached [] := .new query 0
  have hfork : ((Engine.new query 0).step first).Reached ((Engine.new query 0).visits [first]) :=
    (Engine.Reached.fork (n := 1) hnew (List.mem_replicate.mpr ⟨Nat.one_ne_zero, rfl⟩)).consume
      first
  have hrun : ((Engine.new query 0).run overlaid).Reached ((Engine.new query 0).visits overlaid) :=
    ((hnew.consume _).consume _).consume _
  have hmerge := hrun.merge [(_, _)] (List.forall_mem_singleton.mpr hfork)
  exact hnew.restore hmerge

end Sample

/-- Its index is the one that its entries give, although a file was renamed onto another one on the
way. -/
theorem index_of_reached_sample :
    Sample.restored.Reached Sample.restoredVisits ∧
    (∀ visit ∈ Sample.restoredVisits, CodeUnit.KeysApart (visit.1.met visit.2)) ∧
    Sample.restored.registry.reindex = Sample.restored.registry ∧
    ∀ file, Sample.restored.registry.files.Lists file "Function_foo_b.go" ↔ file = "b.go" := by
  have hapart : ∀ visit ∈ Sample.restoredVisits, CodeUnit.KeysApart (visit.1.met visit.2) := by
    decide +kernel
  obtain ⟨-, hindex, hlisted, -, -⟩ :=
    index_of_reached Sample.restored Sample.restoredVisits Sample.reached_restored hapart
  have htally : Sample.restored.registry.tally "Function_foo_b.go" =
      some (Sample.unit "foo" "b.go", 2) := by decide +kernel
  obtain ⟨d, hd, hunit, -⟩ := Registry.tally_eq_some_iff.mp htally
  refine ⟨Sample.reached_restored, hapart, hindex, fun file => ?_⟩
  rw [hlisted _ d hd, hunit]
  rfl

end CoChange
