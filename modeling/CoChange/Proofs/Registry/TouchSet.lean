import CoChange.Proofs.Registry.Removal
import CoChange.Proofs.Registry.Trail

/-!
# The touched keys of a commit

A commit remembers what it has touched by key, and a rename changes keys. So a unit that is touched
and then renamed in one commit leaves a key among the touched ones that is no longer its own: when
the pairs are counted, that key becomes a peer that is not there, and when the unit is touched again
it is counted again.

* **`closed_applyCommit_iff`**: when all peers are there after a commit.
* **`step_keeps_laws_iff`**: the laws of couplings and the growth of counts over a commit, each with
  the condition under which it holds.
* **`coherent_step`**, **`not_countsTwice`**: the laws hold, and no unit is counted twice, if no
  rename moves what the commit has touched before.
-/

namespace CoChange

namespace Registry

namespace Pass

/-! ## Touched units that stay -/

section Stay

variable {p : Pass} {events : List Event}

/-- No rename moves a key that was touched before. -/
def TouchedStay (p : Pass) (events : List Event) : Prop :=
  AtRenames (fun p source target => ∀ k, k ∈ p.touched →
    k ∉ p.registry.moves source target) p events

theorem touched_apply {k : String} (h : k ∈ p.touched) (event : Event) :
    k ∈ (p.apply event).touched := by
  cases event with
  | rename source target => exact h
  | touch u => exact mem_touched_touch.mpr (Or.inr h)

theorem advance_of_touched {event : Event} (h : p.TouchedStay [event]) {k : String}
    (hk : k ∈ p.touched) : p.advance event k = k := by
  cases event with
  | rename source target => exact newKey_of_not_mem (h [] source target [] rfl k hk)
  | touch u => rfl

/-- Keys that were touched lead nowhere else. -/
theorem trail_of_touched (h : p.TouchedStay events) {k : String} (hk : k ∈ p.touched) :
    trail events p k = k := by
  induction events generalizing p with
  | nil => rfl
  | cons event rest ih =>
    rw [trail, advance_of_touched h.head hk]
    exact ih h.tail (touched_apply hk event)

/-- **All touched keys are keys of units that are there.** A key that was touched is not moved away
later, so its entry stays where it is. -/
theorem there_of_touchedStay (hm : p.registry.entries.Mutual) (hsep : p.Separated events)
    (h : p.TouchedStay events) (hthere : ∀ k, k ∈ p.touched → k ∈ p.registry.entries) {k : String}
    (hk : k ∈ (events.foldl apply p).touched) : k ∈ (events.foldl apply p).registry.entries := by
  induction events generalizing p with
  | nil => exact hthere k hk
  | cons event rest ih =>
    refine ih (mutual_apply hm hsep.head) hsep.tail h.tail (fun j hj => ?_) hk
    -- a key was touched before, and its unit stays, or it is touched now
    have hstay : ∀ j, j ∈ p.touched → j ∈ (p.apply event).registry.entries := fun j hj => by
      have hadv := advance_mem hm hsep.head (hthere j hj)
      rwa [advance_of_touched h.head hj] at hadv
    cases event with
    | rename source target => exact hstay j hj
    | touch u =>
      exact (mem_touched_touch.mp hj).elim (fun heq => mem_touch.mpr (Or.inl heq)) (hstay j)

/-- **No unit is counted twice.** A second touch of a unit would be under the key of the first one,
where it is not counted. -/
theorem not_countsTwice (h : p.TouchedStay events) (k' : String) : ¬ p.CountsTwice events k' := by
  rintro ⟨first, u, middle, v, last, rfl, _, htrail, hnew, _⟩
  have hmiddle : ((first.foldl apply p).touch u).TouchedStay middle := h.right.tail.left
  have hu : u.key ∈ ((first.foldl apply p).touch u).touched := mem_touched_touch.mpr (Or.inl rfl)
  rw [trail_of_touched hmiddle hu] at htrail
  exact hnew (htrail ▸ mem_touched_foldl.mpr (Or.inr hu))

end Stay

end Pass

end Registry

namespace Engine

open Registry

section Commit

variable {q : UnitQuery} {cap : Nat} {r : Registry} {c : Commit}

/-- Each rename of the commit, when it is applied, gives no two units one key. -/
def RenamesSeparate (q : UnitQuery) (r : Registry) (c : Commit) : Prop :=
  Pass.AtRenames (fun p source target => p.registry.Separates source target) ⟨r, ∅⟩ (c.events q)

theorem RenamesSeparate.separated (h : RenamesSeparate q r c) :
    Pass.Separated ⟨r, ∅⟩ (c.events q) := fun done source target ahead heq => by
  refine ⟨Commit.ne_of_rename_mem_events (q := q) (c := c) ?_, h done source target ahead heq⟩
  rw [heq]
  exact List.mem_append_right _ List.mem_cons_self

theorem mutual_passOf (hm : r.entries.Mutual) (hsep : RenamesSeparate q r c) :
    (passOf q r c).registry.entries.Mutual := Pass.mutual_foldl hm hsep.separated

/-- Couplings stay symmetric when pairs are counted, since each pair is counted on both sides. -/
theorem symmetric_coupleWithin (h : r.entries.Symmetric) (cap : Nat) (touched : SortedSet String) :
    (r.coupleWithin cap touched).entries.Symmetric := by
  unfold coupleWithin
  split
  · exact h.couple touched
  · exact h

/-- What a commit leaves prunes what its events leave, with the pairs counted. -/
theorem prunes_applyCommit (cap : Nat) (hm : r.entries.Mutual) (hsep : RenamesSeparate q r c) :
    ((passOf q r c).registry.coupleWithin cap (passOf q r c).touched).entries.Prunes
      (applyCommit q cap r c).registry.entries := by
  rw [applyCommit_eq]
  exact prunes_dropFiles (symmetric_coupleWithin (mutual_passOf hm hsep).symmetric cap _) c

/-- Counting pairs and removing files leaves the counts of what is left. -/
theorem countAt_applyCommit (cap : Nat) (hm : r.entries.Mutual) (hsep : RenamesSeparate q r c)
    {k : String} (hk : k ∈ (applyCommit q cap r c).registry.entries) :
    k ∈ (passOf q r c).registry.entries ∧
      (applyCommit q cap r c).registry.entries.countAt k =
        (passOf q r c).registry.entries.countAt k := by
  obtain ⟨e', he'⟩ := SortedMap.mem_iff.mp hk
  obtain ⟨e, he, _, hcount, _⟩ := prunes_applyCommit cap hm hsep k e' he'
  -- counting pairs leaves the counts of the units
  have hsame : ∃ e₀, (passOf q r c).registry.entries.get? k = some e₀ ∧ e.count = e₀.count := by
    unfold coupleWithin at he
    split at he
    · rw [get?_couple, Option.map_eq_some_iff] at he
      obtain ⟨e₀, he₀, rfl⟩ := he
      exact ⟨e₀, he₀, by split <;> rfl⟩
    · exact ⟨e, he, rfl⟩
  obtain ⟨e₀, he₀, hcount₀⟩ := hsame
  exact ⟨SortedMap.mem_of_get? he₀, by
    rw [Entries.countAt_of_get? he', Entries.countAt_of_get? he₀, hcount, hcount₀]⟩

/-- **All peers are there after a commit** exactly if its pairs are not counted, or nothing that it
has touched is left, or no touched key was left behind by a rename. -/
theorem closed_applyCommit_iff (hm : r.entries.Mutual) (hsep : RenamesSeparate q r c) :
    (applyCommit q cap r c).registry.entries.Closed ↔
      (withinCap cap (passOf q r c).touched = true →
        (∃ j, j ∈ (passOf q r c).touched ∧ j ∈ (applyCommit q cap r c).registry.entries) →
          ∀ k, k ∈ (passOf q r c).touched → k ∈ (passOf q r c).registry.entries) := by
  have hpass := mutual_passOf hm hsep
  have hprunes := prunes_applyCommit cap hm hsep
  have hleft : ∀ k, k ∈ (applyCommit q cap r c).registry.entries →
      k ∈ (passOf q r c).registry.entries := fun k hk => (countAt_applyCommit cap hm hsep hk).1
  rw [hprunes.closed_iff]
  cases hcap : withinCap cap (passOf q r c).touched with
  | false =>
    rw [coupleWithin, hcap]
    exact iff_of_true (fun j k n _ hn => hpass.closed j k n hn) (fun h => absurd h (by simp))
  | true =>
    rw [coupleWithin, hcap, if_pos rfl]
    constructor
    · -- every touched key becomes a peer of a touched unit that is left
      rintro h - ⟨j, hjt, hj⟩ k hkt
      by_cases hjk : k = j
      · exact hjk ▸ hleft j hj
      · exact mem_couple.mp (h j k _ hj (by
          rw [coupling_couple, if_pos ⟨hjt, hkt, hjk, hleft j hj⟩]))
    · -- a peer is new, and then both keys are touched, or it was there before
      intro h j k n hj hn
      rw [coupling_couple] at hn
      refine mem_couple.mpr ?_
      by_cases hpair : j ∈ (passOf q r c).touched ∧ k ∈ (passOf q r c).touched ∧ k ≠ j ∧
          j ∈ (passOf q r c).registry.entries
      · exact h rfl ⟨j, hpair.1, hj⟩ k hpair.2.1
      · rw [if_neg hpair] at hn
        exact hpass.closed j k n hn

end Commit

/-! ## A step of the engine -/

section Step

variable {e : Engine} {c : Commit}

/-- The events of a commit that an engine applies: of a merge that it passes over, none. -/
def eventsOf (e : Engine) (c : Commit) : List Event := if e.takes c then c.events e.query else []

/-- A unit that is left after a commit has grown by at most one exactly if it is not counted
twice. -/
theorem grows_step_iff (hm : e.registry.entries.Mutual)
    (hsep : RenamesSeparate e.query e.registry c) {k' : String}
    (hk' : k' ∈ (e.step c).registry.entries) :
    Pass.GrowsOnce ⟨e.registry, ∅⟩ (e.eventsOf c) k' ((e.step c).registry.entries.countAt k') ↔
      ¬ Pass.CountsTwice ⟨e.registry, ∅⟩ (e.eventsOf c) k' := by
  rw [registry_step] at hk' ⊢
  unfold eventsOf
  cases htakes : e.takes c with
  | true =>
    rw [htakes, if_pos rfl] at hk'
    obtain ⟨hpass, hcount⟩ := countAt_applyCommit e.cap hm hsep hk'
    rw [if_pos rfl, if_pos rfl, hcount]
    exact Pass.grows_iff hm hsep.separated hpass
  | false =>
    rw [htakes, if_neg (by simp)] at hk'
    -- a commit that is passed over has no events
    have hnone : Pass.Separated ⟨e.registry, ∅⟩ [] := fun done source target ahead heq =>
      absurd heq (by simp)
    rw [if_neg (by simp), if_neg (by simp)]
    exact Pass.grows_iff hm hnone hk'

/-- **Over a commit that renames nothing while it still has to touch it, the couplings stay
coherent.** All renames have to keep the units apart. -/
theorem coherent_step (h : e.registry.entries.Coherent)
    (hsep : RenamesSeparate e.query e.registry c)
    (hstay : Pass.TouchedStay ⟨e.registry, ∅⟩ (c.events e.query)) :
    (e.step c).registry.entries.Coherent := by
  have hm : e.registry.entries.Mutual := ⟨h.symmetric, h.closed⟩
  -- what is touched is there when the pairs are counted
  have hthere : ∀ k, k ∈ (passOf e.query e.registry c).touched →
      k ∈ (passOf e.query e.registry c).registry.entries := fun k hk =>
    Pass.there_of_touchedStay hm hsep.separated hstay
      (fun j hj => absurd hj (SortedMap.not_mem_empty j)) hk
  have hirr : (passOf e.query e.registry c).registry.entries.Irreflexive :=
    Pass.irreflexive_foldl hm h.irreflexive hsep.separated
  have hpass := mutual_passOf hm hsep
  have hcoupled : ((passOf e.query e.registry c).registry.coupleWithin e.cap
      (passOf e.query e.registry c).touched).entries.Coherent := by
    have hcoh : (passOf e.query e.registry c).registry.entries.Coherent :=
      ⟨hpass.symmetric, hpass.closed, hirr⟩
    unfold coupleWithin
    split
    · exact hcoh.couple hthere
    · exact hcoh
  rw [registry_step]
  split
  · have hprunes := prunes_applyCommit e.cap hm hsep
    exact ⟨hprunes.symmetric hcoupled.symmetric, hprunes.closed hcoupled.closed,
      hprunes.irreflexive hcoupled.irreflexive⟩
  · exact h

end Step

end Engine

/-- **What a commit keeps.** If every rename keeps the units apart when it is applied, the couplings
stay symmetric. All peers are there afterwards exactly if the pairs are not counted, or nothing that
was touched is left, or every touched key still has its unit before the pairs are counted. And no
unit has grown by more than one exactly if no two touches count a unit that is left. -/
theorem step_keeps_laws_iff (e : Engine) (c : Commit) (hsym : e.registry.entries.Symmetric)
    (hclosed : e.registry.entries.Closed) (hsep : Engine.RenamesSeparate e.query e.registry c) :
    let start : Registry.Pass := ⟨e.registry, ∅⟩
    let pass := Engine.passOf e.query e.registry c
    let after := (e.step c).registry.entries
    after.Symmetric ∧
    (after.Closed ↔
      (e.takes c = true → Registry.withinCap e.cap pass.touched = true →
        (∃ j, j ∈ pass.touched ∧ j ∈ after) → ∀ k, k ∈ pass.touched → k ∈ pass.registry.entries)) ∧
    ((∀ k, k ∈ after → start.GrowsOnce (e.eventsOf c) k (after.countAt k)) ↔
      ∀ k, k ∈ after → ¬ start.CountsTwice (e.eventsOf c) k) := by
  intro start pass after
  have hm : e.registry.entries.Mutual := ⟨hsym, hclosed⟩
  refine ⟨?_, ?_, forall₂_congr fun k hk => Engine.grows_step_iff hm hsep hk⟩
  · show (e.step c).registry.entries.Symmetric
    rw [Engine.registry_step]
    split
    · have hpass := Engine.mutual_passOf hm hsep
      exact (Engine.prunes_applyCommit e.cap hm hsep).symmetric
        (Engine.symmetric_coupleWithin hpass.symmetric e.cap _)
    · exact hsym
  · show (e.step c).registry.entries.Closed ↔ _ → _ → (∃ j, _ ∧ j ∈ (e.step c).registry.entries) → _
    rw [Engine.registry_step]
    cases e.takes c with
    | true =>
      rw [if_pos rfl, Engine.closed_applyCommit_iff hm hsep]
      exact ⟨fun h _ => h, fun h => h rfl⟩
    | false =>
      rw [if_neg (by simp)]
      exact iff_of_true hclosed fun h => absurd h (by simp)

/-! ### One rename

A file is renamed and then edited in one commit, and edited, renamed and edited again. -/

namespace Sample

/-- The engine after a file with two functions was added. -/
def engine : Engine := (Engine.new query 0).run [first]

/-- The couplings of the sample engine are mutual, as they come from one commit. -/
theorem mutual_engine : engine.registry.entries.Mutual := by
  have hcoh : engine.registry.entries.Coherent :=
    Engine.coherent_step (e := Engine.new query 0) (c := first) Entries.coherent_empty
      (Registry.Pass.atRenames_nil.touch.touch : Registry.Pass.AtRenames _ _ (first.events query))
      (Registry.Pass.atRenames_nil.touch.touch : Registry.Pass.AtRenames _ _ (first.events query))
  exact ⟨hcoh.symmetric, hcoh.closed⟩

/-- In the sample, the renaming gives no two keys one key. -/
theorem separates_engine : engine.registry.Separates "a.go" "b.go" := by
  have hkeyed : ∀ a ∈ engine.registry.entries.toList, a.2.unit.key = a.1 := by decide +kernel
  have hfree : ∀ a ∈ engine.registry.entries.toList, a.2.unit.file ≠ "b.go" := by decide +kernel
  have hdistinct : ∀ a ∈ engine.registry.entries.toList, ∀ b ∈ engine.registry.entries.toList,
      (a.2.unit.relocated "b.go").key = b.2.unit.key → a.2.unit.relocated "b.go" = b.2.unit := by
    decide +kernel
  exact Registry.separates_of_untracked (Registry.isConsistent_iff.mp (by decide +kernel))
    (fun k e he => hkeyed (k, e) (SortedMap.get?_eq_some_iff.mp he))
    (fun k e he => hfree (k, e) (SortedMap.get?_eq_some_iff.mp he))
    (fun j k d e hd _ he => hdistinct (j, d) (SortedMap.get?_eq_some_iff.mp hd) (k, e)
      (SortedMap.get?_eq_some_iff.mp he))

/-- Edits a function and adds another one, then renames the first file and edits the function
again. -/
def between : Commit :=
  ⟨"between", 1,
    [edited "a.go" "a.go" [foo, bar], added "x.go" [bar], edited "a.go" "b.go" [foo, bar]]⟩

theorem events_between : between.events query =
    [.touch (unit "foo" "a.go"), .touch (unit "bar" "x.go"), .rename "a.go" "b.go",
      .touch (unit "foo" "b.go")] := rfl

end Sample

/-- A commit that renames a file and touches a unit of it only afterwards leaves couplings symmetric
and without peers that are not there. -/
theorem step_keeps_laws_sample :
    let e := Sample.engine
    let after := (e.step Sample.second).registry.entries
    e.registry.entries.Symmetric ∧ e.registry.entries.Closed ∧
      Engine.RenamesSeparate e.query e.registry Sample.second ∧ after.Symmetric ∧ after.Closed := by
  intro e after
  have hsep : Engine.RenamesSeparate e.query e.registry Sample.second :=
    (Registry.Pass.atRenames_nil.touch.rename Sample.separates_engine :
      Registry.Pass.AtRenames _ _ (Sample.second.events Sample.query))
  have hm := Sample.mutual_engine
  obtain ⟨hsym, hclosed, _⟩ := step_keeps_laws_iff e Sample.second hm.symmetric hm.closed hsep
  have hthere : ∀ k ∈ (Engine.passOf e.query e.registry Sample.second).touched.keys,
      k ∈ (Engine.passOf e.query e.registry Sample.second).registry.entries := by decide +kernel
  exact ⟨hm.symmetric, hm.closed, hsep, hsym,
    hclosed.mpr fun _ _ _ k hk => hthere k (SortedMap.mem_keys.mpr hk)⟩

/-- A unit that is touched, moved to a free path and touched again is counted twice by one commit,
and the other unit that the commit touches keeps its old key as a peer. -/
theorem touched_between_renames :
    let e := Sample.engine
    let after := (e.step Sample.between).registry.entries
    e.registry.entries.Symmetric ∧ e.registry.entries.Closed ∧
      Registry.Pass.AtRenames (fun p _ target => p.registry.files.get? target = none)
        ⟨e.registry, ∅⟩ (Sample.between.events e.query) ∧
      ¬ after.Closed ∧
      Registry.Pass.trail (Sample.between.events e.query) ⟨e.registry, ∅⟩ "Function_foo_a.go" =
        "Function_foo_b.go" ∧
      after.countAt "Function_foo_b.go" = e.registry.entries.countAt "Function_foo_a.go" + 2 := by
  have hfree : Registry.Pass.AtRenames (fun p _ target => p.registry.files.get? target = none)
      ⟨Sample.engine.registry, ∅⟩ (Sample.between.events Sample.query) := by
    rw [Sample.events_between]
    exact (Registry.Pass.atRenames_nil.touch.rename (by decide +kernel)).touch.touch
  refine ⟨Sample.mutual_engine.symmetric, Sample.mutual_engine.closed, hfree, fun hclosed => ?_,
    by decide +kernel, by decide +kernel⟩
  have hpeer : (Sample.engine.step Sample.between).registry.entries.coupling "Function_bar_x.go"
      "Function_foo_a.go" = some 1 := by decide +kernel
  exact absurd (hclosed _ _ 1 hpeer) (by decide +kernel)

end CoChange
