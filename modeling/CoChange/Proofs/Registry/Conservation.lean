import CoChange.Proofs.Journal.Refinement
import Mathlib.Algebra.BigOperators.Group.Finset.Basic
import Mathlib.Algebra.Order.BigOperators.Group.Finset

/-!
# What a rename keeps

A rename moves counts; it neither makes nor adds them. Every entry behind it has the count of one
before it, so the total can only shrink, and it shrinks exactly if two units get one key: then one
of them is lost.

* **`total_eq_sum`**: the total as a sum over the keys.
* **`total_rename_le`**, **`total_rename_eq_iff`**: the total after a rename, if every unit has been
  changed at least once.
* **`positive_run`**: which holds of every registry that an engine comes to.
* **`rename_keeps_state_iff`**: a rename of such a registry keeps the total, and with it the laws of
  couplings, exactly if it separates the units.
-/

namespace CoChange

namespace Entries

def Positive (es : Entries) : Prop := ∀ k e, es.get? k = some e → 0 < e.count

/-- Every count behind a step is the count of a unit before it. -/
def Inherits (es es' : Entries) : Prop :=
  ∀ k' e', es'.get? k' = some e' → ∃ k e, es.get? k = some e ∧ e'.count = e.count

theorem Inherits.refl (es : Entries) : es.Inherits es := fun k e he => ⟨k, e, he, rfl⟩

/-- What inherits from heirs inherits from the first ones. -/
theorem Inherits.trans {es es' es'' : Entries} (h : es.Inherits es') (h' : es'.Inherits es'') :
    es.Inherits es'' := by
  intro k'' e'' he''
  obtain ⟨k', e', he', hcount'⟩ := h' k'' e'' he''
  obtain ⟨k, e, he, hcount⟩ := h k' e' he'
  exact ⟨k, e, he, hcount'.trans hcount⟩

/-- Heirs have positive counts, as theirs are those of some entries before. -/
theorem Positive.inherit {es es' : Entries} (hpos : es.Positive) (h : es.Inherits es') :
    es'.Positive := by
  intro k' e' he'
  obtain ⟨k, e, he, hcount⟩ := h k' e' he'
  rw [hcount]
  exact hpos k e he

/-! ## The total as a sum -/

/-- **The total is the sum of the counts over all keys.** So totals can be compared over sets of
keys. -/
theorem total_eq_sum (es : Entries) : es.total = ∑ k ∈ es.keys.toFinset, es.countAt k := by
  rw [List.sum_toFinset _ (SortedMap.nodup_keys es), total, SortedMap.values, SortedMap.keys,
    List.map_map, List.map_map]
  refine congrArg List.sum (List.map_congr_left fun a ha => ?_)
  exact (countAt_of_get? (SortedMap.get?_of_mem_toList ha)).symm

end Entries

namespace Registry

/-! ## Renames -/

section Rename

variable {source target : String} {r : Registry}

/-- Every entry behind a rename has the count of an entry that it gave this key. -/
theorem origin_rename (hne : source ≠ target) {k' : String} {e' : Entry}
    (h : (r.rename source target).entries.get? k' = some e') :
    ∃ k e, r.entries.get? k = some e ∧ r.newKey source target k = k' ∧ e'.count = e.count := by
  cases hf : r.files.get? source with
  | none =>
    rw [rename_of_none hf] at h
    exact ⟨k', e', h, newKey_of_not_mem (not_mem_moves_of_none hf target k'), rfl⟩
  | some keys =>
    rw [rename_of_some hne hf, SortedMap.get?_mapValues, Option.map_eq_some_iff] at h
    obtain ⟨e, he, rfl⟩ := h
    have hcount : (if k' ∈ r.affected .byKey source target then
        relabelEntry (r.moves source target) e
        else e).count = e.count := by
      split
      · rw [relabelEntry_eq]
      · rfl
    rw [hcount]
    -- the entry was put back under a new key, or has stayed
    rw [shifted] at he
    rcases SortedMap.get?_foldl_insert_cases he with hmoved | hstayed
    · obtain ⟨u, hu, heq⟩ := List.mem_map.mp hmoved
      obtain ⟨rfl, rfl⟩ := Prod.mk.inj heq
      exact ⟨u.1, u.2, (mem_unitsInOrder.mp hu).2, rfl, rfl⟩
    · rw [SortedMap.get?_foldl_erase] at hstayed
      split at hstayed
      · exact absurd hstayed (by simp)
      · rename_i hnot
        rw [mem_map_fst_unitsInOrder target] at hnot
        exact ⟨k', e, hstayed, newKey_of_not_mem hnot, rfl⟩

/-- Each entry behind a renaming inherits its count from an entry in front of it. -/
theorem inherits_rename (source target : String) (r : Registry) :
    r.entries.Inherits (r.rename source target).entries := by
  by_cases hne : source = target
  · rw [hne, rename_self]
    exact .refl _
  · intro k' e' he'
    obtain ⟨k, e, he, _, hcount⟩ := origin_rename hne he'
    exact ⟨k, e, he, hcount⟩

/-- A choice of keys: for each key behind the rename, one that it comes from with its count. -/
def IsOrigin (source target : String) (r : Registry) (origin : String → String) : Prop :=
  ∀ k', k' ∈ (r.rename source target).entries →
    origin k' ∈ r.entries ∧ r.newKey source target (origin k') = k' ∧
      (r.rename source target).entries.countAt k' = r.entries.countAt (origin k')

/-- There is a way to tell for each entry behind a renaming which entry it comes from. Where two
have become one, it is the one that stays. -/
theorem exists_isOrigin (hne : source ≠ target) : ∃ origin, r.IsOrigin source target origin := by
  have hone : ∀ k', ∃ k, k' ∈ (r.rename source target).entries →
      k ∈ r.entries ∧ r.newKey source target k = k' ∧
        (r.rename source target).entries.countAt k' = r.entries.countAt k := by
    intro k'
    by_cases hk' : k' ∈ (r.rename source target).entries
    · obtain ⟨e', he'⟩ := SortedMap.mem_iff.mp hk'
      obtain ⟨k, e, he, hk, hcount⟩ := origin_rename hne he'
      refine ⟨k, fun _ => ⟨SortedMap.mem_of_get? he, hk, ?_⟩⟩
      rw [Entries.countAt_of_get? he', Entries.countAt_of_get? he, hcount]
    · exact ⟨k', fun h => absurd h hk'⟩
  exact Classical.skolem.mp hone

section Origin

variable {origin : String → String} (h : r.IsOrigin source target origin)

include h

/-- The total behind a rename is the sum of the counts of the keys that it comes from. -/
theorem IsOrigin.total_rename :
    (r.rename source target).entries.total =
      ∑ k ∈ (r.rename source target).entries.keys.toFinset.image origin, r.entries.countAt k := by
  have hmem : ∀ k', k' ∈ (r.rename source target).entries.keys.toFinset →
      k' ∈ (r.rename source target).entries := fun k' hk' =>
    SortedMap.mem_keys.mp (List.mem_toFinset.mp hk')
  rw [Entries.total_eq_sum, Finset.sum_image]
  · exact Finset.sum_congr rfl fun k' hk' => (h k' (hmem k' hk')).2.2
  · intro j hj k hk heq
    rw [← (h j (hmem j hj)).2.1, ← (h k (hmem k hk)).2.1, heq]

/-- All origins are keys that were there. -/
theorem IsOrigin.image_subset :
    (r.rename source target).entries.keys.toFinset.image origin ⊆ r.entries.keys.toFinset := by
  intro k hk
  obtain ⟨k', hk', rfl⟩ := Finset.mem_image.mp hk
  exact List.mem_toFinset.mpr (SortedMap.mem_keys.mpr
    (h k' (SortedMap.mem_keys.mp (List.mem_toFinset.mp hk'))).1)

/-- A key is an origin exactly if it is the one that its own new key comes from. -/
theorem IsOrigin.mem_image_iff (hne : source ≠ target) {k : String} (hk : k ∈ r.entries) :
    k ∈ (r.rename source target).entries.keys.toFinset.image origin ↔
      origin (r.newKey source target k) = k := by
  rw [Finset.mem_image]
  constructor
  · rintro ⟨k', hk', rfl⟩
    rw [(h k' (SortedMap.mem_keys.mp (List.mem_toFinset.mp hk'))).2.1]
  · intro heq
    refine ⟨r.newKey source target k, ?_, heq⟩
    exact List.mem_toFinset.mpr (SortedMap.mem_keys.mpr ((mem_entries_rename hne).mpr ⟨k, hk, rfl⟩))

/-- A key that is no origin is missing from the total behind the rename, with its positive count. -/
theorem IsOrigin.origin_newKey (hne : source ≠ target) (hpos : r.entries.Positive)
    (hsum : (r.rename source target).entries.total = r.entries.total) {k : String}
    (hk : k ∈ r.entries) : origin (r.newKey source target k) = k := by
  by_contra hnot
  obtain ⟨e, he⟩ := SortedMap.mem_iff.mp hk
  have hlt := Finset.sum_lt_sum_of_subset h.image_subset
    (List.mem_toFinset.mpr (SortedMap.mem_keys.mpr hk)) ((h.mem_image_iff hne hk).not.mpr hnot)
    (Entries.countAt_of_get? he ▸ hpos k e he) (fun _ _ _ => Nat.zero_le _)
  rw [← h.total_rename, ← Entries.total_eq_sum] at hlt
  exact Nat.ne_of_lt hlt hsum

end Origin

/-- **A rename never adds to the total.** Each entry behind the rename has the count of one entry in
front of it, and no two have it from the same. -/
theorem total_rename_le (hne : source ≠ target) :
    (r.rename source target).entries.total ≤ r.entries.total := by
  obtain ⟨origin, h⟩ := exists_isOrigin (r := r) hne
  rw [h.total_rename, Entries.total_eq_sum]
  exact Finset.sum_le_sum_of_subset h.image_subset

/-- **A rename keeps the total exactly if it gives no two units one key.** If two keys become one,
the count of one of them is lost, and it was positive. -/
theorem total_rename_eq_iff (hne : source ≠ target) (hpos : r.entries.Positive) :
    (r.rename source target).entries.total = r.entries.total ↔ r.Separates source target := by
  obtain ⟨origin, h⟩ := exists_isOrigin (r := r) hne
  constructor
  · intro hsum j k hj hk heq
    rw [← h.origin_newKey hne hpos hsum hj, ← h.origin_newKey hne hpos hsum hk, heq]
  · intro hsep
    rw [h.total_rename, Entries.total_eq_sum]
    refine congrArg (fun s => Finset.sum s r.entries.countAt)
      (Finset.Subset.antisymm h.image_subset ?_)
    intro k hk
    have hkr : k ∈ r.entries := SortedMap.mem_keys.mp (List.mem_toFinset.mp hk)
    have hthere := h (r.newKey source target k) ((mem_entries_rename hne).mpr ⟨k, hkr, rfl⟩)
    exact (h.mem_image_iff hne hkr).mpr (hsep _ _ hthere.1 hkr hthere.2.1)

end Rename

/-! ## Other steps -/

/-- Counting pairs leaves every count with its key. -/
theorem inherits_couple (touched : SortedSet String) (r : Registry) :
    r.entries.Inherits (r.couple touched).entries := by
  intro k e' he'
  rw [get?_couple, Option.map_eq_some_iff] at he'
  obtain ⟨e, he, rfl⟩ := he'
  exact ⟨k, e, he, by split <;> rfl⟩

/-- Within a cap or not, counting pairs leaves every count with its key. -/
theorem inherits_coupleWithin (cap : Nat) (touched : SortedSet String) (r : Registry) :
    r.entries.Inherits (r.coupleWithin cap touched).entries := by
  unfold coupleWithin
  split
  · exact inherits_couple touched r
  · exact .refl _

/-- What is left behind the removal of an entry inherits from what was there. -/
theorem inherits_removeEntry (key : String) (es : Entries) : es.Inherits (removeEntry key es) := by
  intro k e' he'
  rw [get?_removeEntry] at he'
  cases hkey : es.get? key with
  | none =>
    rw [hkey] at he'
    exact ⟨k, e', he', rfl⟩
  | some e₀ =>
    simp only [hkey] at he'
    split at he'
    · exact absurd he' (by simp)
    · obtain ⟨e, he, rfl⟩ := Option.map_eq_some_iff.mp he'
      exact ⟨k, e, he, by split <;> rfl⟩

/-- What is left behind the removal of a file inherits from what was there. -/
theorem inherits_removeFile (file : String) (r : Registry) :
    r.entries.Inherits (r.removeFile file).entries := by
  unfold removeFile
  cases r.files.get? file with
  | none => exact .refl _
  | some keys =>
    show r.entries.Inherits (keys.keys.foldl (fun es key => removeEntry key es) r.entries)
    generalize r.entries = es
    induction keys.keys generalizing es with
    | nil => exact .refl _
    | cons key rest ih => exact (inherits_removeEntry key es).trans (ih _)

end Registry

namespace Entries

open Registry

/-- A touch leaves every count positive: a new one is one, and an old one does not fall. -/
theorem Positive.touch {p : Pass} (h : p.registry.entries.Positive) (u : CodeUnit) :
    (p.touch u).registry.entries.Positive := by
  intro k e he
  rw [Pass.get?_touch] at he
  split at he
  · rw [← Option.some.inj he]
    cases hold : p.registry.entries.get? k with
    | none => exact Nat.one_pos
    | some e₀ =>
      by_cases ht : k ∈ p.touched
      · simpa [ht] using h k e₀ hold
      · simp [ht]
  · exact h k e he

/-- All counts are positive after any events, if they were before. A renaming takes its counts from
old ones. -/
theorem Positive.events {p : Pass} (h : p.registry.entries.Positive) (events : List Event) :
    (events.foldl Pass.apply p).registry.entries.Positive := by
  induction events generalizing p with
  | nil => exact h
  | cons event rest ih =>
    cases event with
    | rename source target => exact ih (h.inherit (inherits_rename source target p.registry))
    | touch u => exact ih (h.touch u)

end Entries

namespace Engine

open Registry

/-- What is left behind the deletions of a commit inherits from what was there. -/
theorem inherits_dropFiles (r : Registry) (c : Commit) :
    r.entries.Inherits (dropFiles r c).entries := by
  unfold dropFiles
  induction deletedFiles c generalizing r with
  | nil => exact .refl _
  | cons file rest ih => exact (inherits_removeFile file r).trans (ih _)

/-- All counts are positive after a commit, if they were before. -/
theorem positive_step {e : Engine} (h : e.registry.entries.Positive) (c : Commit) :
    (e.step c).registry.entries.Positive := by
  rw [registry_step]
  split
  · rw [applyCommit_eq]
    have hpass : (passOf e.query e.registry c).registry.entries.Positive :=
      Entries.Positive.events (p := ⟨e.registry, ∅⟩) h (c.events e.query)
    exact (hpass.inherit (inherits_coupleWithin _ _ _)).inherit (inherits_dropFiles _ _)
  · exact h

/-- **Every unit of a registry that an engine comes to has been changed at least once.** The
induction is on the commits, where an empty registry has no counts. -/
theorem positive_run (q : UnitQuery) (cap : Nat) (commits : List Commit) :
    ((Engine.new q cap).run commits).registry.entries.Positive := by
  induction commits using List.reverseRecOn with
  | nil => exact fun k e he => absurd he (by simp [Engine.run, Engine.new, Registry.empty])
  | append_singleton before c ih =>
    rw [run_append]
    exact positive_step ih c

end Engine

/-! ## What a rename of a file keeps -/

/-- **A rename after any history keeps the sum of all counts exactly if it gives no two units one
key.** Where the couplings were coherent before, it then keeps them symmetric as well and makes no
unit a peer of itself. -/
theorem rename_keeps_state_iff (q : UnitQuery) (cap : Nat) (commits : List Commit)
    (source target : String) (hne : source ≠ target) :
    let r := ((Engine.new q cap).run commits).registry
    let r' := r.rename source target
    r'.entries.total ≤ r.entries.total ∧
    (r'.entries.total = r.entries.total ↔ r.Separates source target) ∧
    (r.entries.Coherent →
      (r'.entries.total = r.entries.total ∧ r'.entries.Symmetric ∧ r'.entries.Irreflexive ↔
        r.Separates source target)) := by
  intro r r'
  have htotal : r'.entries.total = r.entries.total ↔ r.Separates source target :=
    Registry.total_rename_eq_iff hne (Engine.positive_run q cap commits)
  refine ⟨Registry.total_rename_le hne,
    htotal, fun hcoh => ⟨fun h => htotal.mp h.1, fun hsep => ?_⟩⟩
  exact ⟨htotal.mpr hsep, (hcoh.rename hne hsep).symmetric, (hcoh.rename hne hsep).irreflexive⟩

/-- Renaming a file of two functions to a free path keeps everything. -/
theorem rename_keeps_state_sample :
    let r := ((Engine.new Sample.query 0).run [Sample.first]).registry
    let r' := r.rename "a.go" "b.go"
    "a.go" ≠ "b.go" ∧ r.entries.Coherent ∧ r.entries.total = 2 ∧
      r'.entries.total = r.entries.total ∧ r'.entries.Symmetric ∧ r'.entries.Irreflexive := by
  intro r r'
  have hne : "a.go" ≠ "b.go" := by decide
  have hadm : Admissible Sample.query ([Sample.first] ++ [Sample.second]) := Sample.admissible
  have htracks : Tracks Sample.query 0 [Sample.first]
      ((Engine.new Sample.query 0).run [Sample.first]) := tracks_run hadm.of_append
  have hcoh : r.entries.Coherent := htracks.describes.coherent
  have hkeeps := rename_keeps_state_iff Sample.query 0 [Sample.first] "a.go" "b.go" hne
  have hsep : r.Separates "a.go" "b.go" := hkeeps.2.1.mp (by decide +kernel)
  exact ⟨hne, hcoh, by decide +kernel, (hkeeps.2.2 hcoh).mpr hsep⟩

/-- Two files with a function of one name, added together. -/
def Sample.twins : Commit :=
  ⟨"twins", 1, [Sample.added "a.go" [Sample.foo], Sample.added "b.go" [Sample.foo]]⟩

/-- Renaming one file onto the other loses one of the two counts, and makes the unit that is left a
peer of itself. -/
theorem rename_twins :
    let r := ((Engine.new Sample.query 0).run [Sample.twins]).registry
    let r' := r.rename "a.go" "b.go"
    "a.go" ≠ "b.go" ∧ r.entries.total = 2 ∧ r'.entries.total = 1 ∧ ¬ r'.entries.Irreflexive := by
  refine ⟨by decide, by decide +kernel, by decide +kernel, fun hirr => ?_⟩
  exact absurd (hirr "Function_foo_b.go") (by decide +kernel)

end CoChange
