import CoChange.Proofs.Registry.Index

/-!
# Couplings between units

`Entries.coupling es j k` is the number that the entry under `j` keeps for its peer `k`. Three laws
say that these numbers describe pairs of units that exist:

* **`Entries.Symmetric`**: of two units that are there, each keeps the same number for the other.
  Where numbers do not matter, `Entries.Reciprocal` asks that each lists the other.
* **`Entries.Closed`**: every peer is a unit that is there.
* **`Entries.Irreflexive`**: no unit is a peer of itself.

`coupling_couple` says what counting the pairs of a commit does to these numbers, and
`Symmetric.couple`, `Closed.couple` and `Irreflexive.couple` what it does to the laws. Symmetry
holds whatever the commit touched. That every peer is there depends on the touched keys: one that is
no longer a key makes a peer of nothing.
-/

namespace CoChange

namespace Entries

/-- The number of common changes that the entry under one key keeps for another key. -/
def coupling (es : Entries) (j k : String) : Option Nat :=
  (es.get? j).bind fun e => e.couples.get? k

/-- Two units that are there keep the same number for each other. -/
def Symmetric (es : Entries) : Prop :=
  ∀ j k, j ∈ es → k ∈ es → es.coupling j k = es.coupling k j

/-- Two units that are there list each other as peers, or neither lists the other. -/
def Reciprocal (es : Entries) : Prop :=
  ∀ j k, j ∈ es → k ∈ es → ((∃ n, es.coupling j k = some n) ↔ ∃ n, es.coupling k j = some n)

/-- Every peer is there. -/
def Closed (es : Entries) : Prop :=
  ∀ j k n, es.coupling j k = some n → k ∈ es

def Irreflexive (es : Entries) : Prop :=
  ∀ k, es.coupling k k = none

/-- The first two laws: the couplings describe pairs of units that are there. -/
structure Mutual (es : Entries) : Prop where
  symmetric : es.Symmetric
  closed : es.Closed

/-- All three laws. -/
structure Coherent (es : Entries) : Prop where
  symmetric : es.Symmetric
  closed : es.Closed
  irreflexive : es.Irreflexive

/-- The number of changes of all units together. -/
def total (es : Entries) : Nat := (es.values.map (·.count)).sum

/-- The count of the entry under a key, zero where there is none. -/
def countAt (es : Entries) (k : String) : Nat := ((es.get? k).map (·.count)).getD 0

/-- The count under a key is that of the entry there. -/
theorem countAt_of_get? {es : Entries} {k : String} {e : Entry} (h : es.get? k = some e) :
    es.countAt k = e.count := by
  rw [countAt, h]
  rfl

/-- Under a key without an entry there is no count. -/
theorem countAt_of_not_mem {es : Entries} {k : String} (h : k ∉ es) : es.countAt k = 0 := by
  rw [countAt, SortedMap.get?_eq_none_iff.mpr h]
  rfl

/-- The couplings under a key are those of the entry there. -/
theorem coupling_of_get? {es : Entries} {j : String} {e : Entry} (h : es.get? j = some e)
    (k : String) : es.coupling j k = e.couples.get? k := by
  rw [coupling, h, Option.bind_some]

/-- A key without an entry is coupled with nothing. -/
theorem coupling_eq_none_of_not_mem {es : Entries} {j : String} (h : j ∉ es) (k : String) :
    es.coupling j k = none := by
  rw [coupling, SortedMap.get?_eq_none_iff.mpr h, Option.bind_none]

/-- What is coupled with something has an entry. -/
theorem mem_of_coupling {es : Entries} {j k : String} {n : Nat} (h : es.coupling j k = some n) :
    j ∈ es := by
  by_contra hj
  rw [coupling_eq_none_of_not_mem hj] at h
  exact absurd h (by simp)

/-- Couplings that are the same in both directions are there in both. -/
theorem Symmetric.reciprocal {es : Entries} (h : es.Symmetric) : es.Reciprocal := by
  intro j k hj hk
  rw [h j k hj hk]

/-- No entries have coherent couplings. -/
theorem coherent_empty : Coherent ∅ := by
  have hnone : ∀ j k, coupling ∅ j k = none := fun j k =>
    coupling_eq_none_of_not_mem (SortedMap.not_mem_empty j) k
  refine ⟨fun j k hj _ => absurd hj (SortedMap.not_mem_empty j),
    fun j k n h => ?_, fun k => hnone k k⟩
  rw [hnone] at h
  exact absurd h (by simp)

end Entries

/-! ## Counting the pairs of a commit -/

namespace Registry

/-- Entries are determined by their units and counts, and by the couplings. -/
theorem entries_ext {r r' : Registry} (htally : ∀ k, r.tally k = r'.tally k)
    (hcoupling : ∀ j k, r.entries.coupling j k = r'.entries.coupling j k) : r.entries =
      r'.entries := by
  refine SortedMap.ext_get? fun j => ?_
  have hj := htally j
  rw [tally, tally] at hj
  cases he : r.entries.get? j with
  | none =>
    rw [he, Option.map_none, eq_comm, Option.map_eq_none_iff] at hj
    exact hj.symm
  | some e =>
    rw [he, Option.map_some, eq_comm, Option.map_eq_some_iff] at hj
    obtain ⟨e', he', heq⟩ := hj
    -- an entry is its unit, its count and its peers
    have hcouples : e.couples = e'.couples := SortedMap.ext_get? fun k => by
      rw [← Entries.coupling_of_get? he, ← Entries.coupling_of_get? he', hcoupling]
    obtain ⟨hunit, hcount⟩ := Prod.mk.inj heq
    rw [he', Option.some.injEq, Entry.mk.injEq]
    exact ⟨hunit.symm, hcount.symm, hcouples⟩

/-- Pairs are counted in the entries of touched keys: each of them gets one more with every other
touched key. -/
theorem get?_couple (touched : SortedSet String) (r : Registry) (k : String) :
    (r.couple touched).entries.get? k = (r.entries.get? k).map fun e =>
      if k ∈ touched then
        { e with couples :=
            e.couples.unionWith (· + ·) ((touched.erase k).mapValues fun _ _ => 1) }
      else e := by
  rw [couple, SortedMap.get?_mapValues]

/-- Counting pairs makes no entry and removes none. -/
theorem mem_couple {touched : SortedSet String} {r : Registry} {k : String} :
    k ∈ (r.couple touched).entries ↔ k ∈ r.entries := by
  rw [couple, SortedMap.mem_mapValues]

@[simp] theorem files_couple (touched : SortedSet String) (r : Registry) :
    (r.couple touched).files = r.files := rfl

/-- The value that a touched unit adds for its peers: one for every other touched key. -/
theorem get?_peers (touched : SortedSet String) (j k : String) :
    ((touched.erase j).mapValues fun _ _ => 1).get? k
      = if k ∈ touched ∧ k ≠ j then some 1 else none := by
  rw [SortedMap.get?_mapValues, SortedMap.get?_erase]
  by_cases hk : k = j
  · rw [if_pos hk, if_neg fun h => h.2 hk, Option.map_none]
  · rw [if_neg hk]
    by_cases ht : k ∈ touched
    · obtain ⟨v, hv⟩ := SortedMap.mem_iff.mp ht
      rw [hv, Option.map_some, if_pos ⟨ht, hk⟩]
    · rw [SortedMap.get?_eq_none_iff.mpr ht, Option.map_none, if_neg fun h => ht h.1]

/-- **Counting pairs raises exactly the pairs of touched units by one.** The entry that is raised
has to be there; its peer need not be. -/
theorem coupling_couple (touched : SortedSet String) (r : Registry) (j k : String) :
    (r.couple touched).entries.coupling j k =
      if j ∈ touched ∧ k ∈ touched ∧ k ≠ j ∧ j ∈ r.entries then
        some ((r.entries.coupling j k).getD 0 + 1)
      else r.entries.coupling j k := by
  by_cases hj : j ∈ r.entries
  · obtain ⟨e, he⟩ := SortedMap.mem_iff.mp hj
    rw [Entries.coupling_of_get? he, Entries.coupling, get?_couple, he, Option.map_some,
      Option.bind_some]
    by_cases ht : j ∈ touched
    · rw [if_pos ht, SortedMap.get?_unionWith, get?_peers]
      -- the peers of a touched key are the other touched keys
      by_cases hk : k ∈ touched ∧ k ≠ j
      · rw [if_pos hk, if_pos ⟨ht, hk.1, hk.2, hj⟩]
        cases e.couples.get? k <;> simp
      · rw [if_neg hk, Option.merge_none_right, if_neg fun h => hk ⟨h.2.1, h.2.2.1⟩]
    · rw [if_neg ht, if_neg fun h => ht h.1]
  · rw [if_neg fun h => hj h.2.2.2, Entries.coupling_eq_none_of_not_mem hj,
      Entries.coupling_eq_none_of_not_mem fun h => hj (mem_couple.mp h)]

end Registry

namespace Entries

open Registry

/-- Both sides of a pair are raised together. -/
theorem Symmetric.couple {r : Registry} (h : r.entries.Symmetric) (touched : SortedSet String) :
    (r.couple touched).entries.Symmetric := by
  intro j k hj hk
  rw [mem_couple] at hj hk
  rw [coupling_couple, coupling_couple, h j k hj hk]
  by_cases hjk : j ∈ touched ∧ k ∈ touched ∧ k ≠ j
  · rw [if_pos ⟨hjk.1, hjk.2.1, hjk.2.2, hj⟩, if_pos ⟨hjk.2.1, hjk.1, hjk.2.2.symm, hk⟩]
  · rw [if_neg fun c => hjk ⟨c.1, c.2.1, c.2.2.1⟩, if_neg fun c => hjk ⟨c.2.1, c.1, c.2.2.1.symm⟩]

/-- No unit is counted as a peer of its own. -/
theorem Irreflexive.couple {r : Registry} (h : r.entries.Irreflexive) (touched : SortedSet String) :
    (r.couple touched).entries.Irreflexive := by
  intro k
  rw [coupling_couple, if_neg fun c => c.2.2.1 rfl, h k]

/-- The peers that are new are touched keys, so these have to be there. -/
theorem Closed.couple {r : Registry} (h : r.entries.Closed) {touched : SortedSet String}
    (hthere : ∀ k, k ∈ touched → k ∈ r.entries) : (r.couple touched).entries.Closed := by
  intro j k n hn
  rw [coupling_couple] at hn
  rw [mem_couple]
  by_cases hjk : j ∈ touched ∧ k ∈ touched ∧ k ≠ j ∧ j ∈ r.entries
  · exact hthere k hjk.2.1
  · rw [if_neg hjk] at hn
    exact h j k n hn

/-- **Counting the pairs of a commit keeps couplings coherent**, if all touched keys have
entries. -/
theorem Coherent.couple {r : Registry} (h : r.entries.Coherent) {touched : SortedSet String}
    (hthere : ∀ k, k ∈ touched → k ∈ r.entries) : (r.couple touched).entries.Coherent :=
  ⟨h.symmetric.couple touched, h.closed.couple hthere, h.irreflexive.couple touched⟩

end Entries

/-- Counting pairs changes no unit and no line of the index. -/
theorem Registry.Indexed.couple {r : Registry} (h : r.Indexed) (touched : SortedSet String) :
    (r.couple touched).Indexed := by
  intro file key
  rw [files_couple, h file key, get?_couple]
  cases r.entries.get? key with
  | none => simp
  | some e => by_cases ht : key ∈ touched <;> simp [ht]

/-- Counting pairs changes no unit and no count. -/
theorem Registry.tally_coupleWithin (cap : Nat) (touched : SortedSet String) (r : Registry)
    (k : String) :
    (r.coupleWithin cap touched).tally k = r.tally k := by
  rw [Registry.coupleWithin]
  split
  · rw [Registry.tally, Registry.tally, get?_couple, Option.map_map]
    refine congrArg (Option.map · (r.entries.get? k)) (funext fun e => ?_)
    by_cases hk : k ∈ touched <;> simp [hk]
  · rfl

end CoChange
