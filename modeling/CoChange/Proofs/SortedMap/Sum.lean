import CoChange.Arithmetic
import CoChange.Proofs.SortedMap
import Mathlib.Algebra.BigOperators.Group.Finset.Basic

/-!
# Sums over sorted maps

A sum over the entries of a map is one over its keys, and so over any finite set that has them all:
what is not a key adds nothing (`sum_toList`). Inserting under a new key adds the new value to it
(`sum_values_insert`).
-/

namespace CoChange

namespace SortedMap

variable {κ α : Type} [LT κ] [DecidableEq κ] [LinearKeys κ]

/-- **A sum over the entries is a sum over any finite set with all keys.** Keys that are not there
add nothing. -/
theorem sum_toList (m : SortedMap κ α) (f : κ × α → Nat) {s : Finset κ} (hs : ∀ k, k ∈ m → k ∈ s) :
    (m.toList.map f).sum = ∑ k ∈ s, ((m.get? k).map fun v => f (k, v)).getD 0 := by
  have hsub : m.keys.toFinset ⊆ s := fun k hk => hs k (mem_keys.mp (List.mem_toFinset.mp hk))
  rw [← Finset.sum_subset hsub fun k _ hk => ?_, List.sum_toFinset _ (nodup_keys m), keys,
    List.map_map]
  · refine congrArg List.sum (List.map_congr_left fun e he => ?_)
    rw [Function.comp_apply, get?_of_mem_toList he]
    rfl
  · have hnone : m.get? k = none :=
      get?_eq_none_iff.mpr fun hmem => hk (List.mem_toFinset.mpr (mem_keys.mpr hmem))
    rw [hnone]
    rfl

theorem sum_values (m : SortedMap κ α) (f : α → Nat) {s : Finset κ} (hs : ∀ k, k ∈ m → k ∈ s) :
    (m.values.map f).sum = ∑ k ∈ s, ((m.get? k).map f).getD 0 := by
  rw [values, List.map_map]
  exact sum_toList m (fun e => f e.2) hs

/-- A new key adds its value. -/
theorem sum_values_insert [DecidableLT κ] {m : SortedMap κ α} {k : κ} (hk : k ∉ m) (v : α)
    (f : α → Nat) :
    ((m.insert k v).values.map f).sum = (m.values.map f).sum + f v := by
  have hkeys : k ∉ m.keys.toFinset := fun h => hk (mem_keys.mp (List.mem_toFinset.mp h))
  have hin : ∀ j, j ∈ m → j ∈ m.keys.toFinset := fun j hj => List.mem_toFinset.mpr (mem_keys.mpr hj)
  have hall : ∀ j, j ∈ m.insert k v → j ∈ Insert.insert k m.keys.toFinset := fun j hj =>
    Finset.mem_insert.mpr ((mem_insert.mp hj).imp_right (hin j))
  rw [sum_values (m.insert k v) f hall, sum_values m f hin, Finset.sum_insert hkeys,
    get?_insert_self, Nat.add_comm]
  refine congrArg (· + f v) (Finset.sum_congr rfl fun j hj => ?_)
  have hne : j ≠ k := fun heq => hkeys (heq ▸ hj)
  rw [get?_insert, if_neg hne]

/-- The number of keys, as that of a finite set. -/
theorem size_eq_card (m : SortedMap κ α) : m.size = m.keys.toFinset.card := by
  rw [size_eq_length_keys, List.toFinset_card_of_nodup (nodup_keys m)]

end SortedMap

end CoChange
