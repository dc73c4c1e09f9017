import CoChange.Metrics.Basic
import CoChange.Proofs.Registry.Volume
import Mathlib.Algebra.BigOperators.Fin
import Mathlib.Order.Interval.Finset.Nat

/-!
# What the metrics of a registry add up to

A report names units by their positions, and lists a pair of units once, in the row of the one that
comes first. Nothing gets lost on the way from the entries of a registry to the metrics:

* **`get?_row`**: what stands at a position of a row.
* **`sum_counts`**: the changes of all units are those of the entries.
* **`sum_couplings`**: the common changes of all couplings, twice, are those that the entries list.

The couplings have to be coherent. A unit that is its own peer would cover its count, and a peer
that is not there has no position.
-/

namespace CoChange

namespace RawReport

/-- The positions of the keys. -/
def positions (es : Entries) : SortedMap String Nat := .ofList es.keys.zipIdx

section Positions

variable {es : Entries}

/-- The position of a key is its place among the keys of the entries. -/
theorem get?_positions {k : String} {i : Nat} : (positions es).get? k = some i ↔
    es.keys[i]? = some k := by
  have hnodup : (es.keys.zipIdx.map (·.1)).Nodup := by
    rw [List.zipIdx_map_fst]
    exact SortedMap.nodup_keys es
  rw [positions, SortedMap.get?_ofList_eq_some_iff hnodup, List.mem_zipIdx_iff_getElem?]

end Positions

/-! ## Rows -/

/-- The peers of an entry with their positions. -/
def placedPeers (es : Entries) (e : Entry) : List (Nat × Nat) :=
  e.couples.toList.filterMap fun peer => ((positions es).get? peer.1).map (·, peer.2)

section Row

variable {es : Entries}

/-- The row of an entry has its own count in its own place and those of the peers that have a
place. -/
theorem row_eq (i : Nat) (e : Entry) :
    row (positions es) i e =
      (placedPeers es e).foldl (fun row peer => row.insert peer.1 peer.2)
        (SortedMap.insert i e.count ∅) := by
  rw [row, placedPeers, List.foldl_filterMap]
  refine congrArg (fun f => List.foldl f _ _) (funext fun row => funext fun peer => ?_)
  cases (positions es).get? peer.1 <;> rfl

/-- The peers that have a place among the entries, with the count they are coupled with. -/
theorem mem_placedPeers {e : Entry} {j n : Nat} :
    (j, n) ∈ placedPeers es e ↔ ∃ k, es.keys[j]? = some k ∧ e.couples.get? k = some n := by
  rw [placedPeers, List.mem_filterMap]
  constructor
  · rintro ⟨⟨k, m⟩, hmem, hplaced⟩
    obtain ⟨i, hi, heq⟩ := Option.map_eq_some_iff.mp hplaced
    obtain ⟨rfl, rfl⟩ := Prod.mk.inj heq
    exact ⟨k, get?_positions.mp hi, SortedMap.get?_of_mem_toList hmem⟩
  · rintro ⟨k, hk, hn⟩
    exact ⟨(k, n), SortedMap.get?_eq_some_iff.mp hn, by rw [get?_positions.mpr hk, Option.map_some]⟩

/-- No two peers of an entry have one place. -/
theorem nodup_placedPeers (e : Entry) : ((placedPeers es e).map (·.1)).Nodup := by
  have hkeys : (placedPeers es e).map (·.1) = e.couples.keys.filterMap (positions es).get? := by
    rw [placedPeers, SortedMap.keys, List.map_filterMap, List.filterMap_map]
    refine congrArg (List.filterMap · _) (funext fun peer => ?_)
    rw [Function.comp_apply, Option.map_map]
    cases (positions es).get? peer.1 <;> rfl
  rw [hkeys]
  refine (SortedMap.nodup_keys e.couples).filterMap fun k k' i hk hk' => ?_
  have hsame := (get?_positions.mp hk).symm.trans (get?_positions.mp hk')
  exact Option.some.inj hsame

/-- **At a position of a row stands the number for the peer that is there**, or else the own count
if the position is that of the row. -/
theorem get?_row (i j : Nat) (e : Entry) :
    (row (positions es) i e).get? j =
      ((es.keys[j]?).bind e.couples.get?).or (if j = i then some e.count else none) := by
  rw [row_eq]
  -- the peers are put in last, over the diagonal
  cases hpeer : (es.keys[j]?).bind e.couples.get? with
  | some n =>
    obtain ⟨k, hk, hn⟩ := Option.bind_eq_some_iff.mp hpeer
    rw [SortedMap.get?_foldl_insert_of_mem (nodup_placedPeers e) (mem_placedPeers.mpr ⟨k, hk, hn⟩)]
    rfl
  | none =>
    have hnot : j ∉ (placedPeers es e).map (·.1) := fun hj => by
      obtain ⟨⟨j', n⟩, hmem, rfl⟩ := List.mem_map.mp hj
      obtain ⟨k, hk, hn⟩ := mem_placedPeers.mp hmem
      rw [hk, Option.bind_some, hn] at hpeer
      exact absurd hpeer (by simp)
    rw [SortedMap.get?_foldl_insert_of_not_mem hnot, SortedMap.get?_insert, Option.none_or]
    rfl

end Row

/-! ## The report on entries -/

section Report

variable {es : Entries} (stats : SortedMap String CommitStats)

/-- The key at a position. -/
def keyAt (es : Entries) (i : Nat) : String := es.keys.getD i ""

/-- The common changes of the units at two positions. -/
def common (es : Entries) (i j : Nat) : Nat := es.couplingAt (keyAt es i) (keyAt es j)

theorem length_counters : (ofEntries es stats).counters.length = es.size := by
  simp [ofEntries, SortedMap.values, SortedMap.size]

theorem length_units : (ofEntries es stats).units.length = es.size := by
  simp [ofEntries, SortedMap.values, SortedMap.size]

theorem getElem?_keys {i : Nat} (hi : i < es.size) : es.keys[i]? = some (keyAt es i) := by
  have hlt : i < es.keys.length := SortedMap.size_eq_length_keys es ▸ hi
  rw [keyAt, List.getD_eq_getElem?_getD, List.getElem?_eq_getElem hlt, Option.getD_some]

/-- The row at a position is that of the entry under the key that is there. -/
theorem getElem?_counters {i : Nat} (hi : i < es.size) :
    ∃ e, es.get? (keyAt es i) = some e ∧
      (ofEntries es stats).counters[i]? = some (row (positions es) i e) := by
  have hlt : i < es.toList.length := hi
  have hkey : keyAt es i = es.toList[i].1 := by
    have hkeys := getElem?_keys hi
    rw [SortedMap.keys, List.getElem?_map, List.getElem?_eq_getElem hlt] at hkeys
    exact (Option.some.inj hkeys).symm
  refine ⟨es.toList[i].2, ?_, ?_⟩
  · rw [hkey]
    exact SortedMap.get?_of_mem_toList (List.getElem_mem hlt)
  · have hvalue : es.values[i]? = some es.toList[i].2 := by
      rw [SortedMap.values, List.getElem?_map, List.getElem?_eq_getElem hlt, Option.map_some]
    show (es.values.zipIdx.map fun a => row (positions es) a.2 a.1)[i]? = _
    rw [List.getElem?_map, List.getElem?_zipIdx, hvalue, Nat.zero_add]
    rfl

theorem sum_map_range (n : Nat) (f : Nat → Nat) :
    ((List.range n).map f).sum = ∑ i ∈ Finset.range n, f i := by
  rw [← List.sum_toFinset _ List.nodup_range, List.toFinset_range]

/-- A sum over the keys is one over their positions. -/
theorem sum_keySet (es : Entries) (f : String → Nat) :
    ∑ k ∈ es.keySet, f k = ∑ i ∈ Finset.range es.size, f (keyAt es i) := by
  rw [Entries.keySet, List.sum_toFinset _ (SortedMap.nodup_keys es), SortedMap.size_eq_length_keys,
    Finset.sum_range, ← Fin.sum_univ_fun_getElem]
  refine Finset.sum_congr rfl fun i _ => ?_
  rw [keyAt, List.getD_eq_getElem?_getD, List.getElem?_eq_getElem i.isLt, Option.getD_some]

/-! ### Changes -/

/-- Without couplings of a unit with itself, its row keeps its count. -/
theorem count_ofEntries (hirr : es.Irreflexive) {i : Nat} (hi : i < es.size) :
    (ofEntries es stats).count i = es.countAt (keyAt es i) := by
  obtain ⟨e, he, hrow⟩ := getElem?_counters stats hi
  have hself : e.couples.get? (keyAt es i) = none := by
    rw [← Entries.coupling_of_get? he]
    exact hirr _
  simp only [count, hrow]
  rw [SortedMap.getD_eq, get?_row, getElem?_keys hi, Option.bind_some, hself, Option.none_or,
    if_pos rfl, Option.getD_some, Entries.countAt_of_get? he]

/-- **The changes of all units are those of the entries.** The row of an entry has its count on the
diagonal, where no peer stands. -/
theorem sum_counts (hirr : es.Irreflexive) : (ofEntries es stats).counts.sum = es.total := by
  rw [counts, Entries.total_eq_sum_of_subset fun _ => Entries.mem_keySet.mpr, sum_keySet,
    length_counters, sum_map_range]
  exact Finset.sum_congr rfl fun i hi => count_ofEntries stats hirr (Finset.mem_range.mp hi)

/-! ### Common changes -/

theorem unitName?_isSome {i : Nat} (hi : i < es.size) :
    ∃ name, (ofEntries es stats).unitName? i = some name := by
  rw [← length_units stats] at hi
  exact ⟨_, by rw [unitName?, List.getElem?_eq_getElem hi, Option.map_some]⟩

/-- What a row of the report tells about a later position. -/
theorem getD_row {i j : Nat} {e : Entry} (he : es.get? (keyAt es i) = some e) (hj : j < es.size)
    (hne : j ≠ i) : (row (positions es) i e).getD j 0 = common es i j := by
  rw [SortedMap.getD_eq, get?_row, getElem?_keys hj, Option.bind_some, if_neg hne, Option.or_none,
    common, Entries.couplingAt, Entries.coupling_of_get? he]

/-- A row has no positions but those of units. -/
theorem lt_of_mem_row {i j : Nat} {e : Entry} (hi : i < es.size) (hj : j ∈ row (positions es) i e) :
    j < es.size := by
  obtain ⟨n, hn⟩ := SortedMap.mem_iff.mp hj
  rw [get?_row] at hn
  by_cases hji : j = i
  · rwa [hji]
  · rw [if_neg hji, Option.or_none] at hn
    obtain ⟨k, hk, _⟩ := Option.bind_eq_some_iff.mp hn
    rw [SortedMap.size_eq_length_keys]
    exact (List.getElem?_eq_some_iff.mp hk).1

/-- A sum over what a list is filtered to is a sum over the list, with zero for what is left out. -/
theorem sum_filterMap {α β : Type} (f : α → Option β) (g : β → Nat) (l : List α) :
    ((l.filterMap f).map g).sum = (l.map fun a => ((f a).map g).getD 0).sum := by
  induction l with
  | nil => rfl
  | cons a rest ih =>
    rw [List.map_cons, List.sum_cons, ← ih]
    cases h : f a with
    | none => rw [List.filterMap_cons_none h, Option.map_none, Option.getD_none, Nat.zero_add]
    | some b => rw [List.filterMap_cons_some h,
        List.map_cons, List.sum_cons, Option.map_some, Option.getD_some]

/-- **The couplings of a row have the common changes with the units at later positions.** Peers
without a place have no column, and those at earlier positions have their pair in another row. -/
theorem sum_rowCouplings {i : Nat} {e : Entry} (hi : i < es.size)
    (he : es.get? (keyAt es i) = some e) :
    (((ofEntries es stats).rowCouplings (row (positions es) i e) i).map (·.changes)).sum =
      ∑ j ∈ Finset.range es.size, if i < j then common es i j else 0 := by
  -- a pair counts in the row of its first unit only, and both units have names
  have hnumber : ∀ peer ∈ (row (positions es) i e).toList,
      (((if i < peer.1 && peer.2 ≠ 0 then do
        let first ← (ofEntries es stats).unitName? i
        let second ← (ofEntries es stats).unitName? peer.1
        return (⟨first, second, peer.2, couplingStrength peer.2 ((ofEntries es stats).count i)
          ((ofEntries es stats).count peer.1)⟩ : Coupling)
      else none) : Option Coupling).map (·.changes)).getD 0 = if i < peer.1 then peer.2 else 0 := by
    intro peer hpeer
    have hj : peer.1 < es.size :=
      lt_of_mem_row hi (SortedMap.mem_of_get? (SortedMap.get?_of_mem_toList hpeer))
    obtain ⟨first, hfirst⟩ := unitName?_isSome stats hi
    obtain ⟨second, hsecond⟩ := unitName?_isSome stats hj
    rw [hfirst, hsecond]
    by_cases hlt : i < peer.1
    · by_cases hzero : peer.2 = 0 <;> simp [hlt, hzero]
    · simp [hlt]
  rw [rowCouplings, sum_filterMap, List.map_congr_left hnumber,
    SortedMap.sum_toList (s := Finset.range es.size) _ _ fun j hj =>
      Finset.mem_range.mpr (lt_of_mem_row hi hj)]
  refine Finset.sum_congr rfl fun j hj => ?_
  by_cases hlt : i < j
  · have hget := getD_row he (Finset.mem_range.mp hj) (Nat.ne_of_gt hlt)
    rw [SortedMap.getD_eq] at hget
    simp only [hlt, if_true, Option.map_id_fun', id, hget]
  · simp only [hlt, if_false]
    cases (row (positions es) i e).get? j <;> rfl

/-- The row at a position tells of the pairs with later positions, so the rows tell of all pairs
once. -/
theorem sum_couplings_eq :
    ((ofEntries es stats).couplings.map (·.changes)).sum =
      ∑ i ∈ Finset.range es.size, ∑ j ∈ Finset.range es.size, if i < j then
        common es i j else 0 := by
  have hrows : (ofEntries es stats).counters.zipIdx.map (fun a =>
      (((ofEntries es stats).rowCouplings a.1 a.2).map (·.changes)).sum) =
      (List.range es.size).map fun i =>
        ∑ j ∈ Finset.range es.size, if i < j then common es i j else 0 := by
    refine List.ext_getElem? fun i => ?_
    rw [List.getElem?_map, List.getElem?_map, List.getElem?_zipIdx, Nat.zero_add]
    by_cases hi : i < es.size
    · obtain ⟨e, he, hrow⟩ := getElem?_counters stats hi
      rw [hrow, List.getElem?_range hi]
      exact congrArg some (sum_rowCouplings stats hi he)
    · rw [List.getElem?_eq_none (length_counters stats ▸ Nat.le_of_not_lt hi),
        List.getElem?_eq_none (List.length_range ▸ Nat.le_of_not_lt hi)]
      rfl
  -- the order of the couplings does not matter for their sum
  have hsorted := (List.mergeSort_perm ((ofEntries es stats).counters.zipIdx.flatMap fun a =>
    (ofEntries es stats).rowCouplings a.1 a.2) fun a b => decide (b.changes ≤ a.changes)).map
      (·.changes)
  rw [couplings, sortByCount, hsorted.sum_eq, List.map_flatMap, List.flatMap_def, List.sum_flatten,
    List.map_map]
  exact (congrArg List.sum hrows).trans (sum_map_range _ _)

/-- A symmetric sum without a diagonal is twice the part above it. -/
theorem two_mul_sum_lt {n : Nat} {c : Nat → Nat → Nat} (hsymm : ∀ i < n, ∀ j < n, c i j = c j i)
    (hdiag : ∀ i, c i i = 0) :
    2 * (∑ i ∈ Finset.range n, ∑ j ∈ Finset.range n, if i < j then c i j else 0) =
      ∑ i ∈ Finset.range n, ∑ j ∈ Finset.range n, c i j := by
  -- what lies below the diagonal is what lies above it
  have hbelow : (∑ i ∈ Finset.range n, ∑ j ∈ Finset.range n, if j < i then c i j else 0) =
      ∑ i ∈ Finset.range n, ∑ j ∈ Finset.range n, if i < j then c i j else 0 := by
    rw [Finset.sum_comm]
    refine Finset.sum_congr rfl fun i hi => Finset.sum_congr rfl fun j hj => ?_
    rw [hsymm j (Finset.mem_range.mp hj) i (Finset.mem_range.mp hi)]
  have hsplit : ∀ i j, c i j = (if i < j then c i j else 0) + if j < i then c i j else 0 := by
    intro i j
    rcases Nat.lt_trichotomy i j with hlt | rfl | hgt
    · rw [if_pos hlt, if_neg (Nat.lt_asymm hlt), Nat.add_zero]
    · rw [hdiag i, if_neg (Nat.lt_irrefl i)]
    · rw [if_neg (Nat.lt_asymm hgt), if_pos hgt, Nat.zero_add]
  rw [Finset.sum_congr rfl fun i _ => Finset.sum_congr rfl fun j _ => hsplit i j]
  simp only [Finset.sum_add_distrib]
  rw [hbelow, Nat.two_mul]

/-- **The common changes of all couplings, twice, are those that the entries list.** Each pair is
listed in one row and counted in two entries. -/
theorem sum_couplings (hcoh : es.Coherent) :
    2 * ((ofEntries es stats).metrics.couplings.map (·.changes)).sum = es.pairTotal := by
  have hthere : ∀ {i}, i < es.size → keyAt es i ∈ es := fun hi => by
    obtain ⟨e, he, _⟩ := getElem?_counters stats hi
    exact SortedMap.mem_of_get? he
  have hsymm : ∀ i < es.size, ∀ j < es.size, common es i j = common es j i := fun i hi j hj => by
    rw [common, common, Entries.couplingAt, Entries.couplingAt,
      hcoh.symmetric _ _ (hthere hi) (hthere hj)]
  have hdiag : ∀ i, common es i i = 0 := fun i => by
    rw [common, Entries.couplingAt, hcoh.irreflexive]
    rfl
  -- both sides run over the positions of the keys
  rw [Entries.pairTotal_eq_sum hcoh.closed fun _ => Entries.mem_keySet.mpr, sum_keySet]
  simp only [sum_keySet]
  show _ = ∑ i ∈ Finset.range es.size, ∑ j ∈ Finset.range es.size, common es i j
  rw [← two_mul_sum_lt hsymm hdiag, ← sum_couplings_eq stats]
  rfl

end Report

end RawReport

end CoChange
