import CoChange.Proofs.Metrics.Hotness
import CoChange.Proofs.RawReport

/-!
# Each coupled pair is listed once

The list of couplings is read from the part of the matrix above the diagonal, the numbers of peers
from whole rows. On a symmetric matrix with a full diagonal (`RawReport.IsMatrix`) the two agree:

* **`forall₂_couples`**: the ranked list describes the pairs with a common count, each with its two
  units in the order of the report.
* **`sum_peers`**: every coupling adds one to the peers of two units.
* **`RawReport.isMatrix_ofEntries`**: the report on entries with symmetric couplings is such a
  matrix.
* **`couplings_list_each_pair`**: all of it, with what the strengths are exactly.
-/

namespace CoChange

namespace RawReport

/-- What the matrix has at a place. -/
def cell (r : RawReport) (i j : Nat) : Option Nat := r.counters[i]?.bind (·.get? j)

/-- The report is a symmetric matrix with a row for each unit. Each row has a place for its own
unit, and beside it only places of other units, with counts other than zero. -/
structure IsMatrix (r : RawReport) : Prop where
  rows : r.counters.length = r.units.length
  comm : ∀ i < r.units.length, ∀ j < r.units.length, r.cell i j = r.cell j i
  diagonal : ∀ i < r.units.length, (r.cell i i).isSome
  beside : ∀ i j n, r.cell i j = some n → j ≠ i → j < r.units.length ∧ n ≠ 0

/-- What a ranked list says of the units at two positions: their names in the order of the
positions, the number at their place, and their strength. -/
structure Couples (r : RawReport) (p : Nat × Nat) (c : Coupling) : Prop where
  order : p.1 < p.2
  first : r.unitName? p.1 = some c.first
  second : r.unitName? p.2 = some c.second
  changes : r.cell p.1 p.2 = some c.changes
  strength : c.strength = share c.changes (couplingBase c.changes (r.count p.1) (r.count p.2))
  /-- Up to a limit the strength is the exact share, rounded once. -/
  nearest : couplingBase c.changes (r.count p.1) (r.count p.2) < 2 ^ 53 →
    c.strength = .ofRatio false c.changes (couplingBase c.changes (r.count p.1) (r.count p.2))

/-- The places above the diagonal that a row has. -/
def rowPairs (a : CountRow × Nat) : List (Nat × Nat) :=
  (a.1.toList.filter fun e => a.2 < e.1).map fun e => (a.2, e.1)

/-- The places above the diagonal that the report has, row by row. -/
def pairs (r : RawReport) : List (Nat × Nat) := r.counters.zipIdx.flatMap rowPairs

section Matrix

variable {r : RawReport}

theorem cell_of_mem {a : CountRow × Nat} (ha : a ∈ r.counters.zipIdx) (j : Nat) :
    r.cell a.2 j = a.1.get? j := by
  rw [List.mem_zipIdx_iff_getElem?] at ha
  rw [cell, ha, Option.bind_some]

/-- The pairs of a row are those of its unit with later units that the row has a count for. -/
theorem mem_rowPairs {a : CountRow × Nat} {p : Nat × Nat} :
    p ∈ rowPairs a ↔ p.1 = a.2 ∧ a.2 < p.2 ∧ (a.1.get? p.2).isSome := by
  simp only [rowPairs, List.mem_map, List.mem_filter, decide_eq_true_iff, Option.isSome_iff_exists,
    SortedMap.get?_eq_some_iff]
  constructor
  · rintro ⟨e, ⟨he, hlt⟩, rfl⟩
    exact ⟨rfl, hlt, e.2, he⟩
  · rintro ⟨hi, hlt, n, hn⟩
    exact ⟨(p.2, n), ⟨hn, hlt⟩, by rw [← hi]⟩

/-- **The pairs are the places above the diagonal.** A unit is paired with later ones only, so each
pair is listed once, by the earlier of its units. -/
theorem mem_pairs {i j : Nat} : (i, j) ∈ r.pairs ↔ i < j ∧ (r.cell i j).isSome := by
  rw [pairs, List.mem_flatMap]
  constructor
  · rintro ⟨a, ha, hp⟩
    obtain ⟨rfl, hlt, hsome⟩ := mem_rowPairs.mp hp
    exact ⟨hlt, by rwa [cell_of_mem ha]⟩
  · rintro ⟨hlt, hsome⟩
    obtain ⟨n, hn⟩ := Option.isSome_iff_exists.mp hsome
    obtain ⟨row, hrow, hget⟩ := Option.bind_eq_some_iff.mp hn
    exact ⟨(row, i), List.mem_zipIdx_iff_getElem?.mpr hrow,
      mem_rowPairs.mpr ⟨rfl, hlt, Option.isSome_iff_exists.mpr ⟨n, hget⟩⟩⟩

/-- The pairs are listed row by row, and in the order of the positions in each row. -/
theorem pairwise_pairs (r : RawReport) : r.pairs.Pairwise (Prod.Lex (· < ·) (· < ·)) := by
  refine List.pairwise_flatMap.mpr ⟨fun a _ => ?_, ?_⟩
  · refine List.pairwise_map.mpr ((a.1.sorted.filter _).imp fun h => ?_)
    exact Prod.Lex.right _ h
  · refine (pairwise_zipIdx r.counters).imp fun {a b} hlt p hp q hq => ?_
    rw [Prod.lex_def, (mem_rowPairs.mp hp).1, (mem_rowPairs.mp hq).1]
    exact Or.inl hlt

/-! ## The list of couplings -/

/-- What is picked from a list and turned into something else, one member after the other. -/
theorem forall₂_filterMap {α β γ : Type} {R : γ → β → Prop} {pick : α → Bool} {f : α → γ}
    {g : α → Option β} {l : List α} (hpick : ∀ a ∈ l, pick a = true → ∃ b, g a = some b ∧ R (f a) b)
    (hskip : ∀ a ∈ l, pick a = false → g a = none) :
    List.Forall₂ R ((l.filter pick).map f) (l.filterMap g) := by
  induction l with
  | nil => exact .nil
  | cons a rest ih =>
    have ih := ih (fun b hb => hpick b (List.mem_cons_of_mem a hb)) fun b hb =>
      hskip b (List.mem_cons_of_mem a hb)
    cases hp : pick a with
    | true =>
      obtain ⟨b, hb, hR⟩ := hpick a List.mem_cons_self hp
      rw [List.filter_cons_of_pos hp, List.filterMap_cons_some hb]
      exact .cons hR ih
    | false =>
      rw [List.filter_cons_of_neg (by simp [hp]),
        List.filterMap_cons_none (hskip a List.mem_cons_self hp)]
      exact ih

section Listed

variable (h : r.IsMatrix)
include h

/-- A count stands only where there are units for its row and for its column. -/
theorem IsMatrix.lt_of_cell {i j n : Nat} (hn : r.cell i j = some n) :
    i < r.units.length ∧ j < r.units.length := by
  obtain ⟨row, hrow, -⟩ := Option.bind_eq_some_iff.mp hn
  have hi : i < r.units.length := h.rows ▸ (List.getElem?_eq_some_iff.mp hrow).1
  refine ⟨hi, ?_⟩
  by_cases hij : j = i
  · exact hij ▸ hi
  · exact (h.beside i j n hn hij).1

omit h in
theorem unitName?_of_lt {i : Nat} (hi : i < r.units.length) : ∃ name, r.unitName? i = some name :=
  ⟨_, by rw [unitName?, List.getElem?_eq_getElem hi, Option.map_some]⟩

/-- A row lists the couplings of its pairs. -/
theorem forall₂_rowCouplings {a : CountRow × Nat} (ha : a ∈ r.counters.zipIdx) :
    List.Forall₂ r.Couples (rowPairs a) (r.rowCouplings a.1 a.2) := by
  rw [rowPairs, rowCouplings]
  refine forall₂_filterMap (fun e he hlt => ?_) fun e _ hge => ?_
  · have hlt : a.2 < e.1 := of_decide_eq_true hlt
    have hcell : r.cell a.2 e.1 = some e.2 := by
      rw [cell_of_mem ha]
      exact SortedMap.get?_of_mem_toList he
    -- a cell that is filled belongs to two units, and both have names
    obtain ⟨hi, hj⟩ := h.lt_of_cell hcell
    obtain ⟨first, hfirst⟩ := unitName?_of_lt hi
    obtain ⟨second, hsecond⟩ := unitName?_of_lt hj
    have hne : e.2 ≠ 0 := (h.beside _ _ _ hcell hlt.ne').2
    refine ⟨⟨first, second, e.2, couplingStrength e.2 (r.count a.2) (r.count e.1)⟩,
      ?_, hlt, hfirst, hsecond,
      hcell, rfl, share_eq_ofRatio (Nat.le_max_left _ _)⟩
    simp [hlt, hne, hfirst, hsecond]
  · have hge : ¬ a.2 < e.1 := of_decide_eq_false hge
    simp [hge]

/-- **The ranked list describes the pairs by decreasing counts**, and in their order where counts
are the same. -/
theorem forall₂_couples :
    List.Forall₂ r.Couples (sortByCount (fun p => (r.cell p.1 p.2).getD 0) r.pairs)
      r.couplings := by
  have hlisted : List.Forall₂ r.Couples r.pairs
      (r.counters.zipIdx.flatMap fun a => r.rowCouplings a.1 a.2) := by
    rw [pairs, List.flatMap_def, List.flatMap_def]
    refine List.rel_flatten ?_
    rw [List.forall₂_map_left_iff, List.forall₂_map_right_iff, List.forall₂_same]
    exact fun a ha => forall₂_rowCouplings h ha
  exact forall₂_sortByCount hlisted fun p c hc => by rw [hc.changes, Option.getD_some]

end Listed

/-! ## The numbers of peers -/

/-- One for a place that the matrix has beside the diagonal. -/
def peerAt (r : RawReport) (i j : Nat) : Nat := if i ≠ j ∧ (r.cell i j).isSome then 1 else 0

theorem length_filter_eq_sum {α : Type} (p : α → Prop) [DecidablePred p] (l : List α) :
    (l.filter fun a => p a).length = (l.map fun a => if p a then 1 else 0).sum := by
  rw [List.sum_map_ite]
  simp

section Peers

variable (h : r.IsMatrix)
include h

/-- A row is counted by the positions of the units. -/
theorem IsMatrix.sum_row {a : CountRow × Nat} (ha : a ∈ r.counters.zipIdx) (p : Nat → Prop)
    [DecidablePred p] :
    (a.1.toList.filter fun e => p e.1).length =
      ∑ j ∈ Finset.range r.units.length, if p j ∧ (r.cell a.2 j).isSome then 1 else 0 := by
  have hkeys : ∀ j, j ∈ a.1 → j ∈ Finset.range r.units.length := fun j hj => by
    obtain ⟨n, hn⟩ := SortedMap.mem_iff.mp hj
    exact Finset.mem_range.mpr (h.lt_of_cell ((cell_of_mem ha j).trans hn)).2
  rw [length_filter_eq_sum, SortedMap.sum_toList _ _ hkeys]
  refine Finset.sum_congr rfl fun j _ => ?_
  rw [cell_of_mem ha]
  cases a.1.get? j <;> simp

/-- A unit has as many peers as its row has places beside the diagonal. -/
theorem IsMatrix.peerCount_eq {i : Nat} (hi : i < r.units.length) :
    r.peerCount i = ∑ j ∈ Finset.range r.units.length, r.peerAt i j := by
  obtain ⟨n, hn⟩ := Option.isSome_iff_exists.mp (h.diagonal i hi)
  obtain ⟨row, hrow, hself⟩ := Option.bind_eq_some_iff.mp hn
  have hbeside :=
    h.sum_row (List.mem_zipIdx_iff_getElem?.mpr hrow : (row, i) ∈ r.counters.zipIdx) (i ≠ ·)
  have hsize := List.length_eq_length_filter_add (l := row.toList) fun e => e.1 == i
  rw [SortedMap.filter_key hself, List.length_singleton] at hsize
  have hothers : (row.toList.filter fun e => !(e.1 == i)) = row.toList.filter fun e => i ≠ e.1 :=
    List.filter_congr fun e _ => by
      rw [Bool.eq_iff_iff, Bool.not_eq_true', beq_eq_false_iff_ne, decide_eq_true_iff, ne_comm]
  simp only [peerCount, hrow, SortedMap.size]
  rw [hsize, Nat.add_sub_cancel_left, hothers, hbeside]
  rfl

/-- There are as many pairs as the matrix has places above the diagonal. -/
theorem IsMatrix.length_pairs :
    r.pairs.length = ∑ i ∈ Finset.range r.units.length, ∑ j ∈ Finset.range r.units.length,
      if i < j then r.peerAt i j else 0 := by
  have hrow : ∀ a ∈ r.counters.zipIdx, (rowPairs a).length =
      ∑ j ∈ Finset.range r.units.length, if a.2 < j then r.peerAt a.2 j else 0 := fun a ha => by
    rw [rowPairs, List.length_map, h.sum_row ha (a.2 < ·)]
    refine Finset.sum_congr rfl fun j _ => ?_
    by_cases hlt : a.2 < j
    · simp only [peerAt, hlt, hlt.ne, ne_eq, not_false_iff, true_and, if_true]
    · rw [if_neg hlt, if_neg fun hj => hlt hj.1]
  have hplaces : r.counters.zipIdx.map (·.2) = List.range r.units.length := by
    rw [List.zipIdx_map_snd, h.rows, List.range_eq_range']
  rw [pairs, List.length_flatMap, List.map_congr_left hrow, ← sum_map_range, ← hplaces,
    List.map_map]
  rfl

/-- **Every pair adds one to the peers of two units.** A cell above the diagonal is a peer of the
unit of its row, and by symmetry one of the unit of its column. -/
theorem IsMatrix.sum_peers : (r.hotness.map (·.peers)).sum = 2 * r.couplings.length := by
  have hpairs : r.couplings.length = r.pairs.length :=
    (forall₂_couples h).length_eq.symm.trans (perm_sortByCount _ _).length_eq
  have hcomm : ∀ i < r.units.length, ∀ j < r.units.length, r.peerAt i j = r.peerAt j i :=
    fun i hi j hj => by simp only [peerAt, h.comm i hi j hj, ne_comm]
  have hdiag : ∀ i, r.peerAt i i = 0 := fun i => if_neg fun hi => hi.1 rfl
  have hpeers : (r.hotness.map (·.peers)).Perm ((List.range r.units.length).map r.peerCount) :=
    perm_map_hotness h.rows fun _ => rfl
  rw [hpairs, h.length_pairs, two_mul_sum_lt hcomm hdiag, hpeers.sum_eq, sum_map_range]
  exact Finset.sum_congr rfl fun i hi => h.peerCount_eq (Finset.mem_range.mp hi)

end Peers

end Matrix

/-! ## Reports on registries -/

/-- **The report on a registry is a symmetric matrix** if its couplings are symmetric and positive,
and no unit is a peer of itself. -/
theorem isMatrix_ofEntries {es : Entries} (stats : SortedMap String CommitStats)
    (hsym : es.Symmetric)
    (hirr : es.Irreflexive) (hpos : ∀ j k n, es.coupling j k = some n → n ≠ 0) :
    (ofEntries es stats).IsMatrix := by
  have hunits : (ofEntries es stats).units.length = es.size := length_units stats
  have hcell {i : Nat} (hi : i < es.size) : ∃ k e, es.keys[i]? = some k ∧ es.get? k = some e ∧
      (ofEntries es stats).counters[i]? = some (row (positions es) i e) ∧
      ∀ j, (ofEntries es stats).cell i j = (row (positions es) i e).get? j := by
    obtain ⟨e, he, hrow⟩ := getElem?_counters stats hi
    exact ⟨_, e, getElem?_keys hi, he, hrow, fun j => by rw [cell, hrow, Option.bind_some]⟩
  refine ⟨(length_counters stats).trans hunits.symm, ?_, ?_, ?_⟩
  · intro i hi j hj
    obtain ⟨_, _, -, -, hrowᵢ, hcellᵢ⟩ := hcell (hunits ▸ hi)
    obtain ⟨_, _, -, -, hrowⱼ, hcellⱼ⟩ := hcell (hunits ▸ hj)
    rw [hcellᵢ, hcellⱼ]
    exact counters_comm stats hsym hrowᵢ hrowⱼ
  · intro i hi
    obtain ⟨_, _, hk, he, -, hcellᵢ⟩ := hcell (hunits ▸ hi)
    rw [hcellᵢ, get?_row_self hirr hk he]
    rfl
  · intro i j n hn hne
    obtain ⟨row', hrow, hget⟩ := Option.bind_eq_some_iff.mp hn
    obtain ⟨k, e, -, he, rfl⟩ := exists_key_of_row stats hrow
    -- off the diagonal a cell is the count of two peers
    obtain ⟨k', hk', hn'⟩ := (get?_row_of_ne hne e n).mp hget
    refine ⟨?_, hpos k k' n (by rw [Entries.coupling_of_get? he, hn'])⟩
    rw [hunits, SortedMap.size_eq_length_keys]
    exact (List.getElem?_eq_some_iff.mp hk').1

/-- The strength of a coupling of two units without any rounding. -/
def exactStrength (r : RawReport) (p : Nat × Nat) (c : Coupling) : ℚ :=
  exactShare c.changes (couplingBase c.changes (r.count p.1) (r.count p.2))

/-- The strength of a pair is full exactly if neither unit has changed without the other. -/
theorem exactStrength_eq_one_iff {r : RawReport} {p : Nat × Nat} {c : Coupling}
    (hc : 0 < c.changes) :
    r.exactStrength p c = 1 ↔ r.count p.1 ≤ c.changes ∧ r.count p.2 ≤ c.changes := by
  have hbase : c.changes ≤ couplingBase c.changes (r.count p.1) (r.count p.2) := Nat.le_max_left _ _
  rw [exactStrength, exactShare_eq_one_iff (Nat.lt_of_lt_of_le hc hbase), couplingBase]
  omega

end RawReport

/-- **No coupling is lost or listed twice.** If a report is a symmetric matrix, the list of
couplings describes each pair of units with a common count once, by decreasing counts and in the
order of the pairs where counts are the same. Read exactly, the strengths lie above zero and not
above one, and a strength is one just if the common changes are at least as many as those of each
unit. The numbers of peers add up to twice the number of couplings. -/
theorem couplings_list_each_pair (r : RawReport) (h : r.IsMatrix) :
    let m := r.metrics
    (∃ order : List (Nat × Nat), order.Nodup ∧
      (∀ i j, (i, j) ∈ order ↔ i < j ∧ (r.cell i j).isSome) ∧
      order.Pairwise (Outranks (fun p => (r.cell p.1 p.2).getD 0) (Prod.Lex (· < ·) (· < ·))) ∧
      List.Forall₂ (fun p c => r.Couples p c ∧ 0 < r.exactStrength p c ∧ r.exactStrength p c ≤ 1 ∧
        (r.exactStrength p c = 1 ↔ r.count p.1 ≤ c.changes ∧ r.count p.2 ≤ c.changes))
          order m.couplings) ∧
    (m.hotness.map (·.peers)).sum = 2 * m.totals.couplings := by
  intro m
  have hperm := perm_sortByCount (fun p : Nat × Nat => (r.cell p.1 p.2).getD 0) r.pairs
  have hnodup : r.pairs.Nodup := (RawReport.pairwise_pairs r).imp fun {p q} hlt heq => by
    rw [heq, Prod.lex_def] at hlt
    omega
  refine ⟨⟨_, hperm.nodup_iff.mpr hnodup, fun i j => hperm.mem_iff.trans RawReport.mem_pairs,
    pairwise_sortByCount r.pairwise_pairs, ?_⟩, h.sum_peers⟩
  refine (RawReport.forall₂_couples h).imp fun p c hc => ?_
  have hpos : 0 < c.changes := Nat.pos_of_ne_zero (h.beside _ _ _ hc.changes hc.order.ne').2
  have hbase : c.changes ≤ couplingBase c.changes (r.count p.1) (r.count p.2) := Nat.le_max_left _ _
  exact ⟨hc, exactShare_pos hpos hbase,
    exactShare_le_one hbase, RawReport.exactStrength_eq_one_iff hpos⟩

/-! ### Three units, two of which have changed with the third -/

namespace Sample

/-- Two units that always changed with a third one, but not with each other. -/
def trio : Entries :=
  .ofList [("Function_bar_a.go", ⟨unit "bar" "a.go", 2, .ofList [("Function_foo_a.go", 2)]⟩),
    ("Function_baz_b.go", ⟨unit "baz" "b.go", 2, .ofList [("Function_foo_a.go", 2)]⟩),
    ("Function_foo_a.go", ⟨unit "foo" "a.go", 4,
      .ofList [("Function_bar_a.go", 2), ("Function_baz_b.go", 2)]⟩)]

/-- The report of the three sample units is a matrix: couplings are symmetric and positive, and none
of the units is its own peer. -/
theorem isMatrix_trio : (RawReport.ofEntries trio ∅).IsMatrix := by
  have hentry {j k : String} {n : Nat} (h : trio.coupling j k = some n) :
      ∃ a ∈ trio.toList, a.1 = j ∧ (k, n) ∈ a.2.couples.toList := by
    obtain ⟨e, he, hk⟩ := Option.bind_eq_some_iff.mp h
    exact ⟨(j, e), SortedMap.get?_eq_some_iff.mp he, rfl, SortedMap.get?_eq_some_iff.mp hk⟩
  refine RawReport.isMatrix_ofEntries ∅ (fun j k hj hk => ?_) (fun k => ?_) fun j k n hn => ?_
  · have hall : ∀ a ∈ trio.toList, ∀ b ∈ trio.toList, trio.coupling a.1 b.1 =
        trio.coupling b.1 a.1 := by
      decide +kernel
    obtain ⟨d, hd⟩ := SortedMap.mem_iff.mp hj
    obtain ⟨e, he⟩ := SortedMap.mem_iff.mp hk
    exact hall (j, d) (SortedMap.get?_eq_some_iff.mp hd) (k, e) (SortedMap.get?_eq_some_iff.mp he)
  · have hall : ∀ a ∈ trio.toList, ∀ c ∈ a.2.couples.toList, c.1 ≠ a.1 := by decide +kernel
    refine Option.eq_none_iff_forall_ne_some.mpr fun n hn => ?_
    obtain ⟨a, ha, rfl, hc⟩ := hentry hn
    exact hall a ha _ hc rfl
  · have hall : ∀ a ∈ trio.toList, ∀ c ∈ a.2.couples.toList, c.2 ≠ 0 := by decide +kernel
    obtain ⟨a, ha, -, hc⟩ := hentry hn
    exact hall a ha _ hc

end Sample

/-- There are two pairs, of the third unit with each of the others, in the order of the report. -/
theorem couplings_list_each_pair_sample :
    let r := RawReport.ofEntries Sample.trio ∅
    let m := r.metrics
    r.IsMatrix ∧
    List.Forall₂ (fun p c => r.Couples p c ∧ 0 < r.exactStrength p c ∧ r.exactStrength p c ≤ 1 ∧
      (r.exactStrength p c = 1 ↔ r.count p.1 ≤ c.changes ∧ r.count p.2 ≤ c.changes))
      [(0, 2), (1, 2)] m.couplings ∧
    (m.hotness.map (·.peers)).sum = 4 := by
  intro r m
  obtain ⟨⟨order, hnodup, hmem, hranked, hcouples⟩, hpeers⟩ :=
    couplings_list_each_pair r Sample.isMatrix_trio
  have hpairs : r.pairs = [(0, 2), (1, 2)] := by decide +kernel
  have hperm : order.Perm [(0, 2), (1, 2)] := by
    rw [← hpairs, List.perm_ext_iff_of_nodup hnodup (by decide +kernel)]
    exact fun p => (hmem p.1 p.2).trans RawReport.mem_pairs.symm
  have horder : order = [(0, 2), (1, 2)] := by
    refine eq_of_outranks (fun p q hpq hqp => ?_) hperm hranked (by decide +kernel)
    rw [Prod.lex_def] at hpq hqp
    omega
  have hlength : m.totals.couplings = 2 := hcouples.length_eq.symm.trans (by rw [horder]; rfl)
  exact ⟨Sample.isMatrix_trio, horder ▸ hcouples, hpeers.trans (by rw [hlength])⟩

end CoChange
