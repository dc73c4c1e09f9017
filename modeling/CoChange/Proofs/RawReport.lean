import CoChange.Proofs.Metrics.Totals

/-!
# The raw report is a matrix of the entries

A report numbers the units in the order of their keys. Its rows are then the counts and couplings of
the entries with positions in place of keys, and what is a peer without an entry has no position and
is left out.

* **`RawReport.ofListing_eq`**: the report does not depend on the order in which the entries, and
  the peers of each, are walked through. `RawReport.ofListing` is the report as it is built along
  such a walk.
* **`report_is_matrix`**: what stands where in the report.
-/

namespace CoChange

/-! ## Maps in the order of a walk -/

/-- An entry whose peers come in the order of a walk through them. -/
structure ListedEntry where
  unit : CodeUnit
  count : Nat
  peers : List (String × Nat)

/-- Entries in the order of a walk through them. -/
abbrev Listing := List (String × ListedEntry)

/-- A walk lists the entries: each comes once, in any order, and so do its peers. -/
structure Listing.Lists (listing : Listing) (es : Entries) : Prop where
  keys : (listing.map (·.1)).Perm es.keys
  entry : ∀ k d, (k, d) ∈ listing →
    ∃ e, es.get? k = some e ∧ d.unit = e.unit ∧ d.count = e.count ∧ d.peers.Perm e.couples.toList

namespace RawReport

/-- The row of an entry, filled in the order of a walk through its peers. -/
def listedRow (positions : SortedMap String Nat) (position : Nat) (d : ListedEntry) : CountRow :=
  d.peers.foldl (fun row peer =>
    match positions.get? peer.1 with
    | some i => row.insert i peer.2
    | none => row) (SortedMap.insert position d.count ∅)

/-- The report, built along a walk: the keys are collected and sorted, and each is looked up again
in its turn. -/
def ofListing (listing : Listing) (stats : SortedMap String CommitStats) : RawReport :=
  let keys := (listing.map (·.1)).mergeSort (· ≤ ·)
  let positions : SortedMap String Nat := .ofList keys.zipIdx
  ⟨keys.filterMap fun key => (listing.lookup key).map (·.unit),
    keys.zipIdx.filterMap fun (key, i) => (listing.lookup key).map (listedRow positions i), stats⟩

section Walk

variable {es : Entries} {listing : Listing}

/-- Sorting brings the keys of a walk into the order of the map. -/
theorem mergeSort_listing (h : listing.Lists es) :
    (listing.map (·.1)).mergeSort (· ≤ ·) = es.keys := by
  have hperm := (List.mergeSort_perm (listing.map (·.1)) (· ≤ ·)).trans h.keys
  have hsorted : ((listing.map (·.1)).mergeSort (· ≤ ·)).Pairwise fun a b =>
      decide (a ≤ b) = true :=
    List.pairwise_mergeSort
      (fun a b c hab hbc => by
        simpa using String.le_trans (by simpa using hab) (by simpa using hbc))
      (fun a b => by simpa using String.le_total a b) (listing.map (·.1))
  have hkeys : es.keys.Pairwise fun a b => decide (a ≤ b) = true :=
    (List.pairwise_map.mpr es.sorted).imp fun hlt =>
      decide_eq_true (String.not_lt.mp (String.lt_asymm hlt))
  exact hperm.eq_of_pairwise
    (fun a b _ _ hab hba => String.le_antisymm (of_decide_eq_true hab) (of_decide_eq_true hba))
      hsorted hkeys

/-- The key of an entry is found in the walk, with what the entry has. -/
theorem lookup_listing (h : listing.Lists es) {k : String} {e : Entry} (he : es.get? k = some e) :
    ∃ d, listing.lookup k = some d ∧ d.unit = e.unit ∧ d.count = e.count ∧
      d.peers.Perm e.couples.toList := by
  have hk : k ∈ listing.map (·.1) :=
    h.keys.mem_iff.mpr (SortedMap.mem_keys.mpr (SortedMap.mem_of_get? he))
  obtain ⟨d, hd⟩ : ∃ d, listing.lookup k = some d := by
    rw [← Option.isSome_iff_exists, List.lookup_isSome_iff]
    obtain ⟨p, hp, rfl⟩ := List.mem_map.mp hk
    exact ⟨p, hp, beq_self_eq_true _⟩
  have hmem : (k, d) ∈ listing := by
    obtain ⟨before, after, hlist, -⟩ := List.lookup_eq_some_iff.mp hd
    rw [hlist]
    exact List.mem_append_right _ List.mem_cons_self
  obtain ⟨e', he', hunit, hcount, hpeers⟩ := h.entry k d hmem
  rw [he, Option.some.injEq] at he'
  subst he'
  exact ⟨d, hd, hunit, hcount, hpeers⟩

/-- A row does not depend on the order of the peers: no two of them have one position. -/
theorem listedRow_eq {d : ListedEntry} {e : Entry} (hcount : d.count = e.count)
    (hpeers : d.peers.Perm e.couples.toList) (i : Nat) :
    listedRow (positions es) i d = row (positions es) i e := by
  let place : String × Nat → Option (Nat × Nat) := fun peer =>
    ((positions es).get? peer.1).map (·, peer.2)
  have hrow : listedRow (positions es) i d =
      (d.peers.filterMap place).foldl (fun row peer => row.insert peer.1 peer.2)
        (SortedMap.insert i d.count ∅) := by
    rw [listedRow, List.foldl_filterMap]
    refine congrArg (fun f => List.foldl f _ _) (funext fun row => funext fun peer => ?_)
    simp only [place]
    cases (positions es).get? peer.1 <;> rfl
  -- the order of the peers is lost in the row
  have hplaced : (d.peers.filterMap place).Perm (placedPeers es e) := hpeers.filterMap place
  rw [hrow, row_eq, hcount]
  exact SortedMap.foldl_insert_perm hplaced (nodup_placedPeers e) _

/-- **The report does not depend on the order in which the maps are walked through.** Units are put
in the order of their keys, and a row is a map, so neither order of walking shows in it. -/
theorem ofListing_eq (h : listing.Lists es) (stats : SortedMap String CommitStats) :
    ofListing listing stats = ofEntries es stats := by
  have hunits : (es.keys.filterMap fun key => (listing.lookup key).map (·.unit)) =
      es.values.map (·.unit) := by
    rw [SortedMap.keys, SortedMap.values, List.filterMap_map, List.map_map, ← List.filterMap_eq_map]
    refine List.filterMap_congr fun a ha => ?_
    obtain ⟨d, hd, hunit, -⟩ := lookup_listing h (SortedMap.get?_of_mem_toList ha)
    rw [Function.comp_apply, hd, Option.map_some, hunit]
    rfl
  have hrows : (es.keys.zipIdx.filterMap fun a =>
      (listing.lookup a.1).map (listedRow (positions es) a.2)) =
      es.values.zipIdx.map fun a => row (positions es) a.2 a.1 := by
    rw [SortedMap.keys, SortedMap.values, List.zipIdx_map, List.zipIdx_map, List.filterMap_map,
      List.map_map, ← List.filterMap_eq_map]
    refine List.filterMap_congr fun a ha => ?_
    obtain ⟨d, hd, -, hcount, hpeers⟩ :=
      lookup_listing h (SortedMap.get?_of_mem_toList (List.fst_mem_of_mem_zipIdx ha))
    simp only [Function.comp_apply, Prod.map_fst, Prod.map_snd, id, hd, Option.map_some,
      listedRow_eq hcount hpeers]
  show RawReport.mk _ _ stats = RawReport.mk _ _ stats
  rw [mergeSort_listing h, hunits]
  exact congrArg (RawReport.mk _ · stats) hrows

end Walk

/-! ## What stands where -/

section Matrix

variable {es : Entries} (stats : SortedMap String CommitStats)

/-- The unit and the row at the position of a key are those of its entry. -/
theorem getElem?_ofEntries {i : Nat} {k : String} (hk : es.keys[i]? = some k) :
    ∃ e, es.get? k = some e ∧ (ofEntries es stats).units[i]? = some e.unit ∧
      (ofEntries es stats).counters[i]? = some (row (positions es) i e) := by
  rw [SortedMap.keys, List.getElem?_map, Option.map_eq_some_iff] at hk
  obtain ⟨a, ha, rfl⟩ := hk
  have hvalue : es.values[i]? = some a.2 := by
    rw [SortedMap.values, List.getElem?_map, ha, Option.map_some]
  refine ⟨a.2, SortedMap.get?_of_mem_toList (List.mem_of_getElem? ha), ?_, ?_⟩
  · show (es.values.map (·.unit))[i]? = _
    rw [List.getElem?_map, hvalue, Option.map_some]
  · show (es.values.zipIdx.map fun a => row (positions es) a.2 a.1)[i]? = _
    rw [List.getElem?_map, List.getElem?_zipIdx, hvalue, Nat.zero_add]
    rfl

/-- On the diagonal stands the count, which no peer covers. -/
theorem get?_row_self (hirr : es.Irreflexive) {i : Nat} {k : String} {e : Entry}
    (hk : es.keys[i]? = some k)
    (he : es.get? k = some e) : (row (positions es) i e).get? i = some e.count := by
  have hself : e.couples.get? k = none := by rw [← Entries.coupling_of_get? he, hirr]
  rw [get?_row, hk, Option.bind_some, hself, Option.none_or, if_pos rfl]

/-- Beside the diagonal stands the number of the peer whose position it is, and nothing if there is
none. -/
theorem get?_row_of_ne {i j : Nat} (hne : j ≠ i) (e : Entry) (n : Nat) :
    (row (positions es) i e).get? j = some n ↔
      ∃ k, es.keys[j]? = some k ∧ e.couples.get? k = some n := by
  rw [get?_row, if_neg hne, Option.or_none, Option.bind_eq_some_iff]

/-- A row is that of the entry under the key at its position. -/
theorem exists_key_of_row {i : Nat} {row' : CountRow}
    (h : (ofEntries es stats).counters[i]? = some row') :
    ∃ k e, es.keys[i]? = some k ∧ es.get? k = some e ∧ row' = row (positions es) i e := by
  have hi : i < es.keys.length := by
    rw [← SortedMap.size_eq_length_keys, ← length_counters stats]
    exact (List.getElem?_eq_some_iff.mp h).1
  obtain ⟨e, he, -, hrow⟩ := getElem?_ofEntries stats (List.getElem?_eq_getElem hi)
  rw [h, Option.some.injEq] at hrow
  exact ⟨es.keys[i], e, List.getElem?_eq_getElem hi, he, hrow⟩

/-- **Symmetric couplings make a symmetric matrix.** The cell of two units is the coupling that the
one lists of the other, and on the diagonal there is nothing to compare. -/
theorem counters_comm (hsym : es.Symmetric) {i j : Nat} {rowᵢ rowⱼ : CountRow}
    (hi : (ofEntries es stats).counters[i]? = some rowᵢ)
    (hj : (ofEntries es stats).counters[j]? = some rowⱼ) : rowᵢ.get? j = rowⱼ.get? i := by
  by_cases hij : i = j
  · subst hij
    rw [Option.some.inj (hi.symm.trans hj)]
  · obtain ⟨k, e, hk, he, rfl⟩ := exists_key_of_row stats hi
    obtain ⟨l, d, hl, hd, rfl⟩ := exists_key_of_row stats hj
    have hcomm := hsym k l (SortedMap.mem_of_get? he) (SortedMap.mem_of_get? hd)
    rw [Entries.coupling_of_get? he, Entries.coupling_of_get? hd] at hcomm
    rw [get?_row, get?_row, hl, hk, Option.bind_some, Option.bind_some, hcomm, if_neg hij,
      if_neg (Ne.symm hij)]

end Matrix

end RawReport

/-- **The report is the matrix of the entries.** It lists the units of all entries in the order of
their keys, which are distinct, with one row for each. The row at the position of a key has there
the count of its entry, and at any other position the number of the peer whose key has that
position, so that peers without an entry are left out. The matrix is symmetric if the couplings are,
and it is the same however the entries and their peers are walked through. -/
theorem report_is_matrix (es : Entries) (stats : SortedMap String CommitStats)
    (hirr : es.Irreflexive) :
    let report := RawReport.ofEntries es stats
    es.keys.Pairwise (· < ·) ∧ (∀ k, k ∈ es.keys ↔ k ∈ es) ∧
    report.units.length = es.keys.length ∧ report.counters.length = es.keys.length ∧
    (∀ i k, es.keys[i]? = some k → ∃ e row, es.get? k = some e ∧ report.units[i]? = some e.unit ∧
      report.counters[i]? = some row ∧ row.get? i = some e.count ∧ report.count i = e.count ∧
      ∀ j n, j ≠ i →
        (row.get? j = some n ↔ ∃ k', es.keys[j]? = some k' ∧ e.couples.get? k' = some n)) ∧
    (es.Symmetric → ∀ (i j : Nat) (rowᵢ rowⱼ : CountRow), report.counters[i]? = some rowᵢ →
      report.counters[j]? = some rowⱼ →
        rowᵢ.get? j = rowⱼ.get? i) ∧
    ∀ listing : Listing, listing.Lists es → RawReport.ofListing listing stats = report := by
  intro report
  have hsize := SortedMap.size_eq_length_keys es
  refine ⟨List.pairwise_map.mpr es.sorted, fun k => SortedMap.mem_keys,
    (RawReport.length_units stats).trans hsize, (RawReport.length_counters stats).trans hsize,
    fun i k hk => ?_, fun hsym i j rowᵢ rowⱼ => RawReport.counters_comm stats hsym,
    fun listing h => RawReport.ofListing_eq h stats⟩
  obtain ⟨e, he, hunit, hrow⟩ := RawReport.getElem?_ofEntries stats hk
  have hself := RawReport.get?_row_self hirr hk he
  refine ⟨e, _, he, hunit, hrow, hself, ?_, fun j n hne => RawReport.get?_row_of_ne hne e n⟩
  simp only [RawReport.count, report, hrow, SortedMap.getD_eq, hself, Option.getD_some]

/-! ### Entries with a peer that is not there -/

namespace Sample

/-- Two units that changed together twice, one of which also lists a unit that has gone. -/
def leftover : Entries :=
  .ofList
    [("Function_foo_a.go", ⟨unit "foo" "a.go", 3, .ofList [("Function_bar_a.go", 2), ("gone", 1)]⟩),
    ("Function_bar_a.go", ⟨unit "bar" "a.go", 2, .ofList [("Function_foo_a.go", 2)]⟩)]

/-- A walk through them against the order of the keys. -/
def walked : Listing :=
  [("Function_foo_a.go", ⟨unit "foo" "a.go", 3, [("gone", 1), ("Function_bar_a.go", 2)]⟩),
    ("Function_bar_a.go", ⟨unit "bar" "a.go", 2, [("Function_foo_a.go", 2)]⟩)]

/-- The sample walk over the registry is one of its listings. -/
theorem lists_walked : walked.Lists leftover where
  keys := by decide +kernel
  entry := by
    have hall : ∀ a ∈ walked, ∃ b ∈ leftover.toList, a.1 = b.1 ∧
        a.2.unit = b.2.unit ∧ a.2.count = b.2.count ∧
        a.2.peers.Perm b.2.couples.toList := by decide +kernel
    intro k d hd
    obtain ⟨⟨k', e⟩, hb, rfl, hrest⟩ := hall (k, d) hd
    exact ⟨e, SortedMap.get?_of_mem_toList hb, hrest⟩

end Sample

/-- Two units, of which one lists a peer that has gone, walked through against the order of their
keys: the peer gets no column, and the two agree about each other. -/
theorem report_is_matrix_sample :
    let es := Sample.leftover
    let report := RawReport.ofEntries es ∅
    es.Irreflexive ∧ es.Symmetric ∧
      Sample.walked.Lists es ∧ RawReport.ofListing Sample.walked ∅ = report ∧
      es.keys = ["Function_bar_a.go", "Function_foo_a.go"] ∧ report.count 1 = 3 ∧
      (∃ row, report.counters[1]? = some row ∧ row.get? 0 = some 2 ∧ row.get? 1 = some 3 ∧
        row.get? 2 = none) ∧
      ∀ rowᵢ rowⱼ : CountRow, report.counters[0]? = some rowᵢ → report.counters[1]? = some rowⱼ →
        rowᵢ.get? 1 = rowⱼ.get? 0 := by
  intro es report
  have hirr : es.Irreflexive := by
    have hall : ∀ a ∈ es.toList, a.2.couples.get? a.1 = none := by decide +kernel
    intro k
    refine Option.eq_none_iff_forall_ne_some.mpr fun n hn => ?_
    obtain ⟨e, he, hself⟩ := Option.bind_eq_some_iff.mp hn
    rw [hall (k, e) (SortedMap.get?_eq_some_iff.mp he)] at hself
    exact absurd hself (by simp)
  have hsym : es.Symmetric := by
    have hall : ∀ a ∈ es.toList, ∀ b ∈ es.toList, a.2.couples.get? b.1 = b.2.couples.get? a.1 := by
      decide +kernel
    intro j k hj hk
    obtain ⟨d, hd⟩ := SortedMap.mem_iff.mp hj
    obtain ⟨e, he⟩ := SortedMap.mem_iff.mp hk
    rw [Entries.coupling_of_get? hd, Entries.coupling_of_get? he]
    exact hall (j, d) (SortedMap.get?_eq_some_iff.mp hd) (k, e) (SortedMap.get?_eq_some_iff.mp he)
  have hkeys : es.keys = ["Function_bar_a.go", "Function_foo_a.go"] := by decide +kernel
  obtain ⟨-, -, -, -, hrows, hcomm, hwalk⟩ := report_is_matrix es ∅ hirr
  obtain ⟨e, row, he, -, hrow, hself, hcount, hothers⟩ :=
    hrows 1 "Function_foo_a.go" (by rw [hkeys]; rfl)
  have hentry : es.countAt "Function_foo_a.go" = 3 := by decide +kernel
  rw [Entries.countAt_of_get? he] at hentry
  have hpeer : es.coupling "Function_foo_a.go" "Function_bar_a.go" = some 2 := by decide +kernel
  rw [Entries.coupling_of_get? he] at hpeer
  refine ⟨hirr, hsym, Sample.lists_walked, hwalk _ Sample.lists_walked, hkeys, hcount.trans hentry,
    ⟨row, hrow, ?_, hself.trans (congrArg some hentry), ?_⟩, hcomm hsym 0 1⟩
  · exact (hothers 0 2 (by decide)).mpr ⟨_, by rw [hkeys]; rfl, hpeer⟩
  · -- the peer without an entry has no position
    refine Option.eq_none_iff_forall_ne_some.mpr fun n hn => ?_
    obtain ⟨k', hk', -⟩ := (hothers 2 n (by decide)).mp hn
    rw [hkeys] at hk'
    exact absurd hk' (by simp)

end CoChange
