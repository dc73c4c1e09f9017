import CoChange.Registry.Basic

/-!
# Raw reports

What an analysis found, before any score: the units in the order of their keys, for each of them a
row with its own number of changes and its common changes with the others, and for each commit how
many units it touched.
-/

namespace CoChange

/-- What one commit touched. -/
structure CommitStats where
  unitsTouched : Nat
  couplingPairs : Nat
  deriving DecidableEq, Repr, Inhabited

/-- The statistics of a commit that touched `n` units. -/
def CommitStats.ofTouched (n : Nat) : CommitStats := ⟨n, n * (n - 1) / 2⟩

/-- A row of counts, by the positions of units. -/
abbrev CountRow := SortedMap Nat Nat

/-- The result of an analysis. -/
structure RawReport where
  units : List CodeUnit
  counters : List CountRow
  commitStats : SortedMap String CommitStats
  deriving Inhabited

namespace RawReport

/-- The row of an entry: its peers that have a position, and its own count, which a peer at the same
position overrides. -/
def row (positions : SortedMap String Nat) (position : Nat) (e : Entry) : CountRow :=
  e.couples.toList.foldl (fun row peer =>
    match positions.get? peer.1 with
    | some i => row.insert i peer.2
    | none => row) (SortedMap.insert position e.count ∅)

def ofEntries (entries : Entries) (stats : SortedMap String CommitStats) : RawReport :=
  let positions : SortedMap String Nat :=
    .ofList (entries.keys.zipIdx)
  ⟨entries.values.map (·.unit),
    entries.values.zipIdx.map fun (e, i) => row positions i e, stats⟩

def isEmpty (r : RawReport) : Bool := r.units.isEmpty

/-- The number of changes of the unit at a position; zero where there is none. -/
def count (r : RawReport) (i : Nat) : Nat :=
  match r.counters[i]? with
  | none => 0
  | some row => row.getD i 0

end RawReport

end CoChange
