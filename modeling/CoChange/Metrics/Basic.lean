import CoChange.Binary64.Basic
import CoChange.RawReport

/-!
# Metrics

What a report on an analysis tells a reader: how hot each unit is, which units change together,
which are a risk, and a few totals.

* `RawReport.hotness`, `RawReport.couplings`, `RawReport.hotspots`: the lists, the largest first.
* `RawReport.metrics`: all of them with the totals.

Scores are quotients of counts, each count rounded to a floating point number first. The changes of
all units are added up in a word of 64 bits.
-/

namespace CoChange

/-- How much a unit is at risk, by the number of its changes. -/
inductive Risk where
  | low
  | medium
  | high
  deriving DecidableEq, Repr, Inhabited

namespace Risk

/-- From ten changes on the risk is medium, from twenty on high. -/
def ofCount (changes : Nat) : Risk :=
  if 20 ≤ changes then high else if 10 ≤ changes then medium else low

def isHot : Risk → Bool
  | low => false
  | _ => true

def label : Risk → String
  | low => "LOW"
  | medium => "MEDIUM"
  | high => "HIGH"

end Risk

structure Hotness where
  unit : CodeUnit
  changes : Nat
  /-- The number of units that change together with it. -/
  peers : Nat
  score : Binary64
  deriving DecidableEq, Repr, Inhabited

/-- The name and the file of a unit. -/
structure UnitName where
  name : String
  file : String
  deriving DecidableEq, Repr, Inhabited

/-- Two units that change together. -/
structure Coupling where
  first : UnitName
  second : UnitName
  changes : Nat
  strength : Binary64
  deriving DecidableEq, Repr, Inhabited

/-- A unit at risk. -/
structure Hotspot where
  unit : CodeUnit
  changes : Nat
  risk : Risk
  deriving DecidableEq, Repr, Inhabited

/-- The totals of a report. -/
structure Totals where
  units : Nat
  changes : Nat
  couplings : Nat
  changesPerUnit : Binary64
  averageStrength : Binary64
  hotUnits : Nat
  deriving DecidableEq, Repr, Inhabited

structure Metrics where
  hotness : List Hotness
  couplings : List Coupling
  hotspots : List Hotspot
  totals : Totals
  deriving DecidableEq, Repr, Inhabited

/-- The scores, strengths and averages of metrics. -/
def Metrics.floats (m : Metrics) : List Binary64 :=
  m.hotness.map (·.score) ++ m.couplings.map (·.strength)
    ++ [m.totals.changesPerUnit, m.totals.averageStrength]

/-- A part as a share of the whole, zero of nothing. -/
def share (part whole : Nat) : Binary64 :=
  if whole = 0 then .zero false else .ofNat part / .ofNat whole

/-- What the strength of a coupling is a share of. -/
def couplingBase (changes a b : Nat) : Nat := max changes (max a b)

/-- How strongly two units with `a` and `b` changes, `changes` of them common, are coupled. -/
def couplingStrength (changes a b : Nat) : Binary64 := share changes (couplingBase changes a b)

/-- Sorts by decreasing count; what has the same count stays in order. -/
def sortByCount (count : α → Nat) (l : List α) : List α :=
  l.mergeSort fun a b => count b ≤ count a

namespace RawReport

/-- The units that have a row, with their positions. -/
def indexedUnits (r : RawReport) : List (CodeUnit × Nat) :=
  (r.units.take r.counters.length).zipIdx

def counts (r : RawReport) : List Nat := (List.range r.counters.length).map r.count

def maxCount (r : RawReport) : Nat := r.counts.foldl max 0

/-- The number of units that the unit at a position changes together with. -/
def peerCount (r : RawReport) (i : Nat) : Nat :=
  match r.counters[i]? with
  | none => 0
  | some row => row.size - 1

/-- The units by decreasing number of changes. -/
def hotness (r : RawReport) : List Hotness :=
  sortByCount (·.changes) <| r.indexedUnits.map fun (unit, i) =>
    ⟨unit, r.count i, r.peerCount i, share (r.count i) r.maxCount⟩

/-- The name of the unit at a position. -/
def unitName? (r : RawReport) (i : Nat) : Option UnitName :=
  r.units[i]?.map fun u => ⟨u.name, u.file⟩

/-- The couplings of the row at position `i` with units at later positions. -/
def rowCouplings (r : RawReport) (row : CountRow) (i : Nat) : List Coupling :=
  row.toList.filterMap fun (j, changes) =>
    if i < j && changes ≠ 0 then do
      let first ← r.unitName? i
      let second ← r.unitName? j
      return ⟨first, second, changes, couplingStrength changes (r.count i) (r.count j)⟩
    else none

/-- The pairs of units with common changes, by decreasing number of them. -/
def couplings (r : RawReport) : List Coupling :=
  sortByCount (·.changes) <| r.counters.zipIdx.flatMap fun (row, i) => r.rowCouplings row i

/-- The units at risk, by decreasing number of changes. -/
def hotspots (r : RawReport) : List Hotspot :=
  sortByCount (·.changes) <| r.indexedUnits.filterMap fun (unit, i) =>
    let risk := Risk.ofCount (r.count i)
    if risk.isHot then some ⟨unit, r.count i, risk⟩ else none

def sumStrengths (couplings : List Coupling) : Binary64 :=
  couplings.foldl (fun sum c => sum + c.strength) (.zero false)

/-- The sum of counts in a word: what does not fit is cut off. -/
def wordSum (counts : List Nat) : Nat := counts.foldl (fun sum n => (sum + n) % 2 ^ 64) 0

def totals (r : RawReport) (couplings : List Coupling) : Totals where
  units := r.units.length
  changes := wordSum r.counts
  couplings := couplings.length
  changesPerUnit := share (wordSum r.counts) r.units.length
  averageStrength :=
    if couplings.isEmpty then .zero false
    else sumStrengths couplings / .ofNat couplings.length
  hotUnits := (r.counts.filter fun n => (Risk.ofCount n).isHot).length

def metrics (r : RawReport) : Metrics :=
  let couplings := r.couplings
  ⟨r.hotness, couplings, r.hotspots, r.totals couplings⟩

end RawReport

end CoChange
