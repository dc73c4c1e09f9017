import CoChange.MergeLog
import CoChange.RawReport
import CoChange.Registry.Basic

/-!
# The engine

Consumes the commits of a history one after the other and keeps the registry of units. An engine can
be forked into empty ones that take a part of the history each, and merged with them afterwards; it
can be saved as a state and restored from one.
-/

namespace CoChange

/-- The orders of the hash tables during a run: for each commit, by its position in the history, and
for each change of the commit, by its position in it. -/
abbrev TableOrders := Nat → Nat → Registry.TableOrder

/-- All tables are walked through by their keys. -/
def TableOrders.byKey : TableOrders := fun _ _ => .byKey

/-- What a checkpoint keeps of an engine. -/
structure EngineState where
  entries : Entries
  merges : List String
  processed : Nat
  last : Option String
  deriving Inhabited

/-- An engine, with the query that picks units and the cap on coupled units. -/
structure Engine where
  query : UnitQuery
  cap : Nat
  registry : Registry
  merges : MergeLog
  stats : SortedMap String CommitStats
  processed : Nat
  last : Option String

namespace Engine

def name : String := "shotness"

/-- An engine that has consumed nothing. -/
def new (query : UnitQuery) (cap : Nat) : Engine := ⟨query, cap, .empty, .empty, ∅, 0, none⟩

/-- The same query and cap without anything consumed. -/
def reset (e : Engine) : Engine := new e.query e.cap

/-- Applies one change of a commit; deletions are left for later. -/
def applyChangeIn (o : Registry.TableOrder) (q : UnitQuery) (p : Registry.Pass) (c : Change) :
    Registry.Pass :=
  match c.kind, c.after with
  | .inserted, some after => p.insertion q c.target after
  | .modified, _ => p.modificationIn o q c
  | _, _ => p

/-- The files that a commit deletes, in the order of its changes. -/
def deletedFiles (c : Commit) : List String :=
  (c.changes.filter (·.kind == .deleted)).map (·.source)

/-- The registry after the changes of a commit, with the touched keys: all changes but deletions are
applied in order, then pairs are counted, then the deleted files go. -/
def applyCommitIn (orders : Nat → Registry.TableOrder) (q : UnitQuery) (cap : Nat) (r : Registry)
    (c : Commit) : Registry.Pass :=
  let p := c.changes.zipIdx.foldl (fun p x => applyChangeIn (orders x.2) q p x.1) ⟨r, ∅⟩
  let coupled := p.registry.coupleWithin cap p.touched
  ⟨(deletedFiles c).foldl (fun r file => r.removeFile file) coupled, p.touched⟩

/-- `applyCommitIn`, with all tables walked through by their keys. -/
def applyCommit (q : UnitQuery) (cap : Nat) (r : Registry) (c : Commit) : Registry.Pass :=
  applyCommitIn (fun _ => .byKey) q cap r c

/-- Consumes a commit, with its statistics if it touched anything. A merge that was seen before
counts as processed and does nothing else. -/
def consumeIn (orders : TableOrders) (e : Engine) (c : Commit) : Engine × Option CommitStats :=
  let orders := orders e.processed
  let e := { e with processed := e.processed + 1, last := some c.hash }
  match e.merges.accept c.hash c.parentCount with
  | (false, merges) => ({ e with merges }, none)
  | (true, merges) =>
    let p := applyCommitIn orders e.query e.cap e.registry c
    let e := { e with merges, registry := p.registry }
    if p.touched.isEmpty then (e, none)
    else
      let stats := CommitStats.ofTouched p.touched.size
      ({ e with stats := e.stats.insert c.hash stats }, some stats)

def stepIn (orders : TableOrders) (e : Engine) (c : Commit) : Engine := (e.consumeIn orders c).1

def runIn (orders : TableOrders) (e : Engine) (commits : List Commit) : Engine :=
  commits.foldl (stepIn orders) e

/-- `consumeIn`, with all tables walked through by their keys. -/
def consume (e : Engine) (c : Commit) : Engine × Option CommitStats := e.consumeIn .byKey c

def step (e : Engine) (c : Commit) : Engine := (e.consume c).1

def run (e : Engine) (commits : List Commit) : Engine := commits.foldl step e

/-- Empty engines of the same settings. -/
def fork (e : Engine) (n : Nat) : List Engine := List.replicate n e.reset

/-- Adds what another engine has consumed; the file index is left to `merge`. -/
def absorb (e branch : Engine) : Engine :=
  { e with
    registry := e.registry.absorb branch.registry
    merges := e.merges.union branch.merges
    stats := e.stats.union branch.stats
    processed := e.processed + branch.processed
    last := match branch.last with
      | some hash => some hash
      | none => e.last }

/-- Adds what the given engines have consumed, in their order. -/
def merge (e : Engine) (branches : List Engine) : Engine :=
  let e := branches.foldl absorb e
  { e with registry := e.registry.reindex }

/-- Frees what can be missed between two chunks. -/
def hibernate (e : Engine) : Engine := { e with merges := e.merges.hibernate }

/-- Makes ready for more commits. -/
def boot (e : Engine) : Engine := { e with merges := e.merges.boot }

/-- An estimate of the memory in use, in bytes. -/
def estimatedSize (e : Engine) : Nat :=
  e.registry.size * 150 + e.registry.edgeCount * 50 + e.merges.size * 64

def state (e : Engine) : EngineState := ⟨e.registry.entries, e.merges.hashes, e.processed, e.last⟩

/-- Takes over a saved state; statistics of commits start anew. -/
def restore (e : Engine) (s : EngineState) : Engine :=
  { e with
    registry := .ofEntries s.entries
    merges := .ofHashes s.merges
    stats := ∅
    processed := s.processed
    last := s.last }

/-- The report on everything consumed. -/
def finalize (e : Engine) : RawReport := .ofEntries e.registry.entries e.stats

end Engine

end CoChange
