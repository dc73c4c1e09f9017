import CoChange.Partition
import CoChange.Run.Basic

/-!
# Running in shards

The commits are cut into ranges, each of which a worker feeds to a fork of the engine. The forks are
merged in the order of the ranges when all workers are done. If one fails, the error of the first
failed range is the result and the engine stays as it was. A single range is fed to the engine
itself.
-/

namespace CoChange

namespace Sharded

/-- The results of workers in the order of their shards, whatever the order in which they finish. -/
def inOrder (shards : Nat) (finished : List (Nat × Run)) : List Run :=
  (List.range shards).filterMap fun i => List.lookup i finished

/-- The engines and the number of commits of all shards, or the first error. -/
def gather : List Run → Except HistoryError (List Engine × Nat)
  | [] => .ok ([], 0)
  | r :: rest => do
    let n ← r.outcome
    let (engines, total) ← gather rest
    return (r.engine :: engines, n + total)

/-- Merges the forks of all shards into an engine, which stays as it was if one of them failed. -/
def join (e : Engine) (runs : List Run) : Run :=
  let stopped := runs.any (·.stopped)
  match gather runs with
  | .error err => ⟨e, stopped, .error err⟩
  | .ok (engines, total) => ⟨e.merge engines, stopped, .ok total⟩

/-- The runs of the workers, with the numbers of their shards. -/
def workers (stopped : Bool) (e : Engine) (ids : List String) (ranges : List Range)
    (open_ : OpenHistory) : List (Nat × Run) :=
  ranges.zipIdx.map fun (r, shard) => (shard, openAndDrive stopped e.reset (open_ (r.slice ids)))

/-- Runs an engine over the given commits in shards. `finish` is the order in which the workers get
done. -/
def runFinishing (finish : List (Nat × Run) → List (Nat × Run)) (stopped : Bool) (e : Engine)
    (ids : List String) (shards : Nat) (open_ : OpenHistory) : Run :=
  let ranges := partition ids.length shards
  if ranges.length ≤ 1 then openAndDrive stopped e (open_ ids)
  else join e (inOrder ranges.length (finish (workers stopped e ids ranges open_)))

/-- Runs an engine over the given commits in shards. -/
def run (stopped : Bool) (e : Engine) (ids : List String) (shards : Nat) (open_ : OpenHistory) :
    Run :=
  runFinishing id stopped e ids shards open_

end Sharded

end CoChange
