import CoChange.Checkpoint.Store
import CoChange.Partition
import CoChange.Run.Basic

/-!
# Running in chunks

An engine consumes the commits chunk by chunk. Behind each chunk the engine is saved, if a store is
given, and when it has grown beyond its budget it frees what can be missed.
-/

namespace CoChange

/-- What ends a run in chunks early. -/
inductive RunError where
  | scan (error : HistoryError)
  | checkpoint (error : EngineError)
  deriving DecidableEq, Repr

namespace RunError

def message : RunError → String
  | scan e => e.message
  | checkpoint e => e.message

/-- What went wrong, in words, and then its cause. -/
def fullMessage : RunError → String
  | scan e => e.message
  | checkpoint e => e.fullMessage

def isCancelled : RunError → Bool
  | scan e => e.isCancelled
  | checkpoint _ => false

end RunError

namespace Chunked

/-- What a run counted. -/
structure Stats where
  chunks : Nat
  commits : Nat
  hibernations : Nat
  saved : Nat
  peakSize : Nat
  deriving DecidableEq, Repr, Inhabited

structure Settings where
  chunkSize : Nat
  maxMemoryBytes : Nat
  store : Option CheckpointStore
  now : Timestamp

/-- How a run ended. -/
structure Outcome where
  engine : Engine
  stopped : Bool
  files : FileSystem
  result : Except RunError Stats

/-- Saves the engine, if a store is given. -/
def checkpoint (s : Settings) (e : Engine) (fs : FileSystem) :
    FileSystem × Except EngineError Nat :=
  match s.store with
  | none => (fs, .ok 0)
  | some store =>
    match store.save s.now e fs with
    | (fs, .ok _) => (fs, .ok 1)
    | (fs, .error err) => (fs, .error err)

/-- Runs an engine over chunks, with the counts of the chunks before. -/
def runChunksIn (orders : TableOrders) (s : Settings) (open_ : OpenHistory) (stats : Stats)
    (stopped : Bool) (e : Engine) (fs : FileSystem) : List (List String) → Outcome
  | [] => ⟨e, stopped, fs, .ok stats⟩
  | chunk :: rest =>
    if stopped then ⟨e, stopped, fs, .error (.scan .cancelled)⟩
    else
      let run := openAndDriveIn orders stopped e (open_ chunk)
      match run.outcome with
      | .error err => ⟨run.engine, run.stopped, fs, .error (.scan err)⟩
      | .ok n =>
        let size := run.engine.estimatedSize
        match checkpoint s run.engine fs with
        | (fs, .error err) => ⟨run.engine, run.stopped, fs, .error (.checkpoint err)⟩
        | (fs, .ok saved) =>
          let exceeds := s.maxMemoryBytes < size
          let engine := if exceeds then run.engine.hibernate.boot else run.engine
          let stats : Stats :=
            ⟨stats.chunks + 1, stats.commits + n, stats.hibernations + (if exceeds then 1 else 0),
              stats.saved + saved, max stats.peakSize size⟩
          runChunksIn orders s open_ stats run.stopped engine fs rest

/-- Runs an engine over the given commits. -/
def runIn (orders : TableOrders) (s : Settings) (stopped : Bool) (e : Engine) (fs : FileSystem)
    (ids : List String) (open_ : OpenHistory) : Outcome :=
  runChunksIn orders s open_ ⟨0, 0, 0, 0, 0⟩ stopped e fs (chunks s.chunkSize ids)

/-- `runIn`, with all tables walked through by their keys. -/
def run (s : Settings) (stopped : Bool) (e : Engine) (fs : FileSystem) (ids : List String)
    (open_ : OpenHistory) : Outcome :=
  runIn .byKey s stopped e fs ids open_

end Chunked

end CoChange
