import CoChange.AnalysisConfig
import CoChange.Repository.Commits
import CoChange.Run.Chunked
import CoChange.Run.Sharded

/-!
# Analysing a repository

The commits of a repository, or the most recent of them, are fed to an engine, in shards or else in
chunks, and the engine gives the report. A run in chunks can save checkpoints and go on from one;
when it is done, no checkpoint is left. A run in shards has nothing to do with checkpoints.

* `Analysis.resumePosition`: from which commit on a saved run is carried on.
* `Analysis.run`: the analysis.
-/

namespace CoChange

/-- The repositories that can be opened, by their paths. -/
abbrev Repositories := SortedMap String Repository

/-- The repository at a path. -/
def Repositories.open (repositories : Repositories) (path : String) :
    Except HistoryError Repository :=
  match repositories.get? path with
  | some r => .ok r
  | none =>
    .error (.repositoryAt
      ("Failed to open repository: could not find repository at '" ++ path
        ++ "'; class=Repository (6); code=NotFound (-3)") path)

/-- Why there is no report on a repository. -/
inductive AnalysisError where
  /-- The history cannot be read. -/
  | history (e : HistoryError)
  /-- The engine cannot be set up or resumed. -/
  | engine (e : EngineError)
  /-- A run in chunks has ended early. -/
  | run (e : RunError)
  deriving DecidableEq, Repr

def AnalysisError.message : AnalysisError → String
  | history e => e.message
  | engine e => e.fullMessage
  | run e => e.fullMessage

namespace Analysis

/-- Which commits of a history are analysed, and whether from the start. -/
structure Scope where
  /-- The number of most recent commits that are analysed; all, if nothing is said. -/
  limit : Option Nat
  /-- Whether a saved run is carried on. -/
  resume : Bool
  deriving DecidableEq, Repr, Inhabited

/-- What an analysis finds and changes. -/
structure Setting where
  files : FileSystem
  /-- The directory of checkpoints, if nothing is said about it. -/
  cache : String
  now : Timestamp

/-- The last of some commits. -/
def mostRecent (limit : Option Nat) (ids : List String) : List String :=
  match limit with
  | some n => ids.drop (ids.length - n)
  | none => ids

/-- Where checkpoints are kept, if they are. -/
def store? (config : AnalysisConfig) (resume : Bool) (cache path : String) :
    Option CheckpointStore :=
  match config.checkpointDir with
  | some dir => some ⟨dir, path⟩
  | none => if resume then some ⟨cache, path⟩ else none

/-- An engine with the queries and the cap of a configuration. -/
def engine (config : AnalysisConfig) : Except EngineError Engine :=
  match UnitQuery.compile config.structuralQuery config.nameQuery with
  | .ok query => .ok (.new query config.maxCouplingUnits)
  | .error e => .error (.configuration e.message)

/-- Whether a position in a history is the one behind a commit. -/
def isBehind (ids : List String) (position : Nat) (last : Option String) : Bool :=
  match position, last with
  | 0, none => true
  | index + 1, some hash => ids[index]? = some hash
  | _, _ => false

/-- The number of commits that a saved run has consumed already, with the engine restored from it. A
saved run that is not one over the given commits is given up. -/
def resumePosition (store : CheckpointStore) (files : FileSystem) (e : Engine) (ids : List String) :
    Except EngineError (FileSystem × Engine × Nat) := do
  match ← store.resume files e with
  | none => return (files, e, 0)
  | some (m, restored) =>
    if isBehind ids m.processed m.last then return (files, restored, m.processed)
    else return (store.clear files, restored.reset, 0)

/-- The commits of a repository, ready to be consumed. -/
def openHistory (r : Repository) : OpenHistory := fun ids => do
  return (← r.openCommits ids).map (⟨·, false⟩)

/-- The engine after a run over the given commits in chunks. -/
def runChunked (r : Repository) (path : String) (config : AnalysisConfig) (resume stopped : Bool)
    (e : Engine) (ids : List String) (s : Setting) : FileSystem × Except AnalysisError Engine :=
  let store? := store? config resume s.cache path
  let start := match store?, resume with
    | some store, true => resumePosition store s.files e ids
    | _, _ => .ok (s.files, e, 0)
  match start with
  | .error err => (s.files, .error (.engine err))
  | .ok (files, e, position) =>
    let out := Chunked.run ⟨config.chunkSize, config.maxMemoryBytes, store?, s.now⟩ stopped e files
      (ids.drop position) (openHistory r)
    match out.result with
    | .error err => (out.files, .error (.run err))
    | .ok _ => (store?.elim out.files (·.clear out.files), .ok out.engine)

/-- The report on the repository at a path. -/
def run (repositories : Repositories) (path : String) (config : AnalysisConfig) (scope : Scope)
    (stopped : Bool) (s : Setting) : FileSystem × Except AnalysisError RawReport :=
  match repositories.open path, engine config with
  | .error err, _ => (s.files, .error (.history err))
  | _, .error err => (s.files, .error (.engine err))
  | .ok r, .ok e =>
    let ids := mostRecent scope.limit r.history
    if 1 < config.shards then
      let run := Sharded.run stopped e ids config.shards (openHistory r)
      (s.files, (run.outcome.mapError .history).map fun _ => run.engine.finalize)
    else
      let (files, outcome) := runChunked r path config scope.resume stopped e ids s
      (files, outcome.map (·.finalize))

end Analysis

end CoChange
