import CoChange.Checkpoint.Metadata
import CoChange.Digest.Sha256
import CoChange.Engine.Binary
import CoChange.FileSystem
import CoChange.Json.Parser
import CoChange.Json.Printer

/-!
# Storing checkpoints

The checkpoint of a repository is a directory with the state of an engine and a description. Both
files are written beside their place and then moved there, so that neither is ever seen half
written. The state carries the position in the history itself; where the two disagree, it counts.

* `CheckpointStore.saveSteps`: the steps of a save, one after the other.
* `CheckpointStore.save`, `CheckpointStore.load`, `CheckpointStore.resume`, `CheckpointStore.clear`.
-/

namespace CoChange

/-- Where the checkpoint of a repository is kept. -/
structure CheckpointStore where
  base : String
  repository : String
  deriving DecidableEq, Repr, Inhabited

namespace CheckpointStore

/-- The directory name of a repository: the first half of the digest of its path. -/
def repositoryHash (path : String) : String :=
  Digest.hex ((Digest.sha256 path.toUTF8.toList).take 8)

def directory (s : CheckpointStore) : String :=
  FilePath.join s.base (repositoryHash s.repository)

def file (s : CheckpointStore) (name : String) : String := FilePath.join s.directory name

def stateFile (s : CheckpointStore) : String := s.file "shotness_state.bin"

def metadataFile (s : CheckpointStore) : String := s.file "checkpoint.json"

def exists_ (s : CheckpointStore) (fs : FileSystem) : Bool :=
  fs.isFile s.stateFile && fs.isFile s.metadataFile

/-- The steps that replace a file as a whole: it is written beside its place and moved there. -/
def replaceSteps (beside path : String) (content : FileContent) : List FileSystem.Step :=
  [.write beside content, .rename beside path]

/-- The steps that save a state. -/
def stateSteps (s : CheckpointStore) (state : EngineState) : List FileSystem.Step :=
  replaceSteps (s.file "shotness_state.tmp") s.stateFile state.toBinary

/-- The steps that save a description. -/
def metadataSteps (s : CheckpointStore) (m : CheckpointMetadata) : List FileSystem.Step :=
  replaceSteps (s.file "checkpoint.tmp") s.metadataFile m.toJson.pretty.toUTF8.toList

/-- The description of the checkpoint that is saved at a time. -/
def metadataOf (s : CheckpointStore) (now : Timestamp) (state : EngineState) :
    CheckpointMetadata :=
  ⟨FormatVersion.current, s.repository, now, state.processed, state.last⟩

/-- The steps of a save: the directory, then the state, then the description. -/
def saveSteps (s : CheckpointStore) (now : Timestamp) (state : EngineState) :
    List FileSystem.Step :=
  .makeDirectories s.directory :: s.stateSteps state ++ s.metadataSteps (s.metadataOf now state)

/-- Does steps, with the error of the first that fails. -/
def performSteps (fs : FileSystem) (steps : List FileSystem.Step) (a : α) :
    FileSystem × Except EngineError α :=
  match fs.perform steps with
  | (fs, none) => (fs, .ok a)
  | (fs, some (step, fault)) => (fs, .error (.io step.path fault.message))

/-- Saves the state of an engine. -/
def save (s : CheckpointStore) (now : Timestamp) (e : Engine) (fs : FileSystem) :
    FileSystem × Except EngineError CheckpointMetadata :=
  performSteps fs (s.saveSteps now e.state) (s.metadataOf now e.state)

/-- Saves the state of an engine without a description. -/
def saveState (s : CheckpointStore) (e : Engine) (fs : FileSystem) :
    FileSystem × Except EngineError Unit :=
  performSteps fs (s.stateSteps e.state) ()

def loadMetadata (s : CheckpointStore) (fs : FileSystem) : Except EngineError CheckpointMetadata :=
  match fs.readText s.metadataFile with
  | .error fault => .error (.io s.metadataFile fault.message)
  | .ok text =>
    match Json.parse text with
    | .error e => .error (.metadata e.message)
    | .ok v =>
      match CheckpointMetadata.decoder v with
      | .error e => .error (.metadata e.message)
      | .ok m => .ok m

def loadState (s : CheckpointStore) (fs : FileSystem) : Except EngineError EngineState :=
  match fs.read s.stateFile with
  | .error fault => .error (.io s.stateFile fault.message)
  | .ok bytes => EngineState.ofBinary bytes

/-- Reads the checkpoint, unless it is of another repository or version. -/
def load (s : CheckpointStore) (fs : FileSystem) :
    Except EngineError (CheckpointMetadata × EngineState) := do
  let m ← s.loadMetadata fs
  m.validate s.repository
  let state ← s.loadState fs
  return (m, state)

/-- Restores the engine at hand from the checkpoint, if there is one, and gives its description, in
which the position of the state counts. The engine is changed last, when nothing can fail any
more. -/
def resumeInPlace (s : CheckpointStore) (fs : FileSystem) :
    ExceptT EngineError (StateM Engine) (Option CheckpointMetadata) := do
  if !s.exists_ fs then return none
  match s.load fs with
  | .error err => throw err
  | .ok (m, state) =>
    modify (·.restore state)
    return some { m with processed := state.processed, last := state.last }

/-- An engine restored from the checkpoint, if there is one, with the description. -/
def resume (s : CheckpointStore) (fs : FileSystem) (e : Engine) :
    Except EngineError (Option (CheckpointMetadata × Engine)) :=
  let (found, restored) := (s.resumeInPlace fs).run e
  found.map fun m? => m?.map (·, restored)

def clear (s : CheckpointStore) (fs : FileSystem) : FileSystem :=
  if fs.exists_ s.directory then fs.remove s.directory else fs

end CheckpointStore

end CoChange
