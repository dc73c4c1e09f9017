/-!
# Errors of the engine and of stored data
-/

namespace CoChange

/-- Why an engine cannot be set up, saved or restored, or a stored report not be read. -/
inductive EngineError where
  /-- A file operation failed. -/
  | io (path cause : String)
  /-- Stored bytes are not of the expected form. -/
  | codec (detail : String)
  /-- The description of a checkpoint is not of the expected form. -/
  | metadata (detail : String)
  /-- A checkpoint was saved for another repository. -/
  | repositoryMismatch (expected found : String)
  /-- Stored data has a version that cannot be read. -/
  | unsupportedVersion (version : Nat)
  /-- A stored report does not begin as one. -/
  | envelope (detail : String)
  /-- The engine cannot work with its settings. -/
  | configuration (detail : String)
  deriving DecidableEq, Repr, Inhabited

namespace EngineError

def message : EngineError → String
  | io path cause => "Checkpoint I/O error at " ++ path ++ ": " ++ cause
  | codec detail => "Checkpoint encoding error: " ++ detail
  | metadata detail => "Checkpoint metadata error: " ++ detail
  | repositoryMismatch expected found =>
    "Checkpoint belongs to repository '" ++ found ++ "', expected '" ++ expected ++ "'"
  | unsupportedVersion version => "Unsupported checkpoint format version: " ++ toString version
  | envelope detail => "Invalid report envelope: " ++ detail
  | configuration detail => "Invalid engine configuration: " ++ detail

/-- What went wrong, in words, and then its cause: a failed file operation has one. -/
def fullMessage (e : EngineError) : String :=
  match e with
  | io _ cause => e.message ++ ": " ++ cause
  | _ => e.message

/-- Whether a checkpoint is whole but not one to resume from. -/
def isStale : EngineError → Bool
  | repositoryMismatch _ _ => true
  | unsupportedVersion _ => true
  | _ => false

end EngineError

end CoChange
