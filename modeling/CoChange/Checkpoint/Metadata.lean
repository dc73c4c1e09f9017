import CoChange.EngineError
import CoChange.FormatVersion
import CoChange.Json.Decode
import CoChange.Timestamp

/-!
# Descriptions of checkpoints

What stands beside a saved state: the version of the format, the repository, when it was saved and
up to which commit.
-/

namespace CoChange

open Json (Value Decoder FieldReader)

structure CheckpointMetadata where
  version : Nat
  repository : String
  created : Timestamp
  processed : Nat
  last : Option String
  deriving DecidableEq, Repr, Inhabited

def Timestamp.decoder : Decoder Timestamp
  | .string s =>
    match Timestamp.parse? s with
    | some t => .ok t
    | none => .error .invalidTimestamp
  | _ => .error (.wrongType "a date and time")

namespace CheckpointMetadata

def decoder : Decoder CheckpointMetadata := FieldReader.record do
  return {
    version := ← FieldReader.required "version" (Decoder.natBelow 32)
    repository := ← FieldReader.required "repo_path" Decoder.string
    created := ← FieldReader.required "created_at" Timestamp.decoder
    processed := ← FieldReader.required "commits_processed" Decoder.nat
    last := ← FieldReader.optional "last_commit" Decoder.string }

def toJson (m : CheckpointMetadata) : Value := .object
  [("version", .nat m.version), ("repo_path", .string m.repository),
    ("created_at", .string m.created.render), ("commits_processed", .nat m.processed),
    ("last_commit", .ofOption .string m.last)]

/-- Refuses a description of another major version, or of another repository. -/
def validate (repository : String) (m : CheckpointMetadata) : Except EngineError Unit :=
  if !FormatVersion.isCompatible m.version then .error (.unsupportedVersion m.version)
  else if m.repository ≠ repository then .error (.repositoryMismatch repository m.repository)
  else .ok ()

end CheckpointMetadata

end CoChange
