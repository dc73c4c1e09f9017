/-!
# Versions of stored formats

Checkpoints and binary reports carry a version, packed as `major * 10000 + minor * 100 + patch`.
Data can be read by every program of the same major version.
-/

namespace CoChange.FormatVersion

def current : Nat := 10000

/-- The version of the program itself. -/
def program : String := "0.1.0"

def major (version : Nat) : Nat := version / 10000

/-- Whether data of a version can be read. -/
def isCompatible (version : Nat) : Bool := major version == major current

end CoChange.FormatVersion
