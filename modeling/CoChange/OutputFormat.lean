import CoChange.Text.Case

/-!
# Formats of written reports
-/

namespace CoChange

inductive OutputFormat where
  | text
  | json
  | yaml
  | binary
  deriving DecidableEq, Repr, Inhabited

namespace OutputFormat

def name : OutputFormat → String
  | text => "text"
  | json => "json"
  | yaml => "yaml"
  | binary => "binary"

def isBinary (f : OutputFormat) : Bool := f == binary

/-- A name that no format has, in lower case. -/
structure UnknownName where
  name : String
  deriving DecidableEq, Repr

def UnknownName.message (e : UnknownName) : String :=
  "Unknown output format '" ++ e.name ++ "'. Expected one of: text, json, yaml, binary"

def names : List (String × OutputFormat) :=
  [("text", text), ("txt", text), ("json", json), ("yaml", yaml), ("yml", yaml),
    ("binary", binary), ("bin", binary)]

/-- Reads a name, in capital or small letters. -/
def parse (input : String) : Except UnknownName OutputFormat :=
  let name := Text.lowerString input
  match names.lookup name with
  | some f => .ok f
  | none => .error ⟨name⟩

end OutputFormat

end CoChange
