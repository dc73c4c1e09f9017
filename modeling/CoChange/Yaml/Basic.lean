import CoChange.Json.Basic

/-!
# Documents in YAML

A document to be written: like a JSON document, but the keys of a mapping may be integers too.
-/

namespace CoChange.Yaml

inductive Key where
  | string (value : String)
  | int (value : Int)
  deriving DecidableEq, Repr

inductive Value where
  | null
  | bool (value : Bool)
  | number (value : Json.Number)
  | string (value : String)
  | sequence (items : List Value)
  | mapping (entries : List (Key × Value))
  deriving Repr

instance : Inhabited Value := ⟨.null⟩

namespace Value

mutual

/-- A JSON document as a YAML document. -/
def ofJson : Json.Value → Value
  | .null => null
  | .bool b => bool b
  | .number n => number n
  | .string s => string s
  | .array items => sequence (ofJsonItems items)
  | .object members => mapping (ofJsonMembers members)

def ofJsonItems : List Json.Value → List Value
  | [] => []
  | v :: rest => ofJson v :: ofJsonItems rest

def ofJsonMembers : List (String × Json.Value) → List (Key × Value)
  | [] => []
  | (name, v) :: rest => (Key.string name, ofJson v) :: ofJsonMembers rest

end

end Value

end CoChange.Yaml
