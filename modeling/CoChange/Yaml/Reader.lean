import CoChange.Json.Basic
import CoChange.Yaml.Node
import CoChange.Yaml.Scalar

/-!
# Reading YAML

A text becomes a document of the kind that JSON has. Keys are texts, whatever they look like; of
several entries with one key the last counts. Aliases are replaced by what they stand for, within
bounds: not more than a hundred times as often as the document is large. Tags of the core are
heeded, all others but local ones are ignored.
-/

namespace CoChange.Yaml

/-- A reader of values; it counts the aliases that it may still follow. -/
abbrev ValueReader (α : Type) := StateT Nat (Except Fault) α

/-- The tag of a kind of the core. -/
def coreTag (kind : String) : String := "tag:yaml.org,2002:" ++ kind

/-- The value of an integer, which has to fit a word. -/
def wordValue (z : Int) : Except Fault Json.Value :=
  if Scalar.fitsWord z then .ok (.number (.int z)) else .error .wideInteger

def plainValue (text : String) : Except Fault Json.Value :=
  match Scalar.resolve text with
  | .null => .ok .null
  | .bool b => .ok (.bool b)
  | .int z => .ok (.number (.int z))
  | .wideInt => .error .wideInteger
  | .float x => .ok (.float x)
  | .text => .ok (.string text)

/-- The value of a scalar with a tag. -/
def taggedValue (tag text : String) : Except Fault Json.Value :=
  let value := Scalar.resolve text
  if tag = coreTag "bool" then
    match value with
    | .bool b => .ok (.bool b)
    | _ => .error .badValue
  else if tag = coreTag "int" then
    match value with
    | .int z => wordValue z
    | _ => .error .badValue
  else if tag = coreTag "float" then
    match Scalar.float? text.toList with
    | some x => .ok (.float x)
    | none => .error .badValue
  else if tag = coreTag "null" then
    if value = .null && text ≠ "" then .ok .null else .error .badValue
  else .ok (.string text)

def scalarValue (tag : Option String) (plain : Bool) (text : String) : Except Fault Json.Value :=
  match tag with
  | some tag => taggedValue tag text
  | none => if plain then plainValue text else .ok (.string text)

def keyText : Node → Except Fault String
  | .scalar _ _ text => .ok text
  | _ => .error .badKey

namespace Document

/-- Replaces an alias by the node that it stands for. -/
def follow (d : Document) (n : Node) : ValueReader Node := do
  match n with
  | .alias number =>
    match ← get, d.anchored.lookup number with
    | 0, _ => throw .tooManyAliases
    | _, none => throw .unknownAlias
    | left + 1, some target =>
      set left
      return target
  | n => return n

/-- The value of a node whose collections are at most `depth` deep. -/
def valueOf (d : Document) : Nat → Node → ValueReader Json.Value
  | depth, n => do
    let n ← d.follow n
    if n.hasLocalTag then throw .localTag
    match n, depth with
    | .scalar tag plain text, _ => liftM (scalarValue tag plain text)
    | .alias _, _ => throw .unknownAlias
    | _, 0 => throw .tooDeep
    | .sequence _ items, depth + 1 => return .array (← items.mapM (d.valueOf depth))
    | .mapping _ entries, depth + 1 =>
      return .object (← entries.mapM fun (k, v) => do
        let name ← liftM (keyText (← d.follow k))
        return (name, ← d.valueOf depth v))

/-- The deepest nesting of collections that is read. -/
def maxDepth : Nat := 128

def value (d : Document) : Except Fault Json.Value := do
  let (v, _) ← (d.valueOf maxDepth d.root).run (100 * d.root.size)
  return v

end Document

/-- Reads a text; one without content is null. -/
def parse (s : String) : Except Fault Json.Value := do
  match ← Document.ofTokens (← Token.ofText s) with
  | none => return .null
  | some d => d.value

end CoChange.Yaml
