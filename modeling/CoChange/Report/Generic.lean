import CoChange.Json.Printer
import CoChange.Report.Text

/-!
# Reports on any document

A document of unknown layout is shown as a table of its leaves. A leaf is a scalar, or an array or
object without content; its key is the path to it, whose parts are separated by dots.
-/

namespace CoChange.Report

open Json (Value)

/-- The key of a part below a key. -/
def childKey (key part : String) : String := if key.isEmpty then part else key ++ "." ++ part

mutual

def leaves (key : String) : Value → List (String × Value)
  | .array (v :: rest) => leaves (childKey key "0") v ++ itemLeaves key 1 rest
  | .object ((name, v) :: rest) => leaves (childKey key name) v ++ memberLeaves key rest
  | v => [(key, v)]

/-- The leaves of the items of an array, from position `i` on. -/
def itemLeaves (key : String) (i : Nat) : List Value → List (String × Value)
  | [] => []
  | v :: rest => leaves (childKey key (toString i)) v ++ itemLeaves key (i + 1) rest

def memberLeaves (key : String) : List (String × Value) → List (String × Value)
  | [] => []
  | (name, v) :: rest => leaves (childKey key name) v ++ memberLeaves key rest

end

/-- A leaf as it is shown: texts as they are, other leaves in their written form. -/
def leafText : Value → String
  | .string s => s
  | v => v.compact

/-- Whether a document has nothing to show. -/
def isBlank : Value → Bool
  | .null => true
  | .array [] => true
  | .object [] => true
  | _ => false

def genericRows (v : Value) : List Row :=
  if isBlank v then [] else (leaves "" v).map fun (key, leaf) => [key, leafText leaf]

/-- Writes a document of unknown layout for a reader. -/
def generic (colours : Bool) (v : Value) : String :=
  let rows := genericRows v
  paint colours .heading "Report" ++ "\n"
    ++ if rows.isEmpty then "  (empty)\n" else table ["Key", "Value"] rows

end CoChange.Report
