import CoChange.Binary64.Basic
import CoChange.SortedMap.Basic

/-!
# JSON values

* `Json.Number`: an integer, kept exactly, or a floating point number.
* `Json.Value`: a document. The members of an object keep the order in which they were written, and
  a name may occur twice.
* `Json.Value.normalize`: the same document with the members of every object sorted by name, the
  last of several members with one name kept.
-/

namespace CoChange.Json

/-- A number of a document. Integers that fit neither an unsigned nor a signed word of 64 bits are
read as floating point numbers. -/
inductive Number where
  | int (value : Int)
  | float (value : Binary64)
  deriving DecidableEq, Repr

inductive Value where
  | null
  | bool (value : Bool)
  | number (value : Number)
  | string (value : String)
  | array (items : List Value)
  | object (members : List (String × Value))
  deriving Repr

instance : Inhabited Value := ⟨.null⟩

namespace Value

def nat (n : Nat) : Value := .number (.int n)

/-- A floating point number as a document; what is not finite has no JSON form and becomes null. -/
def float (x : Binary64) : Value := if x.isFinite then .number (.float x) else .null

/-- A text or null. -/
def ofOption (f : α → Value) : Option α → Value
  | none => .null
  | some a => f a

/-- The value of the last member with a name. -/
def member? (members : List (String × Value)) (name : String) : Option Value :=
  (members.reverse.find? (·.1 == name)).map (·.2)

mutual

/-- How deeply a document is nested: one for a scalar, one more than its deepest part otherwise. -/
def depth : Value → Nat
  | .array items => depthItems items + 1
  | .object members => depthMembers members + 1
  | _ => 1

def depthItems : List Value → Nat
  | [] => 0
  | v :: rest => max v.depth (depthItems rest)

def depthMembers : List (String × Value) → Nat
  | [] => 0
  | (_, v) :: rest => max v.depth (depthMembers rest)

end

mutual

/-- Sorts the members of every object by name; of several with one name the last is kept. -/
def normalize : Value → Value
  | .array items => .array (normalizeItems items)
  | .object members => .object (SortedMap.ofList (normalizeMembers members)).toList
  | v => v

/-- `normalize` on the items of an array. -/
def normalizeItems : List Value → List Value
  | [] => []
  | v :: rest => normalize v :: normalizeItems rest

/-- `normalize` on the values of the members of an object, in place. -/
def normalizeMembers : List (String × Value) → List (String × Value)
  | [] => []
  | (name, v) :: rest => (name, normalize v) :: normalizeMembers rest

end

end Value

end CoChange.Json
