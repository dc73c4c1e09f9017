import CoChange.Decimal.Literal
import CoChange.Json.Basic

/-!
# Reading records out of JSON values

A record is written as an object, by the names of its fields, or as an array, by their order. A
`FieldReader` reads a record field by field from either form:

* by name, unknown members are ignored, a field that is there twice is an error, and a missing field
  is an error unless the field is optional or has a default;
* by position, every field without a default has to be there, and no item may be left over.

Integers never accept floating point numbers; floating point fields accept integers.
-/

namespace CoChange.Json

/-- Why a value cannot be read as a record. -/
inductive DecodeError where
  | wrongType (expected : String)
  | outOfRange (expected : String)
  | missingField (name : String)
  | duplicateField (name : String)
  | unknownVariant (name : String)
  | invalidKey (key : String)
  | tooFewItems
  | tooManyItems
  | invalidTimestamp
  deriving DecidableEq, Repr

def DecodeError.message : DecodeError → String
  | .wrongType expected => "invalid type, expected " ++ expected
  | .outOfRange expected => "invalid value, expected " ++ expected
  | .missingField name => "missing field '" ++ name ++ "'"
  | .duplicateField name => "duplicate field '" ++ name ++ "'"
  | .unknownVariant name => "unknown variant '" ++ name ++ "'"
  | .invalidKey key => "invalid key '" ++ key ++ "'"
  | .tooFewItems => "too few items"
  | .tooManyItems => "too many items"
  | .invalidTimestamp => "invalid date and time"

/-- A reader of one type out of JSON values. -/
abbrev Decoder (α : Type) := Value → Except DecodeError α

namespace Decoder

def string : Decoder String
  | .string s => .ok s
  | _ => .error (.wrongType "a string")

/-- A natural number below `2 ^ width`. -/
def natBelow (width : Nat) : Decoder Nat
  | .number (.int (.ofNat n)) => if n < 2 ^ width then .ok n else .error (.outOfRange "an integer")
  | .number (.int _) => .error (.outOfRange "an integer")
  | _ => .error (.wrongType "an integer")

def nat : Decoder Nat := natBelow 64

/-- A floating point number; an integer is rounded to the nearest one. -/
def float : Decoder Binary64
  | .number (.float x) => .ok x
  | .number (.int z) => .ok (.ofRatio (z < 0) z.natAbs 1)
  | _ => .error (.wrongType "a number")

def optional (decode : Decoder α) : Decoder (Option α)
  | .null => .ok none
  | v => (decode v).map some

def list (decode : Decoder α) : Decoder (List α)
  | .array items => items.mapM decode
  | _ => .error (.wrongType "an array")

/-- A map; of several members with one key the last stays. -/
def map (decode : Decoder α) : Decoder (SortedMap String α)
  | .object members => do
    let entries ← members.mapM fun (k, v) => (decode v).map (Prod.mk k)
    return .ofList entries
  | _ => .error (.wrongType "an object")

/-- Reads a decimal key: digits only, no leading zero, below `2 ^ 64`. -/
def natKey? (key : String) : Option Nat :=
  match key.toList with
  | [] => none
  | ['0'] => some 0
  | '0' :: _ => none
  | cs => if cs.all Char.isDigit && Decimal.ofDigits cs < 2 ^ 64 then
      some (Decimal.ofDigits cs) else none

/-- A map whose keys are natural numbers in decimal. -/
def natMap (decode : Decoder α) : Decoder (SortedMap Nat α)
  | .object members => do
    let entries ← members.mapM fun (k, v) => do
      match natKey? k with
      | none => throw (.invalidKey k)
      | some n => return (n, ← decode v)
    return .ofList entries
  | _ => .error (.wrongType "an object")

/-- One of a fixed set of words, as a string or as the name of a single null member. -/
def oneOf (words : List (String × α)) : Decoder α := fun v => do
  let name ← match v with
    | .string s => pure s
    | .object [(s, .null)] => pure s
    | _ => throw (.wrongType "a name")
  match words.lookup name with
  | some a => return a
  | none => throw (.unknownVariant name)

end Decoder

/-- Where the fields of a record are read from. -/
inductive FieldSource where
  | named (members : List (String × Value))
  | positional (items : List Value)

/-- A reader of some fields of a record. -/
abbrev FieldReader (α : Type) := StateT FieldSource (Except DecodeError) α

namespace FieldReader

/-- Takes the value of the next field, if it is there. -/
def take (name : String) : FieldReader (Option Value) := do
  match ← get with
  | .named members =>
    match members.filter (·.1 == name) with
    | [] => return none
    | [(_, v)] => return some v
    | _ => throw (.duplicateField name)
  | .positional [] => return none
  | .positional (v :: rest) => do
    set (FieldSource.positional rest)
    return some v

def missing (name : String) : FieldReader α := do
  match ← get with
  | .named _ => throw (.missingField name)
  | .positional _ => throw .tooFewItems

def required (name : String) (decode : Decoder α) : FieldReader α := do
  match ← take name with
  | some v => decode v
  | none => missing name

/-- A field that may be missing and then has a default. -/
def withDefault (name : String) (default : α) (decode : Decoder α) : FieldReader α := do
  match ← take name with
  | some v => decode v
  | none => return default

def optional (name : String) (decode : Decoder α) : FieldReader (Option α) := do
  match ← take name with
  | some v => Decoder.optional decode v
  | none =>
    match ← get with
    | .named _ => return none
    | .positional _ => missing name

/-- Reads a whole record. -/
def record (fields : FieldReader α) : Decoder α
  | .object members => (fields.run (.named members)).map (·.1)
  | .array items => do
    let (a, rest) ← fields.run (.positional items)
    match rest with
    | .positional (_ :: _) => throw .tooManyItems
    | _ => return a
  | _ => .error (.wrongType "a record")

end FieldReader

end CoChange.Json
