import CoChange.Selector.Basic
import CoChange.Selector.Split
import CoChange.Text.Blank

/-!
# The query language

A structural query is `filter(…)` or `rfilter(…)` around alternatives separated by `||`, each a list
of conditions separated by `&&`:

    rfilter(.roles has "Function" && .props.visibility == "pub" || .type != "Lambda")

A name query is a single field, such as `.props.name`. Blanks may stand around all tokens.
Separators inside quotes belong to the quoted text, which may hold everything but a double quote.
-/

namespace CoChange

/-- Why a query is not accepted. -/
inductive QueryFault where
  | notASelector
  | emptyPredicate
  | badCondition (text : String)
  | unknownField (path : String)
  | rolesCompared
  | hasOnScalar
  | notAField
  | rolesAsName
  deriving DecidableEq, Repr

def QueryFault.message : QueryFault → String
  | .notASelector => "expected filter(...) or rfilter(...)"
  | .emptyPredicate => "empty predicate"
  | .badCondition text => "cannot parse condition '" ++ text ++ "'"
  | .unknownField path => "unknown field '." ++ path ++ "'"
  | .rolesCompared => ".roles only supports 'has'"
  | .hasOnScalar => "'has' only applies to .roles"
  | .notAField => "expected a field path such as .props.name"
  | .rolesAsName => ".roles is not a scalar field"

/-- A query that is not accepted, and why. -/
structure QueryError where
  query : String
  fault : QueryFault
  deriving DecidableEq, Repr

def QueryError.message (e : QueryError) : String :=
  "Invalid query '" ++ e.query ++ "': " ++ e.fault.message

namespace QueryParser

/-- The letters and the underscore of ASCII: characters that a name may start with. -/
def isNameStart (c : Char) : Bool := c.isAlpha || c = '_'

/-- Characters that a name may go on with. -/
def isNameRest (c : Char) : Bool := c.isAlphanum || c = '_'

/-- Characters that the key of a property may go on with. -/
def isKeyRest (c : Char) : Bool := isNameRest c || c = '-'

/-- Cuts off the longest name at the front of a text. -/
def takeName? (isRest : Char → Bool) : List Char → Option (List Char × List Char)
  | c :: rest =>
    if isNameStart c then
      let (name, rest) := rest.span isRest
      some (c :: name, rest)
    else none
  | [] => none

/-- Where a field path leads. -/
inductive Path where
  | roles
  | field (f : Field)
  deriving DecidableEq, Repr

/-- A path as it is written behind its first point: a name, or a name and a key. -/
structure RawPath where
  name : List Char
  key : Option (List Char)
  deriving DecidableEq, Repr

/-- The text of a path without its first point. -/
def RawPath.toList (p : RawPath) : List Char :=
  match p.key with
  | none => p.name
  | some key => p.name ++ '.' :: key

/-- What a path means. -/
def RawPath.resolve (p : RawPath) : Except QueryFault Path :=
  if p = ⟨"type".toList, none⟩ then .ok (.field .kind)
  else if p = ⟨"token".toList, none⟩ then .ok (.field .token)
  else if p = ⟨"id".toList, none⟩ then .ok (.field .id)
  else if p = ⟨"roles".toList, none⟩ then .ok .roles
  else if p.name = "props".toList then
    match p.key with
    | some key => .ok (.field (.prop (String.ofList key)))
    | none => .error (.unknownField (String.ofList p.toList))
  else .error (.unknownField (String.ofList p.toList))

/-- Cuts off the longest path behind a point at the front of a text. -/
def takePath? : List Char → Option (RawPath × List Char)
  | '.' :: rest => do
    let (name, rest) ← takeName? isNameRest rest
    match rest with
    | '.' :: rest' =>
      match takeName? isKeyRest rest' with
      | some (key, rest) => return (⟨name, some key⟩, rest)
      | none => return (⟨name, none⟩, rest)
    | _ => return (⟨name, none⟩, rest)
  | _ => none

/-- The comparison words. -/
inductive Operator where
  | has
  | equal
  | notEqual
  deriving DecidableEq, Repr

/-- Cuts off an operator at the front of a text. -/
def takeOperator? : List Char → Option (Operator × List Char)
  | 'h' :: 'a' :: 's' :: rest => some (.has, rest)
  | '=' :: '=' :: rest => some (.equal, rest)
  | '!' :: '=' :: rest => some (.notEqual, rest)
  | _ => none

/-- Reads a quoted text that is the whole rest, blanks before it allowed. -/
def quotedRest? (cs : List Char) : Option (List Char) :=
  match cs.dropWhile Text.isBlank with
  | '"' :: rest =>
    match rest.span (· != '"') with
    | (value, ['"']) => some value
    | _ => none
  | _ => none

/-- Reads the operator and the value behind a path. -/
def operatorAndValue? (cs : List Char) : Option (Operator × List Char) := do
  let (op, rest) ← takeOperator? (cs.dropWhile Text.isBlank)
  return (op, ← quotedRest? rest)

/-- A name without the word `has` at its end, where something is left before it. -/
def withoutHas? (name : List Char) : Option (List Char) :=
  if ['h', 'a', 's'].isSuffixOf name ∧ 3 < name.length then
    some (name.take (name.length - 3)) else none

/-- A path without the word `has` at its end. -/
def RawPath.withoutHas? (p : RawPath) : Option RawPath :=
  match p.key with
  | none => (QueryParser.withoutHas? p.name).map (⟨·, none⟩)
  | some key => (QueryParser.withoutHas? key).map (⟨p.name, some ·⟩)

/-- Splits a condition into path, operator and value. The path is as long as possible; only where
the rest then has no operator may it end before a final `has`, which is the operator. -/
def takeCondition? (cs : List Char) : Option (RawPath × Operator × List Char) := do
  let (path, rest) ← takePath? cs
  match operatorAndValue? rest with
  | some (op, value) => return (path, op, value)
  | none => return (← path.withoutHas?, .has, ← quotedRest? rest)

def condition (cs : List Char) : Except QueryFault Condition := do
  let some (path, op, value) := takeCondition? cs | throw (.badCondition (String.ofList cs))
  match ← path.resolve, op with
  | .roles, .has => return .hasRole (String.ofList value)
  | .roles, _ => throw .rolesCompared
  | .field _, .has => throw .hasOnScalar
  | .field f, .equal => return .compare f .equal (String.ofList value)
  | .field f, .notEqual => return .compare f .notEqual (String.ofList value)

/-- The text between the parentheses of a selector, and whether it is recursive. -/
def selectorBody? (cs : List Char) : Option (Bool × List Char) := do
  let (recursive, rest) ←
    if "rfilter".toList.isPrefixOf cs then some (true, cs.drop 7)
    else if "filter".toList.isPrefixOf cs then some (false, cs.drop 6)
    else none
  match rest.dropWhile Text.isBlank with
  | '(' :: rest =>
    match rest.reverse with
    | ')' :: body => if body.contains '\n' then none else some (recursive, body.reverse)
    | _ => none
  | _ => none

def alternatives (body : List Char) : Except QueryFault (List (List Condition)) :=
  (splitOutsideQuotes ['|', '|'] body).mapM fun clause =>
    (splitOutsideQuotes ['&', '&'] clause).mapM fun atom => condition (Text.trim atom)

def selector (cs : List Char) : Except QueryFault Selector := do
  let some (recursive, body) := selectorBody? (Text.trim cs) | throw .notASelector
  let body := Text.trim body
  if body.isEmpty then throw .emptyPredicate
  return ⟨recursive, ← alternatives body⟩

def nameField (cs : List Char) : Except QueryFault Field := do
  let some (path, []) := takePath? (Text.trim cs) | throw .notAField
  match ← path.resolve with
  | .roles => throw .rolesAsName
  | .field f => return f

end QueryParser

/-- Compiles a structural query and a name query, in this order. -/
def UnitQuery.compile (structural name : String) : Except QueryError UnitQuery := do
  let selector ← (QueryParser.selector structural.toList).mapError (QueryError.mk structural)
  let field ← (QueryParser.nameField name.toList).mapError (QueryError.mk name)
  return ⟨selector, field⟩

/-- The structural query that is used unless another is given: every function, however nested. -/
def UnitQuery.defaultStructural : String := "rfilter(.roles has \"Function\")"

/-- The name query that is used unless another is given. -/
def UnitQuery.defaultName : String := ".props.name"

end CoChange
