import CoChange.Binary64.Text
import CoChange.Json.Basic

/-!
# Writing JSON

`Value.compact` writes a document without blanks, `Value.pretty` over several lines, with two spaces
of indentation and `": "` behind a name; an empty array or object stays on its line.
-/

namespace CoChange.Json

/-- The digits of `n` in base sixteen, at least `width` of them, in lower case. -/
def hexDigits (width n : Nat) : List Char :=
  let ds := Nat.toDigits 16 n
  List.replicate (width - ds.length) '0' ++ ds

/-- Writes one character of a string. Quotes, backslashes and control characters are escaped. -/
def escapeChar (c : Char) : List Char :=
  if c = '"' then ['\\', '"']
  else if c = '\\' then ['\\', '\\']
  else if c = '\n' then ['\\', 'n']
  else if c = '\r' then ['\\', 'r']
  else if c = '\t' then ['\\', 't']
  else if c = '\x08' then ['\\', 'b']
  else if c = '\x0c' then ['\\', 'f']
  else if c.toNat < 0x20 then '\\' :: 'u' :: hexDigits 4 c.toNat
  else [c]

/-- Writes a string between quotes. -/
def quote (s : String) : String := String.ofList ('"' :: s.toList.flatMap escapeChar ++ ['"'])

/-- Writes a number: integers in full, floating point numbers in the style of the format. -/
def Number.render : Number → String
  | .int z => toString z
  | .float x => NumberStyle.json.render x

namespace Value

mutual

/-- Writes a document on one line, without blanks. -/
def compact : Value → String
  | .null => "null"
  | .bool b => if b then "true" else "false"
  | .number n => n.render
  | .string s => quote s
  | .array items => "[" ++ String.intercalate "," (compactItems items) ++ "]"
  | .object members => "\x7b" ++ String.intercalate "," (compactMembers members) ++ "\x7d"

def compactItems : List Value → List String
  | [] => []
  | v :: rest => v.compact :: compactItems rest

def compactMembers : List (String × Value) → List String
  | [] => []
  | (name, v) :: rest => (quote name ++ ":" ++ v.compact) :: compactMembers rest

end

/-- A line break and the indentation of the given depth. -/
def newline (depth : Nat) : String := "\n" ++ String.ofList (List.replicate (2 * depth) ' ')

/-- Puts written items on lines of their own between two brackets. -/
def block (open_ close : String) (depth : Nat) (items : List String) : String :=
  if items.isEmpty then open_ ++ close
  else
    let separator := "," ++ newline (depth + 1)
    open_ ++ newline (depth + 1) ++ String.intercalate separator items ++ newline depth ++ close

mutual

/-- Writes a document that starts at the given depth of indentation. -/
def prettyAt (depth : Nat) : Value → String
  | .null => "null"
  | .bool b => if b then "true" else "false"
  | .number n => n.render
  | .string s => quote s
  | .array items => block "[" "]" depth (prettyItems (depth + 1) items)
  | .object members => block "\x7b" "\x7d" depth (prettyMembers (depth + 1) members)

def prettyItems (depth : Nat) : List Value → List String
  | [] => []
  | v :: rest => v.prettyAt depth :: prettyItems depth rest

def prettyMembers (depth : Nat) : List (String × Value) → List String
  | [] => []
  | (name, v) :: rest => (quote name ++ ": " ++ v.prettyAt depth) :: prettyMembers depth rest

end

/-- Writes a document over several lines, without a final line break. -/
def pretty (v : Value) : String := v.prettyAt 0

end Value

end CoChange.Json
