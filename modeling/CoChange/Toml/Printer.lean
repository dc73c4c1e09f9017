import CoChange.Binary64.Text
import CoChange.Toml.Basic

/-!
# Writing values of TOML

Values are written on one line as far as their texts allow it. A text with quotes or backslashes is
written literally where that is possible, and a text with line feeds over several lines.
-/

namespace CoChange.Toml

/-- The text of a floating point number, which has a point or an exponent or is special. -/
def renderFloat (x : Binary64) : String :=
  match x.view with
  | .nan => if x.negative then "-nan" else "nan"
  | .infinite negative => if negative then "-inf" else "inf"
  | .finite _ _ _ =>
    let text := NumberStyle.plain.render x
    if text.toList.contains '.' then text else text ++ ".0"

/-- Whether a character cannot stand in a text as it is. -/
def isControl (c : Char) : Bool := c.toNat ≤ 0x1F || c.toNat = 0x7F

/-- The length of the longest run of single quotes. -/
def longestQuoteRun (run longest : Nat) : List Char → Nat
  | [] => max run longest
  | c :: rest =>
    if c = '\'' then longestQuoteRun (run + 1) longest rest
    else longestQuoteRun 0 (max run longest) rest

/-- Whether a text is written literally: it has something that would be escaped, and nothing that
has to be. -/
def prefersLiteral (cs : List Char) : Bool :=
  cs.any (fun c => c = '"' || c = '\\')
    && cs.all (fun c => !isControl c || c = '\t' || c = '\n')
    && longestQuoteRun 0 0 cs < 3 && cs.getLast? ≠ some '\''

/-- A character between double quotes. Line feeds of a text over several lines stay as they are. -/
def escape (multiline : Bool) (c : Char) : List Char :=
  let n := c.toNat
  if n = 0x08 then ['\\', 'b']
  else if n = 0x09 then ['\\', 't']
  else if n = 0x0A then if multiline then [c] else ['\\', 'n']
  else if n = 0x0C then ['\\', 'f']
  else if n = 0x0D then ['\\', 'r']
  else if c = '"' || c = '\\' then ['\\', c]
  else if isControl c then
    let digits := (Nat.toDigits 16 n).map Char.toUpper
    '\\' :: 'u' :: List.replicate (4 - digits.length) '0' ++ digits
  else [c]

/-- Writes a text between double quotes on one line. -/
def quoted (s : String) : String := String.ofList ('"' :: s.toList.flatMap (escape false) ++ ['"'])

def renderString (s : String) : String :=
  let cs := s.toList
  let lines := cs.contains '\n'
  if prefersLiteral cs then
    if lines then "'''\n" ++ s ++ "'''"
    else if cs.contains '\'' then "'''" ++ s ++ "'''"
    else "'" ++ s ++ "'"
  else if lines then "\"\"\"\n" ++ String.ofList (cs.flatMap (escape true)) ++ "\"\"\""
  else quoted s

def isKeyChar (c : Char) : Bool := c.isAlphanum || c = '_' || c = '-'

def renderKey (key : String) : String :=
  if !key.isEmpty && key.toList.all isKeyChar then key else quoted key

namespace Value

mutual

def render : Value → String
  | string s => renderString s
  | integer z => toString z
  | float x => renderFloat x
  | boolean b => if b then "true" else "false"
  | datetime d => d.render
  | array items => "[" ++ String.intercalate ", " (renderItems items) ++ "]"
  | table [] => "\x7b\x7d"
  | table ((k, v) :: rest) =>
    "\x7b " ++ String.intercalate ", " ((renderKey k ++ " = " ++ v.render) :: renderEntries rest)
      ++ " \x7d"

def renderItems : List Value → List String
  | [] => []
  | v :: rest => v.render :: renderItems rest

def renderEntries : List (String × Value) → List String
  | [] => []
  | (k, v) :: rest => (renderKey k ++ " = " ++ v.render) :: renderEntries rest

end

end Value

end CoChange.Toml
