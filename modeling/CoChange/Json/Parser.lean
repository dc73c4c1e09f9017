import CoChange.Decimal.Literal
import CoChange.Json.Basic

/-!
# Reading JSON

The reader takes a text apart by the grammar of JSON and nothing beyond it: no comments, no trailing
commas, no byte order mark, no unpaired surrogates. Documents nested deeper than `Json.maxDepth` are
refused. An integer that fits a word stays an integer. All other numbers are floating point numbers,
and how their literals are rounded is left to a `FloatReader`: `FloatReader.exact` rounds once, and
`FloatReader.stepwise`, which the program uses, rounds the significand, the power of ten and what
they give, so that the last place may be off. A literal that rounds to an infinity is refused.
-/

namespace CoChange.Json

/-- Why a text is not a JSON document. -/
inductive SyntaxError where
  | unexpectedEnd
  | unexpectedCharacter (c : Char)
  | controlCharacter (c : Char)
  | invalidEscape
  | loneSurrogate
  | invalidNumber
  | numberOutOfRange
  | tooDeep
  | trailingCharacters
  deriving DecidableEq, Repr

def SyntaxError.message : SyntaxError → String
  | .unexpectedEnd => "unexpected end of the document"
  | .unexpectedCharacter c => "unexpected character " ++ c.toString
  | .controlCharacter _ => "control character in a string"
  | .invalidEscape => "invalid escape in a string"
  | .loneSurrogate => "unpaired surrogate in a string"
  | .invalidNumber => "invalid number"
  | .numberOutOfRange => "number out of range"
  | .tooDeep => "document nested too deeply"
  | .trailingCharacters => "trailing characters"

/-- The deepest nesting of arrays and objects that is read. -/
def maxDepth : Nat := 127

/-- A reader takes a value off the front of a text. -/
abbrev Reader (α : Type) := List Char → Except SyntaxError (α × List Char)

def isBlank (c : Char) : Bool := c = ' ' || c = '\n' || c = '\t' || c = '\r'

def skipBlanks (cs : List Char) : List Char := cs.dropWhile isBlank

/-- The error for a text that starts where something else was expected. -/
def unexpected : List Char → SyntaxError
  | [] => .unexpectedEnd
  | c :: _ => .unexpectedCharacter c

def hexDigit? (c : Char) : Option Nat :=
  if '0' ≤ c ∧ c ≤ '9' then some (c.toNat - '0'.toNat)
  else if 'a' ≤ c ∧ c ≤ 'f' then some (c.toNat - 'a'.toNat + 10)
  else if 'A' ≤ c ∧ c ≤ 'F' then some (c.toNat - 'A'.toNat + 10)
  else none

/-- Reads four hexadecimal digits. -/
def readUnit : Reader Nat
  | a :: b :: c :: d :: rest =>
    match hexDigit? a, hexDigit? b, hexDigit? c, hexDigit? d with
    | some a, some b, some c, some d => .ok (((a * 16 + b) * 16 + c) * 16 + d, rest)
    | _, _, _, _ => .error .invalidEscape
  | _ => .error .invalidEscape

/-- Reads what follows `\u`. A leading surrogate takes the escaped trailing one behind it. -/
def readUnicodeEscape : Reader Char := fun cs => do
  let (unit, rest) ← readUnit cs
  if 0xD800 ≤ unit ∧ unit < 0xDC00 then
    match rest with
    | '\\' :: 'u' :: rest =>
      let (trail, rest) ← readUnit rest
      if 0xDC00 ≤ trail ∧ trail < 0xE000 then
        return (Char.ofNat (0x10000 + (unit - 0xD800) * 0x400 + (trail - 0xDC00)), rest)
      else throw .loneSurrogate
    | _ => throw .loneSurrogate
  else if 0xDC00 ≤ unit ∧ unit < 0xE000 then throw .loneSurrogate
  else return (Char.ofNat unit, rest)

/-- The character that a one-letter escape stands for. -/
def simpleEscape? (c : Char) : Option Char :=
  if c = '"' ∨ c = '\\' ∨ c = '/' then some c
  else if c = 'b' then some '\x08'
  else if c = 'f' then some '\x0c'
  else if c = 'n' then some '\n'
  else if c = 'r' then some '\r'
  else if c = 't' then some '\t'
  else none

/-- Reads the rest of a string behind its opening quote, onto the characters read so far in reverse.
The fuel is at least the length of the text. -/
def readStringBody : Nat → List Char → Reader String
  | _, _, [] => .error .unexpectedEnd
  | 0, _, _ => .error .unexpectedEnd
  | fuel + 1, acc, c :: rest =>
    if c = '"' then .ok (String.ofList acc.reverse, rest)
    else if c = '\\' then
      match rest with
      | [] => .error .unexpectedEnd
      | 'u' :: rest => do
        let (d, rest) ← readUnicodeEscape rest
        readStringBody fuel (d :: acc) rest
      | e :: rest =>
        match simpleEscape? e with
        | some d => readStringBody fuel (d :: acc) rest
        | none => .error .invalidEscape
    else if c.toNat < 0x20 then .error (.controlCharacter c)
    else readStringBody fuel (c :: acc) rest

/-- Reads a string behind its opening quote. -/
def readString : Reader String := fun cs => readStringBody cs.length [] cs

/-- Rounds a literal, which has a sign, digits before and behind the point and an exponent, to a
floating point number; it has none if it is out of range. -/
abbrev FloatReader := Bool → List Char → List Char → Int → Option Binary64

namespace FloatReader

/-- Rounds once, to the nearest number. -/
def exact : FloatReader := fun negative whole fraction exponent =>
  let x := (Decimal.Literal.ofParts negative whole fraction exponent).toBinary64
  if x.isFinite then some x else none

/-- Goes on with a significand as long as it fits a word, and leaves the digits that do not. -/
def takeDigits (significand : Nat) : List Char → Nat × List Char
  | [] => (significand, [])
  | c :: cs =>
    let next := 10 * significand + (c.toNat - '0'.toNat)
    if next < 2 ^ 64 then takeDigits next cs else (significand, c :: cs)

def powerOfTen (n : Nat) : Binary64 := .ofDecimal false 1 n

/-- Divides by the greatest power of ten again and again, until there is nothing left. -/
def shrink (x : Binary64) : Nat → Binary64
  | 0 => x
  | times + 1 => if x.isZero then x else shrink (x / powerOfTen 308) times

/-- Multiplies or divides by a power of ten. -/
def scale (x : Binary64) : Int → Option Binary64
  | .ofNat n =>
    if x.isZero then some x
    else if 308 < n then none
    else
      let y := x * powerOfTen n
      if y.isFinite then some y else none
  | .negSucc n => some (shrink x (n / 308) / powerOfTen (n % 308 + 1))

/-- Rounds the digits that fit a word, then the power of ten, then their product or quotient. Digits
before the point that do not fit count by their places, those behind the point not at all. -/
def stepwise : FloatReader := fun negative whole fraction exponent =>
  let (significand, high) := takeDigits 0 whole
  let (significand, low) := takeDigits significand fraction
  scale (.ofRatio negative significand 1)
    (exponent + high.length - (fraction.length - low.length : Nat))

end FloatReader

/-- The number of an integer literal: an exact integer where a word of 64 bits holds it. A negative
zero is not an integer. -/
def Number.ofInteger? (floats : FloatReader) (negative : Bool) (digits : List Char) :
    Option Number :=
  let n := Decimal.ofDigits digits
  if negative then
    if n = 0 ∨ 2 ^ 63 < n then (floats true digits [] 0).map .float else some (.int (-(n : Int)))
  else if n < 2 ^ 64 then some (.int n)
  else (floats false digits [] 0).map .float

/-- Reads a point with the digits behind it, if there is one, and whether there is. -/
def readFraction : Reader (List Char × Bool)
  | '.' :: rest =>
    match Decimal.spanDigits rest with
    | ([], _) => .error .invalidNumber
    | (ds, rest) => .ok ((ds, true), rest)
  | rest => .ok (([], false), rest)

/-- Reads a number behind its sign: digits without a leading zero, an optional fraction and
exponent. -/
def readMagnitude (floats : FloatReader) (negative : Bool) : Reader Number := fun cs =>
  let (whole, rest) := Decimal.spanDigits cs
  if whole.isEmpty ∨ (1 < whole.length ∧ whole.head? = some '0') then .error .invalidNumber
  else do
    let ((fraction, hasPoint), rest) ← readFraction rest
    match Decimal.exponent? rest with
    | none => throw .invalidNumber
    | some (exponent, rest') =>
      let number? :=
        if !hasPoint ∧ rest'.length = rest.length then Number.ofInteger? floats negative whole
        else (floats negative whole fraction exponent).map .float
      match number? with
      | none => throw .numberOutOfRange
      | some n => return (n, rest')

/-- Reads a number: a sign and its magnitude. -/
def readNumber (floats : FloatReader) : Reader Number
  | '-' :: rest => readMagnitude floats true rest
  | cs => readMagnitude floats false cs

/-- Reads a fixed word. -/
def readWord (word : List Char) (v : Value) : Reader Value := fun cs =>
  if word.isPrefixOf cs then .ok (v, cs.drop word.length)
  else .error (unexpected cs)

/-- Reads the items of an array behind its opening bracket, when it is not empty. -/
def readItems (item : Reader Value) : Nat → Reader (List Value)
  | 0, _ => .error .unexpectedEnd
  | fuel + 1, cs => do
    let (v, rest) ← item (skipBlanks cs)
    match skipBlanks rest with
    | ',' :: rest =>
      let (vs, rest) ← readItems item fuel rest
      return (v :: vs, rest)
    | ']' :: rest => return ([v], rest)
    | rest => throw (unexpected rest)

/-- Reads the members of an object behind its opening brace, when it is not empty. -/
def readMembers (item : Reader Value) : Nat → Reader (List (String × Value))
  | 0, _ => .error .unexpectedEnd
  | fuel + 1, cs => do
    match skipBlanks cs with
    | '"' :: rest =>
      let (name, rest) ← readString rest
      match skipBlanks rest with
      | ':' :: rest =>
        let (v, rest) ← item (skipBlanks rest)
        match skipBlanks rest with
        | ',' :: rest =>
          let (more, rest) ← readMembers item fuel rest
          return ((name, v) :: more, rest)
        | '}' :: rest => return ([(name, v)], rest)
        | rest => throw (unexpected rest)
      | rest => throw (unexpected rest)
    | rest => throw (unexpected rest)

/-- Reads a value that stands at the front of a text, nested at most `depth` deep. -/
def readValue (floats : FloatReader) : Nat → Reader Value
  | depth, cs =>
    match cs with
    | [] => .error .unexpectedEnd
    | '"' :: rest => (readString rest).map fun (s, r) => (.string s, r)
    | '[' :: rest =>
      match depth with
      | 0 => .error .tooDeep
      | depth + 1 =>
        match skipBlanks rest with
        | ']' :: rest => .ok (.array [], rest)
        | rest => (readItems (readValue floats depth) rest.length rest).map fun (vs, r) =>
          (.array vs, r)
    | '{' :: rest =>
      match depth with
      | 0 => .error .tooDeep
      | depth + 1 =>
        match skipBlanks rest with
        | '}' :: rest => .ok (.object [], rest)
        | rest =>
          (readMembers (readValue floats depth) rest.length rest).map fun (ms, r) => (.object ms, r)
    | 'n' :: _ => readWord ['n', 'u', 'l', 'l'] .null cs
    | 't' :: _ => readWord ['t', 'r', 'u', 'e'] (.bool true) cs
    | 'f' :: _ => readWord ['f', 'a', 'l', 's', 'e'] (.bool false) cs
    | c :: _ =>
      if c = '-' || c.isDigit then (readNumber floats cs).map fun (n, r) => (.number n, r)
      else .error (.unexpectedCharacter c)

/-- Reads a document nested at most `depth` deep; only blanks may surround it. -/
def parseUsing (floats : FloatReader) (depth : Nat) (text : String) : Except SyntaxError Value := do
  let (v, rest) ← readValue floats depth (skipBlanks text.toList)
  match skipBlanks rest with
  | [] => return v
  | _ => throw .trailingCharacters

def parseWithin (depth : Nat) (text : String) : Except SyntaxError Value :=
  parseUsing .stepwise depth text

def parse (text : String) : Except SyntaxError Value := parseWithin maxDepth text

end CoChange.Json
