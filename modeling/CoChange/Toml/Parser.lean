import CoChange.Decimal.Literal
import CoChange.Toml.Building

/-!
# Reading TOML

Documents are read by the grammar of TOML 1.0. Integers have to fit a signed word of 64 bits, and
arrays and tables between braces may be nested up to a limit.
-/

namespace CoChange.Toml

/-- Why a text is not a document. -/
inductive SyntaxError where
  | unexpectedEnd
  | unexpectedCharacter (c : Char)
  | badEscape
  | badValue (text : String)
  | tooDeep
  | misplacedKey (path : List String)
  deriving DecidableEq, Repr

def SyntaxError.message : SyntaxError → String
  | unexpectedEnd => "unexpected end of the document"
  | unexpectedCharacter c => "unexpected character " ++ c.toString
  | badEscape => "invalid escape in a string"
  | badValue text => "invalid value " ++ text
  | tooDeep => "document nested too deeply"
  | misplacedKey path => "duplicate key or table " ++ String.intercalate "." path

/-- A reader takes something off the front of a text. -/
abbrev Reader (α : Type) := List Char → Except SyntaxError (α × List Char)

/-- The error for a text that starts where something else was expected. -/
def unexpected : List Char → SyntaxError
  | [] => .unexpectedEnd
  | c :: _ => .unexpectedCharacter c

/-- Goes past a character. -/
def skipChar (c : Char) (cs : List Char) : Except SyntaxError (List Char) :=
  match cs with
  | d :: rest => if d = c then .ok rest else .error (.unexpectedCharacter d)
  | [] => .error .unexpectedEnd

/-! ### Blanks, comments and lines -/

def isBlank (c : Char) : Bool := c = ' ' || c = '\t'

def skipBlanks (cs : List Char) : List Char := cs.dropWhile isBlank

/-- Whether a character may stand in a text as it is. -/
def isTextChar (c : Char) : Bool := c = '\t' || (0x20 ≤ c.toNat && c.toNat ≠ 0x7F)

/-- What stands behind a line break at the front, if there is one. -/
def lineBreak? : List Char → Option (List Char)
  | '\n' :: rest => some rest
  | '\r' :: '\n' :: rest => some rest
  | _ => none

/-- The text behind a comment, if it starts with one. -/
def skipComment (cs : List Char) : List Char :=
  if cs.head? = some '#' then cs.dropWhile isTextChar else cs

/-- Goes past blanks, a comment and the end of the line. -/
def finishLine (cs : List Char) : Except SyntaxError (List Char) :=
  let cs := skipComment (skipBlanks cs)
  match lineBreak? cs with
  | some rest => .ok rest
  | none => if cs.isEmpty then .ok [] else .error (unexpected cs)

/-- The text behind its leading blanks, comments and line breaks; `fuel` is its length. -/
def skipLines : Nat → List Char → List Char
  | 0, cs => cs
  | fuel + 1, cs =>
    let rest := skipComment (skipBlanks cs)
    match lineBreak? rest with
    | some rest => skipLines fuel rest
    | none => rest

/-- `skipLines` with enough fuel. -/
def skipAllLines (cs : List Char) : List Char := skipLines cs.length cs

/-! ### Strings -/

/-- The characters that a letter behind a backslash stands for. -/
def letterEscapes : List (Char × Nat) :=
  [('b', 0x08), ('t', 0x09), ('n', 0x0A), ('f', 0x0C), ('r', 0x0D), ('"', 0x22), ('\\', 0x5C)]

def hexDigit? (c : Char) : Option Nat :=
  if c.isDigit then some (c.toNat - '0'.toNat)
  else if 'a' ≤ c && c ≤ 'f' then some (c.toNat - 'a'.toNat + 10)
  else if 'A' ≤ c && c ≤ 'F' then some (c.toNat - 'A'.toNat + 10)
  else none

/-- The character with the number that hexadecimal digits write. -/
def charOf? (digits : List Char) : Option Char := do
  let n ← digits.foldlM (fun n c => (hexDigit? c).map (16 * n + ·)) 0
  guard n.isValidChar
  return Char.ofNat n

/-- A text that has been read, its last character first, and what follows it. -/
abbrev Read := Except SyntaxError (String × List Char)

/-- The result of reading a text. -/
def done (text rest : List Char) : Read := .ok (String.ofList text.reverse, rest)

/-- How far the reading of an escape has come. -/
inductive Escape where
  | none
  | started
  /-- The number of hexadecimal digits to come, and those that came, the last one first. -/
  | hex (missing : Nat) (digits : List Char)
  /-- Behind a backslash at the end of a line: blanks and line breaks are skipped. `broken` says
  that the line break has been read. -/
  | gap (broken : Bool)
  deriving DecidableEq, Repr

/-- The number of quotes at the front of a text. -/
def countQuotes (quote : Char) (cs : List Char) : Nat := (cs.takeWhile (· = quote)).length

/-- Reads a text behind its opening quote, or behind three of them if `multiline`. A text over
several lines may end with up to two quotes of its own. -/
def readBasic (multiline : Bool) (text : List Char) (escape : Escape) : List Char → Read
  | [] => .error .unexpectedEnd
  | c :: rest =>
    match escape with
    | .started =>
      match letterEscapes.lookup c with
      | some n => readBasic multiline (Char.ofNat n :: text) .none rest
      | none =>
        if c = 'u' then readBasic multiline text (.hex 4 []) rest
        else if c = 'U' then readBasic multiline text (.hex 8 []) rest
        else if multiline && isBlank c then readBasic multiline text (.gap false) rest
        else if multiline && c = '\n' then readBasic multiline text (.gap true) rest
        else if multiline && c = '\r' && rest.head? = some '\n' then
          readBasic multiline text (.gap false) rest
        else .error .badEscape
    | .hex missing digits =>
      if 1 < missing then readBasic multiline text (.hex (missing - 1) (c :: digits)) rest
      else
        match charOf? (c :: digits).reverse with
        | some d => readBasic multiline (d :: text) .none rest
        | none => .error .badEscape
    | escape =>
      let broken := escape = .gap true
      if escape ≠ .none && isBlank c then readBasic multiline text escape rest
      else if escape ≠ .none && c = '\n' then readBasic multiline text (.gap true) rest
      else if escape ≠ .none && c = '\r' && rest.head? = some '\n' then
        readBasic multiline text escape rest
      else if escape ≠ .none && !broken then .error .badEscape
      else if c = '\\' then readBasic multiline text .started rest
      else if c = '"' then
        if !multiline then done text rest
        else
          let quotes := countQuotes '"' (c :: rest)
          if quotes < 3 then readBasic multiline (c :: text) .none rest
          else if 5 < quotes then .error (.unexpectedCharacter c)
          else done (List.replicate (quotes - 3) c ++ text) (rest.drop (quotes - 1))
      else if isTextChar c then readBasic multiline (c :: text) .none rest
      else if multiline && c = '\n' then readBasic multiline (c :: text) .none rest
      else if multiline && c = '\r' && rest.head? = some '\n' then
        readBasic multiline text .none rest
      else .error (.unexpectedCharacter c)

/-- Reads a text without escapes behind its opening quote, or behind three of them. -/
def readLiteral (multiline : Bool) (text : List Char) : List Char → Read
  | [] => .error .unexpectedEnd
  | c :: rest =>
    if c = '\'' then
      if !multiline then done text rest
      else
        let quotes := countQuotes '\'' (c :: rest)
        if quotes < 3 then readLiteral multiline (c :: text) rest
        else if 5 < quotes then .error (.unexpectedCharacter c)
        else done (List.replicate (quotes - 3) c ++ text) (rest.drop (quotes - 1))
    else if isTextChar c then readLiteral multiline (c :: text) rest
    else if multiline && c = '\n' then readLiteral multiline (c :: text) rest
    else if multiline && c = '\r' && rest.head? = some '\n' then readLiteral multiline text rest
    else .error (.unexpectedCharacter c)

/-- What stands behind a line break at the start of a text over several lines. -/
def skipFirstBreak (cs : List Char) : List Char := (lineBreak? cs).getD cs

def readString (cs : List Char) : Read :=
  match cs with
  | '"' :: '"' :: '"' :: rest => readBasic true [] .none (skipFirstBreak rest)
  | '\'' :: '\'' :: '\'' :: rest => readLiteral true [] (skipFirstBreak rest)
  | '"' :: rest => readBasic false [] .none rest
  | '\'' :: rest => readLiteral false [] rest
  | cs => .error (unexpected cs)

/-! ### Keys -/

def isBareKeyChar (c : Char) : Bool := c.isAlphanum || c = '_' || c = '-'

/-- Reads a key without points; a text over several lines is none. -/
def readSimpleKey (cs : List Char) : Read :=
  match cs with
  | '"' :: rest => readBasic false [] .none rest
  | '\'' :: rest => readLiteral false [] rest
  | cs =>
    let (key, rest) := cs.span isBareKeyChar
    if key.isEmpty then .error (unexpected cs) else .ok (String.ofList key, rest)

/-- The deepest nesting of values, and the largest number of parts of a key. -/
def maxDepth : Nat := 79

/-- Reads a key that may have points, with the blanks around it; `fuel` bounds its parts. -/
def readKey : Nat → Reader (List String)
  | 0, _ => .error .tooDeep
  | fuel + 1, cs => do
    let (part, rest) ← readSimpleKey (skipBlanks cs)
    match skipBlanks rest with
    | '.' :: rest => do
      let (parts, rest) ← readKey fuel rest
      return (part :: parts, rest)
    | rest => return ([part], rest)

/-! ### Numbers, dates and words -/

/-- Digits without the underscores that may stand between two of them. -/
def joinDigits (isDigit : Char → Bool) (cs : List Char) : Option (List Char) :=
  go true cs
where
  /-- `joinDigits` where a digit has to come next, or may not. -/
  go (needed : Bool) : List Char → Option (List Char)
    | [] => if needed then none else some []
    | c :: rest =>
      if isDigit c then (c :: ·) <$> go false rest
      else if c = '_' && !needed then go true rest
      else none

/-- Whether digits start with a superfluous zero. -/
def isPadded (digits : List Char) : Bool := 1 < digits.length && digits.head? = some '0'

/-- An integer if it fits a signed word. -/
def word? (z : Int) : Option Value :=
  if -(2 ^ 63) ≤ z && z < 2 ^ 63 then some (.integer z) else none

/-- The integer that digits of another base than ten write. -/
def basedInteger? (base : Nat) (cs : List Char) : Option Value := do
  let isDigit c := (hexDigit? c).any (· < base)
  let digits ← joinDigits isDigit cs
  word? (digits.foldl (fun n c => base * n + (hexDigit? c).getD 0) 0 : Nat)

/-- The integer that a text in base ten writes. -/
def decimalInteger? (negative : Bool) (cs : List Char) : Option Value := do
  let digits ← joinDigits Char.isDigit cs
  guard !isPadded digits
  let n := Decimal.ofDigits digits
  word? (if negative then -(n : Int) else n)

/-- The floating point number that a text writes, with a fraction or an exponent. One that is too
large is refused, but one that is too small becomes the negative infinity. -/
def float? (negative : Bool) (cs : List Char) : Option Value := do
  let (whole, rest) := cs.span (fun c => c.isDigit || c = '_')
  let whole ← joinDigits Char.isDigit whole
  guard (!isPadded whole && !rest.isEmpty)
  let (fraction, rest) ← match rest with
    | '.' :: rest => do
      let (fraction, rest) := rest.span (fun c => c.isDigit || c = '_')
      pure (← joinDigits Char.isDigit fraction, rest)
    | rest => pure ([], rest)
  let exponent ← match rest with
    | [] => pure 0
    | c :: rest => do
      guard (c = 'e' || c = 'E')
      let (down, digits) := match rest with
        | '-' :: r => (true, r)
        | '+' :: r => (false, r)
        | r => (false, r)
      let digits ← joinDigits Char.isDigit digits
      let n := Decimal.ofDigits digits
      pure (if down then -(n : Int) else n)
  let x := (Decimal.Literal.ofParts negative whole fraction exponent).toBinary64
  guard (x.isFinite || negative)
  return .float x

/-- A number without its sign. -/
def unsigned? (negative : Bool) (cs : List Char) : Option Value :=
  if cs = "inf".toList then some (.float (.infinity negative))
  else if cs = "nan".toList then
    some (.float (.ofMagnitude negative Binary64.nan.bits.toNat))
  else if cs.head?.any Char.isDigit then (decimalInteger? negative cs).or (float? negative cs)
  else none

/-- The number that a text writes. -/
def number? : List Char → Option Value
  | '+' :: rest => unsigned? false rest
  | '-' :: rest => unsigned? true rest
  | '0' :: 'x' :: rest => basedInteger? 16 rest
  | '0' :: 'o' :: rest => basedInteger? 8 rest
  | '0' :: 'b' :: rest => basedInteger? 2 rest
  | cs => unsigned? false cs

/-- Whether a character may stand in a number or a word. -/
def isScalarChar (c : Char) : Bool := c.isAlphanum || "_+-.".toList.contains c

/-- Reads a truth value, a number or a date. -/
def readScalar (cs : List Char) : Except SyntaxError (Value × List Char) :=
  match Datetime.take? cs with
  | some (d, rest) => .ok (.datetime d, rest)
  | none =>
    let (text, rest) := cs.span isScalarChar
    if text.isEmpty then .error (unexpected cs)
    else if text = "true".toList then .ok (.boolean true, rest)
    else if text = "false".toList then .ok (.boolean false, rest)
    else
      match number? text with
      | some v => .ok (v, rest)
      | none => .error (.badValue (String.ofList text))

/-! ### Values -/

/-- Reads the items of an array and its closing bracket; a comma may stand behind the last item.
`fuel` bounds the number of items. -/
def readItems (item : Reader Value) : Nat → Reader (List Value)
  | 0, cs => .error (unexpected cs)
  | fuel + 1, cs => do
    match skipAllLines cs with
    | ']' :: rest => return ([], rest)
    | cs => do
      let (v, rest) ← item cs
      match skipAllLines rest with
      | ',' :: rest => do
        let (vs, rest) ← readItems item fuel rest
        return (v :: vs, rest)
      | rest => return ([v], ← skipChar ']' rest)

/-- An entry: the path of its key, the last part of it, and its value. -/
abbrev Entry := List String × String × Value

/-- The path and the last part of a key. -/
def splitKey (parts : List String) : List String × String := (parts.dropLast, parts.getLastD "")

def readEntry (value : Reader Value) : Reader Entry := fun cs => do
  let (parts, rest) ← readKey maxDepth cs
  let (v, rest) ← value (skipBlanks (← skipChar '=' rest))
  let (path, key) := splitKey parts
  return ((path, key, v), rest)

/-- Reads the entries of a table between braces and its closing brace. `fuel` bounds their
number. -/
def readEntries (value : Reader Value) : Nat → Reader (List Entry)
  | 0, cs => .error (unexpected cs)
  | fuel + 1, cs => do
    let (e, rest) ← readEntry value cs
    match skipBlanks rest with
    | ',' :: rest => do
      let (es, rest) ← readEntries value fuel rest
      return (e :: es, rest)
    | rest => return ([e], ← skipChar '\x7d' rest)

/-- Reads a value whose arrays and tables are nested at most `depth` deep. -/
def readValue : Nat → Reader Value
  | depth, cs =>
    match cs, depth with
    | '"' :: _, _ | '\'' :: _, _ => do
      let (s, rest) ← readString cs
      return (.string s, rest)
    | '[' :: _, 0 | '\x7b' :: _, 0 => .error .tooDeep
    | '[' :: rest, depth + 1 => do
      let (items, rest) ← readItems (readValue depth) rest.length rest
      return (.array items, rest)
    | '\x7b' :: rest, depth + 1 => do
      let (entries, rest) ← match skipBlanks rest with
        | '\x7d' :: rest => pure ([], rest)
        | rest => readEntries (readValue depth) rest.length rest
      match tableOf entries with
      | some v => return (v, rest)
      | none => throw (.misplacedKey (entries.map (·.2.1)))
    | cs, _ => readScalar cs

/-! ### Documents -/

/-- A change of a draft; `path` names what it is about. -/
def advance (path : List String) (d : Option Draft) : Except SyntaxError Draft :=
  match d with
  | some d => .ok d
  | none => .error (.misplacedKey path)

/-- Reads a header or an entry of a document, with the end of its line. -/
def readLine (d : Draft) (cs : List Char) : Except SyntaxError (Draft × List Char) := do
  match cs with
  | '[' :: '[' :: rest =>
    let (path, rest) ← readKey maxDepth rest
    let rest ← skipChar ']' (← skipChar ']' rest)
    return (← advance path (d.startElement path), ← finishLine rest)
  | '[' :: rest =>
    let (path, rest) ← readKey maxDepth rest
    let rest ← skipChar ']' rest
    return (← advance path (d.startTable path), ← finishLine rest)
  | cs =>
    let ((path, key, v), rest) ← readEntry (readValue maxDepth) cs
    return (← advance (path ++ [key]) (d.addValue path key v), ← finishLine rest)

/-- Reads the lines of a document. `fuel` bounds their number. -/
def readLines : Nat → Draft → List Char → Except SyntaxError Draft
  | fuel, d, cs =>
    match skipAllLines cs, fuel with
    | [], _ => .ok d
    | cs, 0 => .error (unexpected cs)
    | cs, fuel + 1 => do
      let (d, rest) ← readLine d cs
      readLines fuel d rest

/-- Reads a document. A byte order mark at its start is skipped. -/
def parse (s : String) : Except SyntaxError Entries := do
  let cs := s.toList
  let cs := if cs.head?.any (·.toNat = 0xFEFF) then cs.drop 1 else cs
  let d ← readLines (cs.length + 1) .empty cs
  match d.finish with
  | some entries => return entries
  | none => throw (.misplacedKey d.path)

end CoChange.Toml
