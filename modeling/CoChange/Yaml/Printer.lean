import CoChange.Binary64.Text
import CoChange.Yaml.Basic
import CoChange.Yaml.Character
import CoChange.Yaml.Scalar

/-!
# Writing YAML

Documents are written in block style; a sequence stands under its key without indentation, and empty
collections are `[]` and `\x7b\x7d`. A text is written plain where that reads back as the same text,
over several lines behind a bar where it has line feeds, and otherwise between single quotes, or
between double quotes when it holds characters that cannot be written as they are.
-/

namespace CoChange.Yaml

/-! ### Kinds of characters -/

/-- The characters that nothing plain can begin with. -/
def reservedStarts : List Char := "#,[]\x7b\x7d&*!|>'\"%@".toList ++ [Char.ofNat 0x60]

/-! ### The style of a text -/

/-- Whether a character makes a plain text ambiguous, given what stands around it. -/
def isIndicator (before : Option Char) (c : Char) (after : Option Char) : Bool :=
  match before with
  | none =>
    c ∈ reservedStarts || ((c = '?' || c = ':' || c = '-') && isBlankOrEnd after)
  | some b => (c = ':' && isBlankOrEnd after) || (c = '#' && isBlankOrEnd (some b))

/-- Whether some character from here on is an indicator. -/
def hasIndicator (before : Option Char) : List Char → Bool
  | [] => false
  | c :: rest => isIndicator before c rest.head? || hasIndicator (some c) rest

/-- Whether two neighbours satisfy `p` and `q`. -/
def hasPair (p q : Char → Bool) : List Char → Bool
  | a :: b :: rest => (p a && q b) || hasPair p q (b :: rest)
  | _ => false

/-- Whether a text reads back as itself when it stands plain in a block. -/
def plainAllowed (cs : List Char) : Bool :=
  !(cs.take 3 = ['-', '-', '-'] || cs.take 3 = ['.', '.', '.'])
    && !hasIndicator none cs && cs.all (fun c => isPrintable c && !isBreak c)
    && cs.head? ≠ some ' ' && cs.getLast? ≠ some ' '

/-- Whether a text can stand between single quotes. -/
def singleQuotesAllowed (cs : List Char) : Bool :=
  cs.all isPrintable && !hasPair isBreak (· = ' ') cs && !hasPair (· = ' ') isBreak cs

/-- Whether a text can stand behind a bar. -/
def literalAllowed (cs : List Char) : Bool :=
  cs.all isPrintable && !hasPair (· = ' ') isBreak cs && cs.getLast? ≠ some ' '

inductive Style where
  | plain
  | single
  | double
  | literal
  deriving DecidableEq, Repr

/-- The style of a text; a key on a line of its own line is never spread over lines. -/
def styleOf (simpleKey : Bool) (s : String) : Style :=
  let cs := s.toList
  let quoted := if singleQuotesAllowed cs then .single else .double
  if simpleKey && cs.any isBreak then .double
  else if cs.contains '\n' then if literalAllowed cs && !simpleKey then .literal else .double
  else if Scalar.needsQuotes s then quoted
  else if plainAllowed cs then .plain
  else quoted

/-! ### Texts -/

/-- The digits of a number in base sixteen, in capital letters. -/
def capitalHex (width n : Nat) : List Char :=
  let ds := (Nat.toDigits 16 n).map Char.toUpper
  List.replicate (width - ds.length) '0' ++ ds

def shortEscapes : List (Nat × Char) :=
  [(0x00, '0'), (0x07, 'a'), (0x08, 'b'), (0x09, 't'), (0x0A, 'n'), (0x0B, 'v'), (0x0C, 'f'),
    (0x0D, 'r'), (0x1B, 'e'), (0x22, '"'), (0x5C, '\\'), (0x85, 'N'), (0xA0, '_'), (0x2028, 'L'),
    (0x2029, 'P')]

/-- A character between double quotes. -/
def escape (c : Char) : List Char :=
  let n := c.toNat
  if isPrintable c && !isBreak c && c != '"' && c != '\\' then [c]
  else
    match shortEscapes.lookup n with
    | some letter => ['\\', letter]
    | none =>
      if n ≤ 0xFF then '\\' :: 'x' :: capitalHex 2 n
      else if n ≤ 0xFFFF then '\\' :: 'u' :: capitalHex 4 n
      else '\\' :: 'U' :: capitalHex 8 n

def blanks (n : Nat) : List Char := List.replicate n ' '

/-- The lines of a text behind a bar: every line that is not empty is set in. -/
def indented (indent : Nat) (atStart : Bool) : List Char → List Char
  | [] => []
  | c :: rest =>
    if isBreak c then c :: indented indent true rest
    else (if atStart then blanks indent else []) ++ c :: indented indent false rest

/-- A text between single quotes: a quote is written twice, and a line is set in. -/
def singleQuoted (indent : Nat) (afterBreak : Bool) : List Char → List Char
  | [] => if afterBreak then blanks indent else []
  | c :: rest =>
    if isBreak c then c :: singleQuoted indent true rest
    else (if afterBreak then blanks indent else []) ++ (if c = '\'' then ['\'', '\''] else [c])
      ++ singleQuoted indent false rest

/-- What stands behind the bar: the indentation, when the text begins with a blank or a line break,
and what becomes of the line breaks at its end. -/
def literalHint (cs : List Char) : List Char :=
  (match cs with
    | c :: _ => if c = ' ' || isBreak c then ['2'] else []
    | [] => [])
  ++ match cs.reverse with
    | [] => ['-']
    | [c] => if isBreak c then ['+'] else ['-']
    | c :: d :: _ => if !isBreak c then ['-'] else if isBreak d then ['+'] else []

/-- A written text, and whether it ends its line itself. -/
def renderText (indent : Nat) (simpleKey : Bool) (s : String) : List Char × Bool :=
  let cs := s.toList
  match styleOf simpleKey s with
  | .plain => (cs, false)
  | .single => ('\'' :: singleQuoted indent false cs ++ ['\''], false)
  | .double => ('"' :: cs.flatMap escape ++ ['"'], false)
  | .literal =>
    ('|' :: literalHint cs ++ '\n' :: indented indent true cs, cs.getLast?.any isBreak)

/-- Whether a document has to be closed by three points: the last text behind a bar ends in several
line breaks. `open_` says so for what comes before. -/
def opensEnd (simpleKey : Bool) (s : String) (open_ : Bool) : Bool :=
  match styleOf simpleKey s with
  | .literal => (literalHint s.toList).contains '+'
  | _ => open_

/-! ### Documents -/

/-- Whether a key can stand in front of its colon on one line. -/
def isSimpleKey : Key → Bool
  | .int _ => true
  | .string s => s.utf8ByteSize ≤ 128 && !s.toList.any isBreak

/-- A line break, unless the text before has ended its line. -/
def lineEnd (text : List Char × Bool) : List Char := if text.2 then text.1 else text.1 ++ ['\n']

def renderNumber : Json.Number → List Char
  | .int z => (toString z).toList
  | .float x => (NumberStyle.yaml.render x).toList

/-- A written scalar or empty collection with the end of its line; nothing for other collections. -/
def renderScalar? (indent : Nat) : Value → Option (List Char)
  | .null => some "null\n".toList
  | .bool b => some (if b then "true\n".toList else "false\n".toList)
  | .number n => some (renderNumber n ++ ['\n'])
  | .string s => some (lineEnd (renderText indent false s))
  | .sequence [] => some "[]\n".toList
  | .mapping [] => some "\x7b\x7d\n".toList
  | _ => none

/-- A written key, with its mark in front when it cannot stand on one line. -/
def renderKey (indent : Nat) (key : Key) : List Char :=
  match key with
  | .int z => (toString z).toList ++ [':']
  | .string s =>
    if isSimpleKey key then (renderText (indent + 2) true s).1 ++ [':']
    else '?' :: ' ' :: lineEnd (renderText (indent + 2) false s) ++ blanks indent ++ [':']

/-- Whether a document is written over lines of its own: a collection that is not empty. -/
def isNested : Value → Bool
  | .sequence items => !items.isEmpty
  | .mapping entries => !entries.isEmpty
  | _ => false

/-- The indentation of the value of an entry: a sequence stands right below its key. -/
def valueIndent (indent : Nat) (k : Key) : Value → Nat
  | .sequence (_ :: _) => if isSimpleKey k then indent else indent + 2
  | _ => indent + 2

/-- What stands between a colon and the value behind it. -/
def separator (indent : Nat) (k : Key) (v : Value) : List Char :=
  if isSimpleKey k && isNested v then '\n' :: blanks (valueIndent indent k v) else [' ']

mutual

/-- Writes a document whose first line has been set in already. -/
def block (indent : Nat) : Value → List Char
  | .sequence (v :: rest) => '-' :: ' ' :: block (indent + 2) v ++ items indent rest
  | .mapping ((k, v) :: rest) =>
    renderKey indent k ++ separator indent k v ++ block (valueIndent indent k v) v
      ++ entries indent rest
  | v => (renderScalar? indent v).getD []

/-- Further items of a sequence, each on a line of its own. -/
def items (indent : Nat) : List Value → List Char
  | [] => []
  | v :: rest => blanks indent ++ '-' :: ' ' :: block (indent + 2) v ++ items indent rest

/-- Further entries of a mapping, each on a line of its own. -/
def entries (indent : Nat) : List (Key × Value) → List Char
  | [] => []
  | (k, v) :: rest =>
    blanks indent ++ renderKey indent k ++ separator indent k v
      ++ block (valueIndent indent k v) v ++ entries indent rest

end

mutual

/-- Whether a document has to be closed by three points, given whether what comes before has. -/
def endsOpen (open_ : Bool) : Value → Bool
  | .string s => opensEnd false s open_
  | .sequence items => itemsEndOpen open_ items
  | .mapping entries => entriesEndOpen open_ entries
  | _ => open_

def itemsEndOpen (open_ : Bool) : List Value → Bool
  | [] => open_
  | v :: rest => itemsEndOpen (endsOpen open_ v) rest

def entriesEndOpen (open_ : Bool) : List (Key × Value) → Bool
  | [] => open_
  | (k, v) :: rest =>
    let open_ := match k with
      | .string s => if isSimpleKey k then open_ else opensEnd false s open_
      | .int _ => open_
    entriesEndOpen (endsOpen open_ v) rest

end

def Value.render (v : Value) : String :=
  let body := block (if isNested v then 0 else 2) v
  String.ofList (body ++ if endsOpen false v then "...\n".toList else [])

end CoChange.Yaml
