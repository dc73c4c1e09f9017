import CoChange.Source.Bracket

/-!
# Outlines by indentation

In Python a block is what is set in behind a line that ends with a colon. A function that is
directly in the block of a class belongs to it. A block ends with its last line; a comment at the
end of that line belongs to it, and so do the comment lines behind it that are set in as far as the
block.
-/

namespace CoChange.Source.IndentOutline

/-! ### Lines -/

/-- What a line declares. -/
inductive Head where
  | function (name : String)
  | type
  /-- Something that stands in front of a declaration and is tied to it. -/
  | decorator
  | other
  deriving DecidableEq, Repr

/-- A statement or the head of one. -/
structure Statement where
  head : Head
  start : Place
  /-- Whether a block follows. -/
  opensBlock : Bool
  deriving DecidableEq, Repr

/-- A logical line that is not blank: a statement, over several lines if brackets or texts are, or a
comment. -/
structure Line where
  indent : Nat
  statement : Option Statement
  /-- The end of the line; a comment behind a statement is part of the line. -/
  stop : Place
  deriving DecidableEq, Repr

/-- The length of a text with its three closing quotes. `n` characters of it came before. -/
def longTextLength (quote : Char) (n : Nat) : List Char → Nat
  | '\\' :: _ :: rest => longTextLength quote (n + 2) rest
  | a :: b :: c :: rest =>
    if a = quote && b = quote && c = quote then n + 3
    else longTextLength quote (n + 1) (b :: c :: rest)
  | rest => n + rest.length

/-- Cuts a lexeme off. Line breaks are signs, since they can end a line. -/
def cut : Cutter
  | '#' :: rest => (none, lineLength rest + 1)
  | '\\' :: '\n' :: _ => (none, 2)
  | '\\' :: '\r' :: '\n' :: _ => (none, 3)
  | '"' :: '"' :: '"' :: rest => (some .literal, longTextLength '"' 3 rest)
  | '\'' :: '\'' :: '\'' :: rest => (some .literal, longTextLength '\'' 3 rest)
  | '"' :: rest => (some .literal, quotedLength '"' 1 rest)
  | '\'' :: rest => (some .literal, quotedLength '\'' 1 rest)
  | c :: rest =>
    if c = '\n' then (some (.sign c), 1)
    else if c.isWhitespace then (none, 1)
    else cutWord (c :: rest)
  | [] => (none, 0)

/-- A line in the making: its first lexemes, its last one, where it ends so far, and the number of
open brackets. -/
structure LineReader where
  first : List Lexeme
  last : Option Lexeme
  stop : Place
  depth : Nat

/-- The number of brackets that are open behind a lexeme. -/
def depthAfter (depth : Nat) (l : Lexeme) : Nat :=
  match l with
  | .sign c =>
    if "([\x7b".toList.contains c then depth + 1
    else if ")]\x7d".toList.contains c then depth - 1
    else depth
  | _ => depth

/-- Adds a lexeme to a line; of the first ones three are kept. -/
def LineReader.add (r : LineReader) (l : Lexeme) (stop : Place) : LineReader where
  first := if r.first.length < 3 then r.first ++ [l] else r.first
  last := some l
  stop := stop
  depth := depthAfter r.depth l

/-- What the first tokens of a line declare. -/
def headOf : List Lexeme → Head
  | .word "def" :: .word name :: _ => .function name
  | .word "async" :: .word "def" :: .word name :: _ => .function name
  | .word "class" :: _ => .type
  | .sign '@' :: _ => .decorator
  | _ => .other

/-- Reads a logical line up to its line break. A comment belongs to the line if nothing but the line
break follows. -/
def takeLine (fuel : Nat) (r : LineReader) (p : Place) (cs : List Char) :
    LineReader × Place × List Char :=
  match fuel, cs with
  | _, [] => (r, p, [])
  | 0, _ => (r, p, [])
  | fuel + 1, c :: rest =>
    if c = '\n' && r.depth = 0 then (r, p, c :: rest)
    else
      let (lexeme, n) := cut (c :: rest)
      let stop := p.pastAll ((c :: rest).take n)
      let behind := (c :: rest).drop n
      match lexeme with
      | some (.sign '\n') => takeLine fuel r stop behind
      | some l => takeLine fuel (r.add l stop) stop behind
      | none => takeLine fuel (if c = '#' then { r with stop := stop } else r) stop behind

/-- The indentation of a line behind a character: a tab counts eight, a return starts anew. -/
def indentAfter (indent : Nat) (c : Char) : Nat :=
  if c = ' ' then indent + 1 else if c = '\t' then indent + 8 else 0

/-- Reads the lines of a source. Every line takes a character at least, so that `fuel` is the length
of the source. -/
def lines (fuel : Nat) (indent : Nat) (p : Place) (cs : List Char) : List Line :=
  match fuel, cs with
  | _, [] => []
  | 0, _ => []
  | fuel + 1, c :: rest =>
    if c = ' ' || c = '\t' || c = '\n' || c = '\r' || c = '\x0c' then
      lines fuel (indentAfter indent c) (p.past c) rest
    else if c = '#' then
      let text := (c :: rest).takeWhile (· ≠ '\n')
      let stop := p.pastAll text
      ⟨indent, none, stop⟩ :: lines fuel 0 stop ((c :: rest).drop text.length)
    else
      let (r, stop, behind) := takeLine (fuel + 1) ⟨[], none, p, 0⟩ p (c :: rest)
      ⟨indent, some ⟨headOf r.first, p, r.last = some (.sign ':')⟩, r.stop⟩
        :: lines fuel 0 stop behind

/-! ### Blocks -/

/-- Sets comments in as far as the statement behind them, if that is further than they are; then a
line belongs to the blocks that are not set in further. The result has the indentation of the first
statement, too. -/
def settle : List Line → List Line × Nat
  | [] => ([], 0)
  | l :: rest =>
    let (rest, next) := settle rest
    match l.statement with
    | some _ => (l :: rest, l.indent)
    | none => ({ l with indent := max l.indent next } :: rest, next)

/-- The lines of the block of a statement: those behind it that are set in as far as the first
statement behind it, if the statement opens a block and the other one is set in further. -/
def blockOf (indent : Nat) (s : Statement) (lines : List Line) : List Line :=
  match lines.find? (·.statement.isSome) with
  | some first =>
    if s.opensBlock && indent < first.indent then lines.takeWhile (first.indent ≤ ·.indent) else []
  | none => []

theorem length_blockOf_le (indent : Nat) (s : Statement) (lines : List Line) :
    (blockOf indent s lines).length ≤ lines.length := by
  unfold blockOf
  split
  · split
    · exact (List.takeWhile_sublist _).length_le
    · simp
  · simp

/-- The functions of some lines. `inType` says whether they belong to a type, and `decorated`
whether the first line has something in front of it that is tied to it, which makes a group of the
two. -/
def items (inType decorated : Bool) : List Line → List OutlineItem
  | [] => []
  | l :: rest =>
    match l.statement with
    | none => items inType decorated rest
    | some s =>
      let block := blockOf l.indent s rest
      have := length_blockOf_le l.indent s rest
      let inner := items (s.head = .type) false block
      let own := match s.head with
        | .function name =>
          let stop := (block.getLast?.map (·.stop)).getD l.stop
          let item := OutlineItem.function ⟨name, inType, .between s.start stop⟩ inner
          [if decorated then .group [item] else item]
        | _ => OutlineItem.grouped inner
      own ++ items inType (s.head = .decorator) (rest.drop block.length)
  termination_by lines => lines.length
  decreasing_by all_goals simp only [List.length_cons, List.length_drop]; omega

def read (source : List Char) : List OutlineItem :=
  let (start, text) := Place.skipMark source
  items false false (settle (lines text.length 0 start text)).1

end CoChange.Source.IndentOutline
