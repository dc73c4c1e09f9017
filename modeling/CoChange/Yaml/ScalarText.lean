import CoChange.Yaml.Character
import CoChange.Yaml.Fault

/-!
# Reading the texts of scalars

A scalar is written plain, between quotes, or as a block behind a bar or an angle. Where a plain or
quoted text goes on over several lines, a single line break reads as a blank and of several line
breaks the first is dropped; blanks around line breaks do not count.

Each reader takes a text off the front and gives back what stands behind. Texts in the making are
kept with their last character first.
-/

namespace CoChange.Yaml

/-- A text that was taken off the front, and what stands behind it. -/
structure Taken where
  text : List Char
  rest : List Char
  deriving DecidableEq, Repr

/-! ### Gaps between words -/

/-- What stands between two words of a text. -/
inductive Gap where
  /-- Blanks on one line, the last one first. -/
  | blanks (chars : List Char)
  /-- Line breaks: the first one, unless it was escaped, and the others, the last one first. -/
  | breaks (first : Option Char) (others : List Char)
  deriving DecidableEq, Repr

namespace Gap

def empty : Gap := blanks []

/-- The gap with one more blank. -/
def blank (g : Gap) (c : Char) : Gap :=
  match g with
  | blanks cs => blanks (c :: cs)
  | breaks first others => breaks first others

/-- The gap with one more line break. -/
def lineBreak (g : Gap) (c : Char) : Gap :=
  match g with
  | blanks _ => breaks (some c) []
  | breaks first others => breaks first (c :: others)

def isBroken : Gap → Bool
  | blanks _ => false
  | breaks _ _ => true

def isOpen : Gap → Bool
  | blanks cs => !cs.isEmpty
  | breaks _ _ => true

/-- What a gap reads as, the last character first. -/
def text : Gap → List Char
  | blanks cs => cs
  | breaks (some '\n') [] => [' ']
  | breaks (some '\n') others => others
  | breaks first others => others ++ first.toList

end Gap

/-! ### Quoted texts -/

/-- Takes a text off whose opening single quote has been read; a quote inside is written twice. -/
def takeSingleQuoted (column : Nat) (text : List Char) (gap : Gap) (quote : Bool) :
    List Char → Except Fault Taken
  | [] => if quote then .ok ⟨text.reverse, []⟩ else .error .unclosedText
  | c :: rest =>
    if quote then
      if c = '\'' then takeSingleQuoted (column + 1) ('\'' :: text) .empty false rest
      else .ok ⟨text.reverse, c :: rest⟩
    else if isBreak c then takeSingleQuoted 0 text (gap.lineBreak c) false rest
    else if isBlank c then takeSingleQuoted (column + 1) text (gap.blank c) false rest
    else if column = 0 && isDocumentBorder (c :: rest) then .error .misplacedMark
    else if c = '\'' then takeSingleQuoted (column + 1) (gap.text ++ text) .empty true rest
    else takeSingleQuoted (column + 1) (c :: gap.text ++ text) .empty false rest

/-- How far the reading of an escape between double quotes has come. -/
inductive Escape where
  | none
  | started
  /-- Hexadecimal digits that are still to come, and the value of those that came. -/
  | hex (digits value : Nat)
  deriving DecidableEq, Repr

/-- The characters that a letter behind a backslash stands for. -/
def letterEscapes : List (Char × Nat) :=
  [('0', 0x00), ('a', 0x07), ('b', 0x08), ('t', 0x09), ('\t', 0x09), ('n', 0x0A), ('v', 0x0B),
    ('f', 0x0C), ('r', 0x0D), ('e', 0x1B), (' ', 0x20), ('"', 0x22), ('/', 0x2F), ('\\', 0x5C),
    ('N', 0x85), ('_', 0xA0), ('L', 0x2028), ('P', 0x2029)]

/-- The numbers of hexadecimal digits behind a letter. -/
def hexEscapes : List (Char × Nat) := [('x', 2), ('u', 4), ('U', 8)]

def hexValue? (c : Char) : Option Nat :=
  if c.isDigit then some (c.toNat - '0'.toNat)
  else if 'a' ≤ c && c ≤ 'f' then some (c.toNat - 'a'.toNat + 10)
  else if 'A' ≤ c && c ≤ 'F' then some (c.toNat - 'A'.toNat + 10)
  else none

/-- Takes a text off whose opening double quote has been read. -/
def takeDoubleQuoted (column : Nat) (text : List Char) (gap : Gap) (escape : Escape) :
    List Char → Except Fault Taken
  | [] => .error .unclosedText
  | c :: rest =>
    match escape with
    | .started =>
      if isBreak c then takeDoubleQuoted 0 text (.breaks none []) .none rest
      else
        match letterEscapes.lookup c, hexEscapes.lookup c with
        | some n, _ => takeDoubleQuoted (column + 1) (Char.ofNat n :: text) .empty .none rest
        | none, some digits => takeDoubleQuoted (column + 1) text .empty (.hex digits 0) rest
        | none, none => .error .badEscape
    | .hex digits value =>
      match hexValue? c with
      | none => .error .badEscape
      | some d =>
        let value := 16 * value + d
        if 1 < digits then takeDoubleQuoted (column + 1) text .empty (.hex (digits - 1) value) rest
        else if value.isValidChar then
          takeDoubleQuoted (column + 1) (Char.ofNat value :: text) .empty .none rest
        else .error .badEscape
    | .none =>
      if isBreak c then takeDoubleQuoted 0 text (gap.lineBreak c) .none rest
      else if isBlank c then takeDoubleQuoted (column + 1) text (gap.blank c) .none rest
      else if column = 0 && isDocumentBorder (c :: rest) then .error .misplacedMark
      else if c = '"' then .ok ⟨(gap.text ++ text).reverse, rest⟩
      else if c = '\\' then takeDoubleQuoted (column + 1) (gap.text ++ text) .empty .started rest
      else takeDoubleQuoted (column + 1) (c :: gap.text ++ text) .empty .none rest

/-! ### Plain texts -/

/-- A plain text, what stands behind it, and whether line breaks were read on the way there. -/
structure TakenPlain extends Taken where
  broken : Bool
  deriving DecidableEq, Repr

/-- The marks of the collections between brackets. -/
def flowMarks : List Char := ",[]\x7b\x7d".toList

/-- Takes a plain text off. Inside brackets it ends at their marks, and outside of them at a line
that is not set in by `indent`. -/
def takePlain (inFlow : Bool) (indent column : Nat) (text : List Char) (gap : Gap) :
    List Char → Except Fault TakenPlain
  | [] => .ok ⟨⟨text.reverse, []⟩, gap.isBroken⟩
  | c :: rest =>
    let done : Except Fault TakenPlain := .ok ⟨⟨text.reverse, c :: rest⟩, gap.isBroken⟩
    if isBreak c then takePlain inFlow indent 0 text (gap.lineBreak c) rest
    else if isBlank c then
      if gap.isBroken && column < indent && c = '\t' then .error .badIndentation
      else takePlain inFlow indent (column + 1) text (gap.blank c) rest
    else if gap.isBroken && !inFlow && column < indent then done
    else if column = 0 && isDocumentBorder (c :: rest) then done
    else if gap.isOpen && c = '#' then done
    else if inFlow && c = ':' && rest.head?.any (fun d => d = '?' || flowMarks.contains d) then
      .error .strayCharacter
    else if c = ':' && isBlankOrEnd rest.head? then done
    else if inFlow && flowMarks.contains c then done
    else takePlain inFlow indent (column + 1) (c :: gap.text ++ text) .empty rest

/-! ### Blocks -/

/-- What becomes of the line breaks at the end of a block. -/
inductive Chomping where
  | strip
  | clip
  | keep
  deriving DecidableEq, Repr

/-- What stands behind the mark of a block: the indentation, if it is given, and the chomping. -/
structure BlockHeader where
  indent : Option Nat
  chomping : Chomping
  deriving DecidableEq, Repr

/-- The chomping that a sign stands for. -/
def chomping? (c : Char) : Option Chomping :=
  if c = '+' then some .keep else if c = '-' then some .strip else none

/-- The indentation that a digit stands for: anything but zero. -/
def indent? (c : Char) : Option (Except Fault Nat) :=
  if !c.isDigit then none
  else if c = '0' then some (.error .badHeader)
  else some (.ok (c.toNat - '0'.toNat))

/-- Takes the header of a block off: a sign and a digit, in any order. -/
def takeBlockHeader (cs : List Char) : Except Fault (BlockHeader × List Char) :=
  match cs with
  | [] => .ok (⟨none, .clip⟩, [])
  | c :: rest =>
    match chomping? c, indent? c with
    | some sign, _ =>
      match rest with
      | d :: rest' =>
        match indent? d with
        | some digit => do return (⟨some (← digit), sign⟩, rest')
        | none => .ok (⟨none, sign⟩, rest)
      | [] => .ok (⟨none, sign⟩, [])
    | none, some digit =>
      match rest with
      | d :: rest' =>
        match chomping? d with
        | some sign => do return (⟨some (← digit), sign⟩, rest')
        | none => do return (⟨some (← digit), .clip⟩, rest)
      | [] => do return (⟨some (← digit), .clip⟩, [])
    | none, none => .ok (⟨none, .clip⟩, c :: rest)

/-- Skips blanks, a comment and the line break behind the header of a block. -/
def skipHeaderLine (cs : List Char) : Except Fault (List Char) :=
  let rest := cs.dropWhile isBlank
  let rest := if rest.head? = some '#' then rest.dropWhile (!isBreak ·) else rest
  match rest with
  | [] => .ok []
  | c :: rest => if isBreak c then .ok rest else .error .badHeader

structure Block where
  text : List Char
  /-- The line break behind the last line with content. -/
  lineBreak : Option Char
  /-- The line breaks of the empty lines that follow, the last one first. -/
  emptyLines : List Char
  /-- Whether the last line with content began with a blank. -/
  setIn : Bool
  deriving DecidableEq, Repr

namespace Block

/-- The text with the gap in front of a line that begins with `c`. A single line break of a folded
block becomes a blank unless one of the lines is set in further. -/
def joined (literal : Bool) (b : Block) (c : Char) : List Char :=
  if !literal && b.lineBreak = some '\n' && !b.setIn && !isBlank c then
    if b.emptyLines.isEmpty then ' ' :: b.text else b.emptyLines ++ b.text
  else b.emptyLines ++ b.lineBreak.toList ++ b.text

def finish (chomping : Chomping) (b : Block) : List Char :=
  match chomping with
  | .strip => b.text.reverse
  | .clip => (b.lineBreak.toList ++ b.text).reverse
  | .keep => (b.emptyLines ++ b.lineBreak.toList ++ b.text).reverse

end Block

/-- Where the reading of a block stands. -/
inductive BlockState where
  /-- At the start of a line, behind some blanks. The indentation is found out by the first line
  with content; until then the widest line counts. -/
  | start (indent : Option Nat) (column widest : Nat)
  /-- In a line with content. -/
  | inside (indent : Nat)
  deriving DecidableEq, Repr

/-- Takes a block off whose header has been read. A block whose header gives no indentation is set
in as its first line with content, but at least by `least`. -/
def takeBlock (literal : Bool) (chomping : Chomping) (least : Nat) (b : Block)
    (state : BlockState) :
    List Char → Except Fault Taken
  | [] => .ok ⟨b.finish chomping, []⟩
  | c :: rest =>
    match state with
    | .inside indent =>
      if isBreak c then
        takeBlock literal chomping least
          { b with lineBreak := some c } (.start (some indent) 0 0) rest
      else takeBlock literal chomping least { b with text := c :: b.text } (.inside indent) rest
    | .start indent column widest =>
      let inMargin := indent.all (column < ·)
      if inMargin && c = ' ' then
        takeBlock literal chomping least b (.start indent (column + 1) widest) rest
      else if inMargin && c = '\t' then .error .badIndentation
      else
        let widest := max widest column
        if isBreak c then
          takeBlock literal chomping least { b with emptyLines := c :: b.emptyLines }
            (.start indent 0 widest) rest
        else
          let indent := indent.getD (max widest least)
          if column = indent then
            takeBlock literal chomping least ⟨c :: b.joined literal c, none, [], isBlank c⟩
              (.inside indent) rest
          else .ok ⟨b.finish chomping, c :: rest⟩

end CoChange.Yaml
