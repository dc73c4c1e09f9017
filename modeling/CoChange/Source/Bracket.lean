import CoChange.Source.Outline

/-!
# Bracketed sources

Sources of languages that go by brackets, as trees: words, signs and literals, and what stands
between two matching brackets. Comments are left out.
-/

namespace CoChange.Source

/-- A word, sign or literal of a source. -/
inductive Lexeme where
  | word (text : String)
  | sign (c : Char)
  | literal
  deriving DecidableEq, Repr

/-- A lexeme and its place. -/
structure Token where
  lexeme : Lexeme
  start : Place
  stop : Place
  deriving DecidableEq, Repr

/-- A part of a source: a token, or a group between brackets. -/
inductive Part where
  | token (t : Token)
  | group (opening : Char) (start stop : Place) (inner : List Part)
  deriving Repr

def Part.start : Part → Place
  | token t => t.start
  | group _ start _ _ => start

def Part.stop : Part → Place
  | token t => t.stop
  | group _ _ stop _ => stop

/-- What a cutter finds at the front of a source: a lexeme or something that is skipped, and how
many characters that takes. -/
abbrev Cutter := List Char → Option Lexeme × Nat

/-! ### Characters and literals -/

def isWordChar (c : Char) : Bool := c.isAlphanum || c = '_' || 0x80 ≤ c.toNat

def lineLength (cs : List Char) : Nat := (cs.takeWhile (· ≠ '\n')).length

/-- The length of a comment that has been opened `depth + 1` times; comments may be nested or not.
`n` characters of it came before. -/
def commentLength (nested : Bool) (n : Nat) : Nat → List Char → Nat
  | 0, '*' :: '/' :: _ => n + 2
  | depth + 1, '*' :: '/' :: rest => commentLength nested (n + 2) depth rest
  | depth, '/' :: '*' :: rest =>
    if nested then commentLength nested (n + 2) (depth + 1) rest
    else commentLength nested (n + 1) depth ('*' :: rest)
  | depth, _ :: rest => commentLength nested (n + 1) depth rest
  | _, [] => n
  termination_by _ cs => cs.length

/-- The length of a text with its closing quote; a backslash takes the next character along. `n`
characters of it came before. -/
def quotedLength (quote : Char) (n : Nat) : List Char → Nat
  | '\\' :: _ :: rest => quotedLength quote (n + 2) rest
  | c :: rest => if c = quote then n + 1 else quotedLength quote (n + 1) rest
  | [] => n

/-- The length of a text that ends with a quote and `count` number signs. `n` characters of it came
before. -/
def rawTextLength (count n : Nat) : List Char → Nat
  | [] => n
  | '"' :: rest =>
    if (rest.takeWhile (· = '#')).length < count then rawTextLength count (n + 1) rest
    else n + 1 + count
  | _ :: rest => rawTextLength count (n + 1) rest

/-- The length of a text with its closing quote, which nothing escapes. -/
def plainTextLength (quote : Char) (cs : List Char) : Nat := (cs.takeWhile (· ≠ quote)).length + 1

/-- A sign of its own. -/
def cutSign : Cutter
  | c :: _ => (some (.sign c), 1)
  | [] => (none, 0)

/-- A word, or else a sign. -/
def cutWord : Cutter := fun cs =>
  let word := cs.takeWhile isWordChar
  if word.isEmpty then cutSign cs else (some (.word (String.ofList word)), word.length)

/-! ### Trees -/

/-- Cuts a source into tokens. Every cut takes a character at least, so that `fuel` is the length of
the source. -/
def tokens (cut : Cutter) : Nat → Place → List Char → List Token
  | _, _, [] => []
  | 0, _, _ => []
  | fuel + 1, p, cs =>
    let (lexeme, n) := cut cs
    let stop := p.pastAll (cs.take n)
    match lexeme with
    | some l => ⟨l, p, stop⟩ :: tokens cut fuel stop (cs.drop n)
    | none => tokens cut fuel stop (cs.drop n)

/-- An opened group: its bracket, and the parts read so far, the last one first. -/
structure OpenGroup where
  opening : Char
  start : Place
  parts : List Part

/-- The parts of a source in the making: the open groups, the innermost first, and the parts around
them. -/
structure Nesting where
  groups : List OpenGroup
  parts : List Part

namespace Nesting

/-- Adds a part to the innermost group. -/
def push (n : Nesting) (p : Part) : Nesting :=
  match n.groups with
  | [] => { n with parts := p :: n.parts }
  | g :: rest => { n with groups := { g with parts := p :: g.parts } :: rest }

/-- Closes the innermost group. -/
def close (n : Nesting) (stop : Place) : Nesting :=
  match n.groups with
  | [] => n
  | g :: rest => Nesting.push ⟨rest, n.parts⟩ (.group g.opening g.start stop g.parts.reverse)

def add (n : Nesting) (t : Token) : Nesting :=
  match t.lexeme with
  | .sign c =>
    if "([\x7b".toList.contains c then { n with groups := ⟨c, t.start, []⟩ :: n.groups }
    else if ")]\x7d".toList.contains c then n.close t.stop
    else n.push (.token t)
  | _ => n.push (.token t)

/-- Closes all groups at the end of the source. -/
def finish (n : Nesting) (stop : Place) : List Part :=
  (n.groups.foldl (fun n _ => n.close stop) n).parts.reverse

end Nesting

def parts (cut : Cutter) (source : List Char) : List Part :=
  let (start, text) := Place.skipMark source
  ((tokens cut text.length start text).foldl Nesting.add ⟨[], []⟩).finish (start.pastAll text)

end CoChange.Source
