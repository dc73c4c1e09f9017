import CoChange.Source.Bracket

/-!
# Outlines by items

In Rust a function is an item, and items stand at the top level, in the bodies of other items and in
all blocks. A function that is directly in the body of an implementation or a trait belongs to the
type. Declarations without a body are left out, and so is what attributes and macros hold, which is
no code before it is expanded.
-/

namespace CoChange.Source.ItemOutline

/-! ### Lexemes -/

/-- A character between quotes, or else the name of a lifetime, behind the first quote. -/
def quoteLength : List Char → Nat
  | '\\' :: _ :: rest => plainTextLength '\'' rest + 2
  | _ :: '\'' :: _ => 2
  | cs => (cs.takeWhile isWordChar).length

/-- The words that can stand in front of a raw text. -/
def rawMarks : List String := ["r", "br", "cr"]

/-- What a word is together with what follows it: a raw text, a raw name, or just the word. `n` is
the length of the word. -/
def cutRaw (word : String) (n : Nat) (rest : List Char) : Option Lexeme × Nat :=
  let (signs, body) := rest.span (· = '#')
  match body with
  | '"' :: body =>
    if rawMarks.contains word then
      (some .literal, rawTextLength signs.length (n + signs.length + 1) body)
    else (some (.word word), n)
  | c :: _ =>
    if word = "r" && signs.length = 1 && isWordChar c then
      let name := body.takeWhile isWordChar
      (some (.word ("r#" ++ String.ofList name)), n + 1 + name.length)
    else (some (.word word), n)
  | [] => (some (.word word), n)

def cut : Cutter
  | '/' :: '/' :: rest => (none, lineLength rest + 2)
  | '/' :: '*' :: rest => (none, commentLength true 2 0 rest)
  | '"' :: rest => (some .literal, quotedLength '"' 1 rest)
  | '\'' :: rest => (some .literal, quoteLength rest + 1)
  | c :: rest =>
    if c.isWhitespace then (none, 1)
    else
      match cutWord (c :: rest) with
      | (some (.word word), n) => cutRaw word n ((c :: rest).drop n)
      | other => other
  | [] => (none, 0)

/-! ### Items -/

/-- The words that can stand in front of `fn`. -/
def modifiers : List String := ["async", "const", "unsafe", "extern", "default"]

/-- The words that start a visibility. -/
def visibilities : List String := ["pub", "crate"]

/-- The words that no macro has as its name. -/
def keywords : List String :=
  ["if", "while", "match", "return", "in", "else", "break", "let", "mut", "as", "move", "loop"]

/-- What stands in front of the body of an item. -/
inductive Header where
  /-- An implementation or a trait. -/
  | type
  | function (name : String) (start : Place)
  deriving DecidableEq, Repr

/-- How far the reading of items has come. -/
inductive State where
  /-- Between items; `start` is where a function starts if all that follows up to `fn` modifies
  it. -/
  | idle (start : Option Place)
  /-- Behind the word `fn`. -/
  | named (start : Place)
  /-- Behind a word that can be the name of a macro. -/
  | word (text : String)
  /-- In front of a group that holds no code. -/
  | skipping
  /-- In front of a body, between `angles` open angle brackets; `dash` says that an arrow may
  follow. -/
  | header (h : Header) (angles : Nat) (dash : Bool)
  deriving DecidableEq, Repr

/-- The state behind a word that stands between items. -/
def State.afterWord (start : Option Place) (t : Token) (text : String) : State :=
  if text = "fn" then named (start.getD t.start)
  else if visibilities.contains text then idle (some t.start)
  else if modifiers.contains text then idle (some (start.getD t.start))
  else if text = "impl" || text = "trait" then header .type 0 false
  else if keywords.contains text then idle none
  else word text

def State.next (s : State) (t : Token) : State :=
  match s, t.lexeme with
  | named start, .word name => header (.function name start) 0 false
  | header h angles _, .sign c =>
    if c = ';' then idle none
    else if c = '<' then header h (angles + 1) false
    else if c = '>' then header h (angles - 1) false
    else header h angles (c = '-' || c = '=')
  | header h angles _, _ => header h angles false
  | skipping, .word _ => skipping
  | skipping, .sign '!' => skipping
  | word _, .sign '!' => skipping
  | idle start, .literal => idle start
  | _, .sign '#' => skipping
  | idle start, .word text => afterWord start t text
  | _, .word text => afterWord none t text
  | _, _ => idle none

/-- `State.next`, where the closing angle of an arrow is none. -/
def State.step (s : State) (t : Token) : State :=
  match s, t.lexeme with
  | header h angles true, .sign '>' => header h angles false
  | _, _ => s.next t

/-- The functions among the parts of a source. `member` says whether they belong to a type. -/
def items (member : Bool) (s : State) : List Part → List OutlineItem
  | [] => []
  | .token t :: rest => items member (s.step t) rest
  | .group opening _ stop inner :: rest =>
    match s with
    | .skipping => items member (.idle none) rest
    | .header h 0 _ =>
      if opening = '\x7b' then
        (match h with
          | .type => OutlineItem.grouped (items true (.idle none) inner)
          | .function name start =>
            [.function ⟨name, member, .between start stop⟩ (items false (.idle none) inner)])
          ++ items member (.idle none) rest
      else OutlineItem.grouped (items false (.idle none) inner) ++ items member s rest
    | .header _ _ _ => OutlineItem.grouped (items false (.idle none) inner) ++ items member s rest
    | .idle start =>
      OutlineItem.grouped (items false (.idle none) inner)
        ++ items member (.idle (if opening = '(' then start else none)) rest
    | _ => OutlineItem.grouped (items false (.idle none) inner) ++ items member (.idle none) rest
termination_by parts => sizeOf parts
decreasing_by all_goals simp only [List.cons.sizeOf_spec, Part.group.sizeOf_spec]; omega

def read (source : List Char) : List OutlineItem := items false (.idle none) (parts cut source)

end CoChange.Source.ItemOutline
