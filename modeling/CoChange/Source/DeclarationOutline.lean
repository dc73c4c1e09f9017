import CoChange.Source.Bracket

/-!
# Outlines by declarations

In Go functions are declared at the top level only, each at the start of a line. A function with a
receiver belongs to a type. A declaration without a body counts; it ends where its line ends.
-/

namespace CoChange.Source.DeclarationOutline

def cut : Cutter
  | '/' :: '/' :: rest => (none, lineLength rest + 2)
  | '/' :: '*' :: rest => (none, commentLength false 2 0 rest)
  | '"' :: rest => (some .literal, quotedLength '"' 1 rest)
  | '\'' :: rest => (some .literal, quotedLength '\'' 1 rest)
  | c :: rest =>
    if c.isWhitespace then (none, 1)
    else if c.toNat = 0x60 then (some .literal, plainTextLength c rest + 1)
    else cutWord (c :: rest)
  | [] => (none, 0)

/-- The start of a declaration: its place, its name, and whether it has a receiver. -/
structure Opening where
  start : Place
  name : String
  isMember : Bool
  deriving DecidableEq, Repr

/-- How far the reading of declarations has come. -/
inductive State where
  /-- Between declarations. -/
  | idle
  /-- Behind the word `func`. -/
  | func (start : Place)
  /-- Behind the receiver. -/
  | receiver (start : Place)
  /-- Behind the name, in front of the parameters. -/
  | named (o : Opening)
  /-- Behind the parameters. `braced` says that the next braces belong to a type. -/
  | result (o : Opening) (braced : Bool)
  deriving DecidableEq, Repr

/-- What has been declared when a declaration ends. -/
def State.finish (s : State) (stop : Place) : List OutlineItem :=
  match s with
  | result o _ => [.function ⟨o.name, o.isMember, .between o.start stop⟩ []]
  | _ => []

/-- Whether a declaration goes on with a part behind another one: a line ends it, unless the line
ends with a sign. -/
def continues (before : Option Part) (p : Part) : Bool :=
  match before with
  | none => false
  | some b =>
    b.stop.line = p.start.line ||
      match b with
      | .token ⟨.sign _, _, _⟩ => true
      | _ => false

/-- The state behind a part that stands at the start of a line or behind a declaration. -/
def State.enter (fresh : Bool) (p : Part) : State :=
  match p with
  | .token ⟨.word "func", start, _⟩ => if fresh then func start else idle
  | _ => idle

/-- The state behind a part that goes on, and what has been declared with it. -/
def State.next (s : State) (p : Part) : State × List OutlineItem :=
  match s, p with
  | func start, .token ⟨.word name, _, _⟩ => (named ⟨start, name, false⟩, [])
  | func start, .group '(' _ _ _ => (receiver start, [])
  | receiver start, .token ⟨.word name, _, _⟩ => (named ⟨start, name, true⟩, [])
  | named o, .group '[' _ _ _ => (named o, [])
  | named o, .group '(' _ _ _ => (result o false, [])
  | result o false, .group '\x7b' _ stop _ => (idle, (result o false).finish stop)
  | result o true, .group '\x7b' _ _ _ => (result o false, [])
  | result o _, .token ⟨.word text, _, _⟩ => (result o (text = "interface" || text = "struct"), [])
  | result o _, .group _ _ _ _ => (result o false, [])
  | result o _, .token ⟨.sign c, start, _⟩ =>
    if c = ';' then (idle, (result o false).finish start) else (result o false, [])
  | _, _ => (idle, [])

/-- The functions among the parts of a source; `before` is the part that has been read last. -/
def items (s : State) (before : Option Part) : List Part → List OutlineItem
  | [] => s.finish (before.elim .start Part.stop)
  | p :: rest =>
    if s ≠ .idle && continues before p then
      let (s, declared) := s.next p
      declared ++ items s (some p) rest
    else
      let fresh := before.all fun b => b.stop.line < p.start.line ||
        match b with
        | .token ⟨.sign ';', _, _⟩ => true
        | _ => false
      s.finish (before.elim .start Part.stop) ++ items (.enter fresh p) (some p) rest

def read (source : List Char) : List OutlineItem := items .idle none (parts cut source)

end CoChange.Source.DeclarationOutline
