import CoChange.Arithmetic
import CoChange.Yaml.ScalarText

/-!
# Tokens of YAML

A text is cut into tokens. The structure that indentation gives to a text becomes explicit: the
tokens say where a block collection starts and ends, and where a key starts. That something is a key
shows only at the colon behind it; the key's token is then put in where the key began, which has to
be on the same line.
-/

namespace CoChange.Yaml

inductive Token where
  | version
  | shorthand (handle tagStart : List Char)
  | documentStart
  | documentEnd
  | blockSequenceStart
  | blockMappingStart
  | blockEnd
  | flowSequenceStart
  | flowSequenceEnd
  | flowMappingStart
  | flowMappingEnd
  | blockEntry
  | flowEntry
  | key
  | value
  | alias (name : List Char)
  | anchor (name : List Char)
  | tag (handle rest : List Char)
  | scalar (plain : Bool) (text : List Char)
  deriving DecidableEq, Repr

structure Mark where
  index : Nat
  line : Nat
  column : Nat
  deriving DecidableEq, Repr

/-- The place behind a character. -/
def Mark.past (m : Mark) (c : Char) : Mark :=
  if isBreak c then ⟨m.index + 1, m.line + 1, 0⟩ else ⟨m.index + 1, m.line, m.column + 1⟩

/-- Something that may turn out to be a key. -/
structure PendingKey where
  /-- Whether nothing but a key can stand there. -/
  required : Bool
  /-- How many tokens stand in front of it. -/
  position : Nat
  mark : Mark
  deriving DecidableEq, Repr

/-- How far the cutting has come. -/
structure Lexer where
  mark : Mark
  tokens : Array Token
  /-- The columns of the open block collections, the innermost first. -/
  indents : List Nat
  /-- What may be a key at the current level of brackets. -/
  pending : Option PendingKey
  /-- What may be a key at the levels around it, the innermost first. -/
  outer : List (Option PendingKey)
  /-- Whether a key may start here. -/
  keyAllowed : Bool
  deriving Repr

namespace Lexer

def start : Lexer := ⟨⟨0, 0, 0⟩, #[], [], none, [], true⟩

def inFlow (l : Lexer) : Bool := !l.outer.isEmpty

/-- The least column of what belongs to the innermost block collection. -/
def contentColumn (l : Lexer) : Nat :=
  match l.indents with
  | [] => 0
  | column :: _ => column + 1

def push (l : Lexer) (t : Token) : Lexer := { l with tokens := l.tokens.push t }

/-- Moves on to `rest`, which stands behind `cs` or some part of it. -/
def moveTo (l : Lexer) (cs rest : List Char) : Lexer :=
  { l with mark := (cs.take (cs.length - rest.length)).foldl Mark.past l.mark }

/-- Says whether a key may start here. -/
def allowKey (l : Lexer) (allowed : Bool) : Lexer := { l with keyAllowed := allowed }

/-! ### Keys and indentation -/

/-- Gives up what may have been a key. -/
def dropKey (l : Lexer) : Except Fault Lexer :=
  match l.pending with
  | some key => if key.required then .error .missingColon else .ok { l with pending := none }
  | none => .ok l

/-- Notes that a key may start here. -/
def noteKey (l : Lexer) : Except Fault Lexer :=
  if l.keyAllowed then do
    let l ← l.dropKey
    let required := !l.inFlow && l.indents.head? = some l.mark.column
    return { l with pending := some ⟨required, l.tokens.size, l.mark⟩ }
  else .ok l

/-- The longest text that can be a key. -/
def maxKeyLength : Nat := 1024

/-- What may still be a key at a place: a key stands on one line and is not too long. -/
def fresh (mark : Mark) (key : Option PendingKey) : Except Fault (Option PendingKey) :=
  match key with
  | some k =>
    if k.mark.line < mark.line || k.mark.index + maxKeyLength < mark.index then
      if k.required then .error .missingColon else .ok none
    else .ok key
  | none => .ok none

/-- Gives up all that can no longer be a key. -/
def dropStaleKeys (l : Lexer) : Except Fault Lexer := do
  return { l with
    pending := ← fresh l.mark l.pending
    outer := ← l.outer.mapM (fresh l.mark) }

/-- Opens a block collection at a column that is further in, with its token at the given
position. -/
def openBlock (l : Lexer) (column position : Nat) (t : Token) : Lexer :=
  if l.inFlow || column < l.contentColumn then l
  else { l with
    indents := column :: l.indents
    tokens := l.tokens.insertIdxIfInBounds position t }

/-- Closes the block collections that `isClosed` holds of. -/
def closeBlocks (isClosed : Nat → Bool) (l : Lexer) : Lexer :=
  if l.inFlow then l
  else
    let closed := l.indents.takeWhile isClosed
    { l with
      indents := l.indents.drop closed.length
      tokens := l.tokens ++ closed.toArray.map fun _ => Token.blockEnd }

/-! ### Blanks and comments -/

/-- Skips blanks, comments and line breaks. Tabs are blanks only where no key can start. -/
def skipBlanks (l : Lexer) (inComment : Bool) : List Char → Lexer × List Char
  | [] => (l, [])
  | c :: rest =>
    let moved := { l with mark := l.mark.past c }
    if isBreak c then skipBlanks (moved.allowKey (l.keyAllowed || !l.inFlow)) false rest
    else if inComment || c = ' ' || (c = '\t' && (l.inFlow || !l.keyAllowed)) then
      skipBlanks moved inComment rest
    else if c = '#' then skipBlanks moved true rest
    else if c.toNat = 0xFEFF && l.mark.index = 0 then skipBlanks moved false rest
    else (l, c :: rest)

/-! ### Tags, anchors and directives -/

/-- What a reader of a token gives back: the token and what stands behind it. -/
abbrev Cut := Except Fault (Token × List Char)

/-- Characters that may stand behind the name of an anchor. -/
def endsAnchor (c : Option Char) : Bool :=
  isBlankOrEnd c || c.any (fun c => "?:,]\x7d%@".toList.contains c || c.toNat = 0x60)

def takeAnchor (make : List Char → Token) (cs : List Char) : Cut :=
  let (name, rest) := cs.span isWordChar
  if name.isEmpty || !endsAnchor rest.head? then .error .badAnchor else .ok (make name, rest)

def isTagChar (bracketed : Bool) (c : Char) : Bool :=
  isWordChar c || ";/?:@&=+$.!~*'()".toList.contains c || (bracketed && ",[]".toList.contains c)

/-- The number of bytes of a character, by its first byte. -/
def byteCount? (b : Nat) : Option Nat :=
  if b < 0x80 then some 1
  else if b / 0x20 = 0x6 then some 2
  else if b / 0x10 = 0xE then some 3
  else if b / 0x08 = 0x1E then some 4
  else none

/-- Reads the characters of a tag. A percent sign stands in front of two hexadecimal digits of a
byte; `pending` counts the further bytes that the character begun by `value` needs. -/
def takeTagChars (bracketed : Bool) (text : List Char) (pending value : Nat) :
    List Char → Except Fault (List Char × List Char)
  | '%' :: a :: b :: rest =>
    match hexValue? a, hexValue? b with
    | some a, some b =>
      let byte := 16 * a + b
      if pending = 0 then
        match byteCount? byte with
        | none => .error .badTag
        | some 1 => takeTagChars bracketed (Char.ofNat byte :: text) 0 0 rest
        | some n => takeTagChars bracketed text (n - 1) (byte % 2 ^ (7 - n)) rest
      else if byte / 0x40 ≠ 2 then .error .badTag
      else
        let value := 0x40 * value + byte % 0x40
        if pending = 1 then takeTagChars bracketed (Char.ofNat value :: text) 0 0 rest
        else takeTagChars bracketed text (pending - 1) value rest
    | _, _ => .error .badTag
  | c :: rest =>
    if pending ≠ 0 || c = '%' then .error .badTag
    else if isTagChar bracketed c then takeTagChars bracketed (c :: text) 0 0 rest
    else .ok (text.reverse, c :: rest)
  | [] => if pending ≠ 0 then .error .badTag else .ok (text.reverse, [])

/-- Reads the handle of a tag, which starts with an exclamation mark. -/
def takeHandle (cs : List Char) : List Char × List Char :=
  let (word, rest) := cs.span isWordChar
  match rest with
  | '!' :: rest => ('!' :: word ++ ['!'], rest)
  | _ => ('!' :: word, rest)

/-- Reads a tag behind its exclamation mark: in full between angles, or behind a handle. A lone mark
is a tag of its own, without handle. -/
def takeTag (inFlow : Bool) (cs : List Char) : Cut := do
  let (handle, name, rest) ← match cs with
    | '<' :: rest => do
      let (name, rest) ← takeTagChars true [] 0 0 rest
      match rest with
      | '>' :: rest => if name.isEmpty then throw .badTag else pure ([], name, rest)
      | _ => throw .badTag
    | _ => do
      let (handle, rest) := takeHandle cs
      if 1 < handle.length && handle.getLast? = some '!' then
        let (name, rest) ← takeTagChars false [] 0 0 rest
        if name.isEmpty then throw .badTag else pure (handle, name, rest)
      else
        let (name, rest) ← takeTagChars false [] 0 0 rest
        let name := handle.drop 1 ++ name
        if name.isEmpty then pure ([], ['!'], rest) else pure (['!'], name, rest)
  if isBlankOrEnd rest.head? || (inFlow && rest.head? = some ',') then
    return (.tag handle name, rest)
  else throw .badTag

/-- Reads a number of a version. -/
def takeVersionNumber (cs : List Char) : Except Fault (Nat × List Char) :=
  let (digits, rest) := cs.span Char.isDigit
  if digits.isEmpty || 9 < digits.length then .error .badDirective
  else .ok (digits.foldl (fun n c => 10 * n + (c.toNat - '0'.toNat)) 0, rest)

/-- Reads a directive behind its percent sign: the version, which has to be 1.1 or 1.2, or a
shorthand for the starts of tags. -/
def takeDirective (cs : List Char) : Cut := do
  let (name, rest) := cs.span isWordChar
  let body := rest.dropWhile isBlank
  let (token, rest) ←
    if !isBlankOrEnd rest.head? then throw .badDirective
    else if name = "YAML".toList then do
      let (major, rest) ← takeVersionNumber body
      match rest with
      | '.' :: rest => do
        let (minor, rest) ← takeVersionNumber rest
        if major = 1 && (minor = 1 || minor = 2) then pure (Token.version, rest)
        else throw .badDirective
      | _ => throw .badDirective
    else if name = "TAG".toList then do
      match body with
      | '!' :: rest => do
        let (handle, rest) := takeHandle rest
        if handle ≠ ['!'] && handle.getLast? ≠ some '!' then throw .badDirective
        else if !rest.head?.any isBlank then throw .badDirective
        else
          let (tagStart, rest) ← takeTagChars true [] 0 0 (rest.dropWhile isBlank)
          if tagStart.isEmpty || !isBlankOrEnd rest.head? then throw .badDirective
          else pure (Token.shorthand handle tagStart, rest)
      | _ => throw .badDirective
    else throw .badDirective
  return (token, ← skipHeaderLine rest)

/-! ### Tokens -/

/-- Adds the token that `cut` reads, in front of which a key may have started. -/
def cutContent (l : Lexer) (cs : List Char) (cut : Cut) : Except Fault (Lexer × List Char) := do
  let l ← l.noteKey
  let (t, rest) ← cut
  return (((l.push t).moveTo cs rest).allowKey false, rest)

/-- Adds a token of one character, which no key can start with. -/
def cutMark (l : Lexer) (t : Token) (c : Char) (rest : List Char) : Lexer × List Char :=
  ({ l.push t with mark := l.mark.past c }, rest)

/-- Starts a collection between brackets. -/
def openFlow (l : Lexer) (t : Token) (c : Char) (rest : List Char) :
    Except Fault (Lexer × List Char) := do
  let l ← l.noteKey
  let l := { l with outer := l.pending :: l.outer, pending := none, keyAllowed := true }
  return l.cutMark t c rest

/-- Ends a collection between brackets. -/
def closeFlow (l : Lexer) (t : Token) (c : Char) (rest : List Char) :
    Except Fault (Lexer × List Char) := do
  let l ← l.dropKey
  let l := match l.outer with
    | [] => l
    | key :: outer => { l with pending := key, outer := outer }
  return (l.allowKey false).cutMark t c rest

/-- Starts an item of a block sequence. -/
def cutBlockEntry (l : Lexer) (rest : List Char) : Except Fault (Lexer × List Char) := do
  if !l.inFlow && !l.keyAllowed then throw .misplacedEntry
  let l ← (l.openBlock l.mark.column l.tokens.size .blockSequenceStart).dropKey
  return (l.allowKey true).cutMark .blockEntry '-' rest

/-- Starts a key behind a question mark. -/
def cutKey (l : Lexer) (rest : List Char) : Except Fault (Lexer × List Char) := do
  if !l.inFlow && !l.keyAllowed then throw .misplacedKey
  let l ← (l.openBlock l.mark.column l.tokens.size .blockMappingStart).dropKey
  return (l.allowKey !l.inFlow).cutMark .key '?' rest

/-- Starts a value behind a colon; what stands in front of it on the line is its key. -/
def cutValue (l : Lexer) (rest : List Char) : Except Fault (Lexer × List Char) := do
  match l.pending with
  | some key =>
    let l := { l with
      tokens := l.tokens.insertIdxIfInBounds key.position .key
      pending := none, keyAllowed := false }
    return (l.openBlock key.mark.column key.position .blockMappingStart).cutMark .value ':' rest
  | none =>
    if !l.inFlow && !l.keyAllowed then throw .misplacedValue
    let l := l.openBlock l.mark.column l.tokens.size .blockMappingStart
    return (l.allowKey !l.inFlow).cutMark .value ':' rest

/-- Adds what stands at the border of documents or in front of them. -/
def cutBorder (l : Lexer) (cs : List Char) (cut : Cut) : Except Fault (Lexer × List Char) := do
  let l ← (l.closeBlocks fun _ => true).dropKey
  let (t, rest) ← cut
  return (((l.push t).moveTo cs rest).allowKey false, rest)

/-- Adds a block behind a bar or an angle. -/
def cutBlock (l : Lexer) (literal : Bool) (c : Char) (cs : List Char) :
    Except Fault (Lexer × List Char) := do
  let l ← l.dropKey
  let (header, rest) ← takeBlockHeader cs
  let rest ← skipHeaderLine rest
  let base := l.indents.headD 0
  let indent := header.indent.map (base + ·)
  let taken ← takeBlock literal header.chomping (max l.contentColumn 1) ⟨[], none, [], false⟩
    (.start indent 0 0) rest
  return (((l.push (.scalar false taken.text)).moveTo (c :: cs) taken.rest).allowKey true,
    taken.rest)

/-- Adds a text between quotes. -/
def cutQuoted (l : Lexer) (c : Char) (cs : List Char) (taken : Except Fault Taken) :
    Except Fault (Lexer × List Char) :=
  l.cutContent (c :: cs) do
    let taken ← taken
    return (.scalar false taken.text, taken.rest)

/-- Adds a plain text. A key may start behind it if a line break was skipped. -/
def cutPlain (l : Lexer) (cs : List Char) : Except Fault (Lexer × List Char) := do
  let l ← l.noteKey
  let taken ← takePlain l.inFlow l.contentColumn l.mark.column [] .empty cs
  return (((l.push (.scalar true taken.text)).moveTo cs taken.rest).allowKey taken.broken,
    taken.rest)

/-- The characters that no plain text starts with. -/
def plainStops : List Char := "-?:,[]\x7b\x7d#&*!|>'\"%@".toList ++ [Char.ofNat 0x60]

/-- Whether a plain text starts with a character, given the next one. -/
def startsPlain (inFlow : Bool) (c : Char) (next : Option Char) : Bool :=
  (!isBlankOrEnd (some c) && !plainStops.contains c)
    || (c = '-' && !next.any isBlank)
    || (!inFlow && (c = '?' || c = ':') && !isBlankOrEnd next)

/-- Adds the token that starts with the character `c`. -/
def cut (l : Lexer) (c : Char) (rest : List Char) : Except Fault (Lexer × List Char) :=
  let next := rest.head?
  let cs := c :: rest
  if l.mark.column = 0 && c = '%' then l.cutBorder cs (takeDirective rest)
  else if l.mark.column = 0 && isDocumentMark '-' cs then
    l.cutBorder cs (.ok (.documentStart, cs.drop 3))
  else if l.mark.column = 0 && isDocumentMark '.' cs then
    l.cutBorder cs (.ok (.documentEnd, cs.drop 3))
  else if c = '[' then l.openFlow .flowSequenceStart c rest
  else if c = '\x7b' then l.openFlow .flowMappingStart c rest
  else if c = ']' then l.closeFlow .flowSequenceEnd c rest
  else if c = '\x7d' then l.closeFlow .flowMappingEnd c rest
  else if c = ',' then do
    let l ← l.dropKey
    return (l.allowKey true).cutMark .flowEntry c rest
  else if c = '-' && isBlankOrEnd next then l.cutBlockEntry rest
  else if c = '?' && (l.inFlow || isBlankOrEnd next) then l.cutKey rest
  else if c = ':' && (l.inFlow || isBlankOrEnd next) then l.cutValue rest
  else if c = '*' then l.cutContent cs (takeAnchor .alias rest)
  else if c = '&' then l.cutContent cs (takeAnchor .anchor rest)
  else if c = '!' then l.cutContent cs (takeTag l.inFlow rest)
  else if c = '|' && !l.inFlow then l.cutBlock true c rest
  else if c = '>' && !l.inFlow then l.cutBlock false c rest
  else if c = '\'' then
    l.cutQuoted c rest (takeSingleQuoted (l.mark.column + 1) [] .empty false rest)
  else if c = '"' then
    l.cutQuoted c rest (takeDoubleQuoted (l.mark.column + 1) [] .empty .none rest)
  else if startsPlain l.inFlow c next then l.cutPlain cs
  else .error .strayCharacter

/-- Closes what is open at the end of the text. -/
def finish (l : Lexer) : Except Fault (Array Token) := do
  let l ← (l.closeBlocks fun _ => true).dropKey
  return l.tokens

/-- Cuts a text. Every token takes a character at least, so that `fuel` is the length of the
text. -/
def run (fuel : Nat) (l : Lexer) (cs : List Char) : Except Fault (Array Token) := do
  let (l, cs) := l.skipBlanks false cs
  let l := (← l.dropStaleKeys)
  let l := l.closeBlocks (l.mark.column < ·)
  match cs, fuel with
  | [], _ => l.finish
  | c :: rest, fuel + 1 =>
    let (l, cs) ← l.cut c rest
    run fuel l cs
  | _ :: _, 0 => throw .strayCharacter

end Lexer

def Token.ofText (s : String) : Except Fault (List Token) :=
  let cs := s.toList
  if cs.all isAllowed then do
    let tokens ← Lexer.start.run cs.length (unifyBreaks cs)
    return tokens.toList
  else .error .forbiddenCharacter

end CoChange.Yaml
