import CoChange.Text.WidthTable

/-!
# The width of a text on a terminal

`width` counts columns: two for wide characters, none for combining and invisible ones, one for all
others, control characters included. A pictograph that is joined to the one before it, a skin tone
behind a pictograph and the second of `\r\n` add nothing; a pictograph followed by the emoji
selector is wide.

`visibleWidth` does not count the body of colour escapes: of `ESC [ … m` only the escape character
itself counts.
-/

namespace CoChange.Text

def inRanges (ranges : List (Nat × Nat)) (c : Char) : Bool :=
  ranges.any fun r => r.1 ≤ c.toNat && c.toNat ≤ r.2

/-- The number of columns of a character that stands alone. -/
def charWidth (c : Char) : Nat :=
  if c.toNat < 0xA0 then 1
  else if inRanges zeroWidthRanges c then 0
  else if inRanges wideRanges c then 2
  else 1

def isPictograph (c : Char) : Bool := inRanges pictographRanges c

def isSkinTone (c : Char) : Bool := 0x1F3FB ≤ c.toNat && c.toNat ≤ 0x1F3FF

/-- The character that joins pictographs. -/
def joiner : Char := Char.ofNat 0x200D

/-- The selector that asks for an emoji. -/
def emojiSelector : Char := Char.ofNat 0xFE0F

/-- What the text before a character was, as far as widths depend on it. -/
inductive WidthContext where
  | plain
  | carriageReturn
  | pictograph
  | joined

/-- The columns of a text behind the given context. -/
def widthFrom : WidthContext → List Char → Nat
  | _, [] => 0
  | context, c :: rest =>
    match context with
    | .joined =>
      if isPictograph c then widthFrom .pictograph rest
      else charWidth c + widthFrom .plain rest
    | .carriageReturn =>
      if c = '\n' then widthFrom .plain rest
      else charWidth c + widthFrom (if c = '\r' then .carriageReturn else .plain) rest
    | .pictograph =>
      if c = joiner then widthFrom .joined rest
      else if c = emojiSelector ∨ isSkinTone c then widthFrom .pictograph rest
      else if isPictograph c then
        (if rest.head? = some emojiSelector then 2 else charWidth c) + widthFrom .pictograph rest
      else charWidth c + widthFrom (if c = '\r' then .carriageReturn else .plain) rest
    | .plain =>
      if isPictograph c then
        (if rest.head? = some emojiSelector then 2 else charWidth c) + widthFrom .pictograph rest
      else charWidth c + widthFrom (if c = '\r' then .carriageReturn else .plain) rest

def width (cs : List Char) : Nat := widthFrom .plain cs

/-- Where a scan for colour escapes stands. -/
inductive EscapeState where
  | outside
  | escape
  | body

/-- The number of characters in the bodies of colour escapes. A body that is never closed runs to
the end of the text. -/
def hiddenFrom : EscapeState → List Char → Nat
  | _, [] => 0
  | .outside, c :: rest => hiddenFrom (if c = '\x1b' then .escape else .outside) rest
  | .escape, c :: rest =>
    if c = '[' then 1 + hiddenFrom .body rest else hiddenFrom .outside rest
  | .body, c :: rest => 1 + hiddenFrom (if c = 'm' then .outside else .body) rest

/-- The number of columns that a text takes on a terminal that shows colours. -/
def visibleWidth (s : String) : Nat :=
  let cs := s.toList
  width cs - hiddenFrom .outside cs

end CoChange.Text
