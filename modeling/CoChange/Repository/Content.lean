import CoChange.FileSystem

/-!
# The content of files

Whether a file holds text is told from its first bytes.
-/

namespace CoChange.Content

/-- The bytes that are looked at. -/
def sampleSize : Nat := 8000

/-- A sign at the start of a file of how its text is encoded. -/
inductive Mark where
  | utf8
  | wide
  deriving DecidableEq, Repr

/-- The sign that a file starts with, and what follows it. -/
def mark? : FileContent → Option Mark × FileContent
  | 0xEF :: 0xBB :: 0xBF :: rest => (some .utf8, rest)
  | 0xFE :: 0xFF :: rest => (some .wide, rest)
  | 0xFF :: 0xFE :: rest => (some .wide, rest)
  | content => (none, content)

def isBlankByte (b : UInt8) : Bool := b = 0x20 || (0x09 ≤ b && b ≤ 0x0D)

/-- Whether a byte is found in text: a byte that is no control character, or backspace, form feed or
escape. -/
def isPrintable (b : UInt8) : Bool :=
  (0x20 ≤ b && b ≠ 0x7F) || b = 0x08 || b = 0x0C || b = 0x1B

/-- Whether content is no text: it has a wide encoding, or a byte that is zero, or more than one in
128 of its printable bytes as other control characters. -/
def isBinary (content : FileContent) : Bool :=
  match mark? (content.take sampleSize) with
  | (some .wide, _) => true
  | (_, sample) =>
    sample.contains 0 ||
      sample.countP isPrintable / 128 < sample.countP fun b => !isPrintable b && !isBlankByte b

end CoChange.Content
