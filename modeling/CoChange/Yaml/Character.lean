/-!
# Characters of YAML
-/

namespace CoChange.Yaml

def isBreak (c : Char) : Bool := c.toNat ∈ [0x0A, 0x0D, 0x85, 0x2028, 0x2029]

def isBlank (c : Char) : Bool := c = ' ' || c = '\t'

/-- Whether a character is a blank or ends a line; the end of the text counts as one that does. -/
def isBlankOrEnd : Option Char → Bool
  | none => true
  | some c => isBlank c || c = '\x00' || isBreak c

/-- Whether a character is written as it is. -/
def isPrintable (c : Char) : Bool :=
  let n := c.toNat
  n = 0x0A || (0x20 ≤ n && n ≤ 0x7E)
    || (0xA0 ≤ n && n ≠ 0xFEFF && n ≠ 0xFFFE && n ≠ 0xFFFF)

/-- Whether a character may stand in a document that is read. -/
def isAllowed (c : Char) : Bool :=
  let n := c.toNat
  n = 0x09 || n = 0x0A || n = 0x0D || (0x20 ≤ n && n ≤ 0x7E) || n = 0x85
    || (0xA0 ≤ n && n ≠ 0xFFFE && n ≠ 0xFFFF)

/-- Whether a character may stand in the name of an anchor or the handle of a tag. -/
def isWordChar (c : Char) : Bool := c.isAlphanum || c = '_' || c = '-'

/-- Ends every line with a line feed, but for the separators of lines and paragraphs, which are
kept. -/
def unifyBreaks : List Char → List Char
  | '\r' :: '\n' :: rest => '\n' :: unifyBreaks rest
  | c :: rest => (if c = '\r' || c.toNat = 0x85 then '\n' else c) :: unifyBreaks rest
  | [] => []

/-- Whether a text at the start of a line marks the start or the end of a document. -/
def isDocumentMark (mark : Char) : List Char → Bool
  | a :: b :: c :: rest => a = mark && b = mark && c = mark && isBlankOrEnd rest.head?
  | _ => false

/-- Whether a text at the start of a line marks a border of a document. -/
def isDocumentBorder (cs : List Char) : Bool := isDocumentMark '-' cs || isDocumentMark '.' cs

end CoChange.Yaml
