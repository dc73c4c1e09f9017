/-!
# Blanks of a text

`isBlank` is the class of white space of the Unicode standard, which holds more than the blanks of
ASCII. `trim` removes blanks from both ends of a text.
-/

namespace CoChange.Text

/-- White space: the ASCII blanks, next line, the spaces of all widths, line and paragraph
separator. -/
def isBlank (c : Char) : Bool :=
  let n := c.toNat
  (9 ≤ n && n ≤ 13) || n == 0x20 || n == 0x85 || n == 0xA0 || n == 0x1680 ||
    (0x2000 ≤ n && n ≤ 0x200A) || n == 0x2028 || n == 0x2029 || n == 0x202F || n == 0x205F ||
    n == 0x3000

def trimLeft (cs : List Char) : List Char := cs.dropWhile isBlank

def trimRight (cs : List Char) : List Char := (cs.reverse.dropWhile isBlank).reverse

def trim (cs : List Char) : List Char := trimRight (trimLeft cs)

def trimString (s : String) : String := String.ofList (trim s.toList)

end CoChange.Text
