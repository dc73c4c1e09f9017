import CoChange.Text.CaseTable
import CoChange.Text.WidthTable

/-!
# Upper and lower case

`toUpper` and `toLower` map whole texts by the case mappings of the Unicode standard. One character
may become several (`ß` to `SS`), and a capital sigma at the end of a word becomes the final form of
the small letter. The mappings of ASCII alone are those of `Char.toUpper` and `Char.toLower`.
-/

namespace CoChange.Text

/-- The case mapping of a code point, out of its runs and expansions. -/
def mapCase (runs : List CaseRun) (expansions : List (Nat × List Nat)) (c : Char) : List Char :=
  match expansions.lookup c.toNat with
  | some cs => cs.map Char.ofNat
  | none =>
    match runs.find? (·.covers c.toNat) with
    | some r => [Char.ofNat ((c.toNat : Int) + r.shift).toNat]
    | none => [c]

def upperChar (c : Char) : List Char :=
  if c.toNat < 0x80 then [c.toUpper] else mapCase upperRuns upperExpansions c

/-- The lower case of a character that stands alone. -/
def lowerChar (c : Char) : List Char :=
  if c.toNat < 0x80 then [c.toLower] else mapCase lowerRuns lowerExpansions c

def toUpper (cs : List Char) : List Char := cs.flatMap upperChar

def isCased (c : Char) : Bool := upperChar c != [c] || lowerChar c != [c]

/-- Characters that do not end a word: marks, apostrophes and points. -/
def isCaseIgnorable (c : Char) : Bool :=
  zeroWidthRanges.any (fun r => r.1 ≤ c.toNat && c.toNat ≤ r.2) ||
    [0x27, 0x2E, 0x3A, 0x5E, 0x60, 0xA8, 0xAF, 0xB4, 0xB7, 0xB8, 0x2018, 0x2019].contains c.toNat

/-- Whether the nearest character that is not ignorable is a cased one. -/
def meetsCased (cs : List Char) : Bool :=
  match cs.dropWhile isCaseIgnorable with
  | c :: _ => isCased c
  | [] => false

/-- Lower case of a text, given the characters before it in reverse. -/
def lowerFrom (before : List Char) : List Char → List Char
  | [] => []
  | c :: rest =>
    let mapped :=
      if c = 'Σ' ∧ meetsCased before ∧ ¬ meetsCased rest then ['ς'] else lowerChar c
    mapped ++ lowerFrom (c :: before) rest

def toLower (cs : List Char) : List Char := lowerFrom [] cs

def lowerString (s : String) : String := String.ofList (toLower s.toList)

/-- Whether two strings differ at most in the case of ASCII letters. -/
def eqIgnoreAsciiCase (a b : String) : Bool :=
  a.toList.map Char.toLower == b.toList.map Char.toLower

end CoChange.Text
