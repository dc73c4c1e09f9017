/-!
# Lines of a text

A line ends behind a line feed, or at the end of the text when characters follow the last line feed.
A text that ends in a line feed has no empty line behind it, and the empty text has no line.
-/

namespace CoChange.Text

/-- The lines of a text, each with its line feed. `current` holds, in reverse, the characters of the
line that is being read. -/
def splitLinesFrom (current : List Char) : List Char → List (List Char)
  | [] => if current.isEmpty then [] else [current.reverse]
  | c :: rest =>
    if c = '\n' then (c :: current).reverse :: splitLinesFrom [] rest
    else splitLinesFrom (c :: current) rest

/-- The lines of a text, each with its line feed. -/
def splitLines (cs : List Char) : List (List Char) := splitLinesFrom [] cs

/-- A line without its line feed, or its carriage return and line feed. -/
def dropLineEnd (line : List Char) : List Char :=
  match line.reverse with
  | '\n' :: '\r' :: rest => rest.reverse
  | '\n' :: rest => rest.reverse
  | _ => line

/-- The lines of a text without their ends. -/
def lines (s : String) : List String :=
  (splitLines s.toList).map fun line => String.ofList (dropLineEnd line)

/-- The number of lines behind a started line, which `open_` says to hold a character. -/
def countLinesFrom (open_ : Bool) : List Char → Nat
  | [] => if open_ then 1 else 0
  | c :: rest => if c = '\n' then countLinesFrom false rest + 1 else countLinesFrom true rest

def countLines (cs : List Char) : Nat := countLinesFrom false cs

/-- Splitting into lines loses nothing. -/
theorem flatten_splitLinesFrom (current cs : List Char) :
    (splitLinesFrom current cs).flatten = current.reverse ++ cs := by
  induction cs generalizing current with
  | nil => cases current <;> simp [splitLinesFrom]
  | cons c rest ih => by_cases h : c = '\n' <;> simp [splitLinesFrom, h, ih]

end CoChange.Text
