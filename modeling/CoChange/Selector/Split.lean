/-!
# Splitting outside quotes

`splitOutsideQuotes` cuts a text at every occurrence of a separator that is met from left to right
while the number of double quotes before it is even.
-/

namespace CoChange

/-- Splits the rest of a text. `current` holds, in reverse, the part that is being read; `skip`
counts the characters of a separator that are still to be passed over. -/
def splitFrom (separator : List Char) :
    (quoted : Bool) → (skip : Nat) → (current : List Char) → List Char → List (List Char)
  | _, _, current, [] => [current.reverse]
  | quoted, skip + 1, current, _ :: rest => splitFrom separator quoted skip current rest
  | quoted, 0, current, c :: rest =>
    if c = '"' then splitFrom separator (!quoted) 0 (c :: current) rest
    else if !quoted && separator.isPrefixOf (c :: rest) then
      current.reverse :: splitFrom separator quoted (separator.length - 1) [] rest
    else splitFrom separator quoted 0 (c :: current) rest

/-- The parts of a text between the separators outside quotes. -/
def splitOutsideQuotes (separator text : List Char) : List (List Char) :=
  splitFrom separator false 0 [] text

end CoChange
