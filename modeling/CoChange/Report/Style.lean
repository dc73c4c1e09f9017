/-!
# Colours

Text is coloured by an escape sequence in front of it and one that ends the colour behind it.
-/

namespace CoChange.Report

/-- How a piece of a report stands out. -/
inductive Style where
  | heading
  | alarm
  | warning
  | notable
  | faint
  deriving DecidableEq, Repr

/-- The codes of a style: blue and bold, red and bold, yellow, red, dimmed. -/
def Style.codes : Style → String
  | heading => "1;34"
  | alarm => "1;31"
  | warning => "33"
  | notable => "31"
  | faint => "2"

/-- A text in a style, if colours are wanted. -/
def paint (colours : Bool) (style : Style) (text : String) : String :=
  if colours then "\x1b[" ++ style.codes ++ "m" ++ text ++ "\x1b[0m" else text

end CoChange.Report
