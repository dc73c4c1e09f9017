import CoChange.Tree.Basic

/-!
# Units by line

Which named nodes of a text cover a line. Lines are asked for by position, counting from zero, as a
walk over an edit script counts them, while nodes record lines counting from one.
-/

namespace CoChange

/-- The named nodes of a text of `lineCount` lines. -/
structure LineIndex where
  nodes : SortedMap String Node
  lineCount : Nat

namespace LineIndex

/-- Whether a node covers a line, counting from one. A node without a place, or with no start line,
covers none. -/
def covers (n : Node) (line : Nat) : Bool :=
  match n.span with
  | none => false
  | some s => s.startLine ≠ 0 && s.startLine ≤ line && line ≤ n.lastLine

/-- The nodes that cover the line behind the first `position` lines, in the order of their names.
There are none past the end of the text. -/
def at_ (index : LineIndex) (position : Nat) : List (String × Node) :=
  if position < index.lineCount then
    index.nodes.toList.filter fun e => covers e.2 (position + 1)
  else []

end LineIndex

end CoChange
