import CoChange.EditScript.Basic
import CoChange.LineIndex

/-!
# What a change touches

A removed line touches the nodes of the text before that cover it, an added line those of the text
after. `touches` lists them along the edit script, with a node as often as it has changed lines.
-/

namespace CoChange

namespace LineIndex

/-- The nodes on the lines from `start` on, line after line; lines past the end have none. -/
def along (index : LineIndex) (start size : Nat) : List (String × Node) :=
  (List.range' start (min (start + size) index.lineCount - start)).flatMap index.at_

end LineIndex

/-- What the edits touch, from a position in each of the two texts on. -/
def touchesFrom (before after : LineIndex) : Nat → Nat → List Edit → List (String × Node)
  | _, _, [] => []
  | i, j, ⟨.equal, size⟩ :: rest => touchesFrom before after (i + size) (j + size) rest
  | i, j, ⟨.delete, size⟩ :: rest =>
    before.along i size ++ touchesFrom before after (i + size) j rest
  | i, j, ⟨.insert, size⟩ :: rest =>
    after.along j size ++ touchesFrom before after i (j + size) rest

/-- The nodes on changed lines, in the order of the edits, of the lines and of the names. -/
def FileDiff.touches (d : FileDiff) (before after : SortedMap String Node) :
    List (String × Node) :=
  touchesFrom ⟨before, d.oldLines⟩ ⟨after, d.newLines⟩ 0 0 d.edits

end CoChange
