import CoChange.EditScript.Basic
import CoChange.EditScript.Compaction
import CoChange.Text.Lines

/-!
# Differences of texts

The edit script between two texts: their lines are aligned, the groups of changed lines get their
places, and each stretch of changed lines becomes a hunk. A text that looks binary has no hunks.
-/

namespace CoChange

/-- The number of characters in which a zero byte makes a content binary. -/
def binaryWindow : Nat := 8000

/-- Whether a text has a zero byte near its start, which takes it out of the comparison by lines. -/
def hasEarlyZero (text : List Char) : Bool :=
  let rec go : Nat → List Char → Bool
    | _, [] => false
    | room, c :: rest => 0 < room && (c.toNat == 0 || go (room - c.utf8Size) rest)
  go binaryWindow text

/-- The hunks of two marked sides, from the numbers of lines that come before on either side. -/
def hunksOfMarks : Nat → Nat → Nat → List Bool → List Bool → List Hunk
  | 0, _, _, _, _ => []
  | fuel + 1, i, j, marks, marks' =>
    let removed := (marks.takeWhile id).length
    let added := (marks'.takeWhile id).length
    let hunk : Hunk :=
      ⟨if removed = 0 then i else i + 1, removed, if added = 0 then j else j + 1, added⟩
    let here := if removed = 0 && added = 0 then [] else [hunk]
    match marks.dropWhile id, marks'.dropWhile id with
    | _ :: rest, _ :: rest' =>
      here ++ hunksOfMarks fuel (i + removed + 1) (j + added + 1) rest rest'
    | _, _ => here

/-- The hunks between two lists of lines, without lines of context. -/
def lineHunks (old new : List String) : List Hunk :=
  let (marks, marks') := Alignment.align old new
  let marks := Compaction.compact old marks marks'
  let marks' := Compaction.compact new marks' marks
  hunksOfMarks (old.length + new.length + 1) 0 0 marks marks'

/-- The edit script between two texts. A last line without a line break differs from the same line
with one. -/
def FileDiff.between (old new : String) : FileDiff :=
  let a := old.toList
  let b := new.toList
  let hunks := if hasEarlyZero a || hasEarlyZero b then []
    else lineHunks ((Text.splitLines a).map String.ofList) ((Text.splitLines b).map String.ofList)
  .ofHunks (Text.countLines a) (Text.countLines b) hunks

end CoChange
