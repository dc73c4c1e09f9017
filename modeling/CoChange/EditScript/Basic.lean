/-!
# Edit scripts

How one text became another, line by line, without the lines themselves: runs of lines that were
kept, removed or added, in order.

* `Hunk`: one place of a change, as line differences report it.
* `FileDiff.ofHunks`: the edit script of a whole file from its hunks.
-/

namespace CoChange

inductive EditKind where
  | equal
  | insert
  | delete
  deriving DecidableEq, Repr, Inhabited

/-- A run of lines with one fate. -/
structure Edit where
  kind : EditKind
  size : Nat
  deriving DecidableEq, Repr, Inhabited

/-- An edit script between two texts, with the number of lines of each. -/
structure FileDiff where
  oldLines : Nat
  newLines : Nat
  edits : List Edit
  deriving DecidableEq, Repr, Inhabited

/-- A place where lines were removed or added. Lines count from one; of a side without lines the
start is the line before the place. -/
structure Hunk where
  oldStart : Nat
  oldLines : Nat
  newStart : Nat
  newLines : Nat
  deriving DecidableEq, Repr, Inhabited

/-- The number of old lines before the first line that the hunk removes, or before the place where
it adds lines. -/
def Hunk.oldBefore (h : Hunk) : Nat := if h.oldLines = 0 then h.oldStart else h.oldStart - 1

/-- The number of new lines before the first line that the hunk adds. -/
def Hunk.newBefore (h : Hunk) : Nat := if h.newLines = 0 then h.newStart else h.newStart - 1

namespace FileDiff

/-- A run of lines, left out when it is empty. -/
def run (kind : EditKind) (size : Nat) : List Edit := if size = 0 then [] else [⟨kind, size⟩]

/-- The script of the old lines from `cursor` on: up to each hunk lines are kept, then the hunk
removes its old lines and adds its new ones, and the lines behind the last hunk are kept. -/
def editsFrom (oldLines cursor : Nat) : List Hunk → List Edit
  | [] => run .equal (oldLines - cursor)
  | h :: rest =>
    run .equal (h.oldBefore - cursor) ++ run .delete h.oldLines ++ run .insert h.newLines
      ++ editsFrom oldLines (max h.oldBefore cursor + h.oldLines) rest

/-- The script of a whole file. -/
def ofHunks (oldLines newLines : Nat) (hunks : List Hunk) : FileDiff :=
  ⟨oldLines, newLines, editsFrom oldLines 0 hunks⟩

def isUnchanged (d : FileDiff) : Bool := d.edits.all (·.kind == .equal)

end FileDiff

end CoChange
