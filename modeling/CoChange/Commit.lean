import CoChange.EditScript.Basic
import CoChange.Tree.Basic

/-!
# Commits

A commit with the files that it changed, each with the syntax trees of its two sides. A side without
a tree is one that was not there, or not read.
-/

namespace CoChange

/-- What happened to a file, as far as its trees tell. -/
inductive ChangeKind where
  | inserted
  | deleted
  | modified
  | untracked
  deriving DecidableEq, Repr

/-- One changed file of a commit. `source` is its path before and `target` its path after. -/
structure Change where
  source : String
  target : String
  before : Option Node
  after : Option Node
  diff : Option FileDiff
  deriving Inhabited

/-- What happened to the file. -/
def Change.kind (c : Change) : ChangeKind :=
  match c.before, c.after with
  | none, some _ => .inserted
  | some _, none => .deleted
  | some _, some _ => .modified
  | none, none => .untracked

def Change.isRename (c : Change) : Bool := c.kind == .modified && c.source != c.target

structure Commit where
  hash : String
  parentCount : Nat
  changes : List Change
  deriving Inhabited

/-- Whether the commit joins several lines of history. -/
def Commit.isMerge (c : Commit) : Bool := 1 < c.parentCount

end CoChange
