import CoChange.Repository.Basic

/-!
# What changed between two states

* `Snapshot.deltas`: the files in which two states differ, in the order of their paths.
-/

namespace CoChange

/-- What happened to a file between two states. -/
inductive FileDelta where
  | added (path : String) (content : FileContent)
  | deleted (path : String) (content : FileContent)
  | modified (path : String) (before after : FileContent)
  | renamed (source target : String) (before after : FileContent)
  deriving Repr, Inhabited

/-- What happened to the file at a path, if anything did. -/
def FileDelta.at? (before after : Snapshot) (path : String) : Option FileDelta :=
  match before.get? path, after.get? path with
  | none, some new => some (.added path new)
  | some old, none => some (.deleted path old)
  | some old, some new => if old = new then none else some (.modified path old new)
  | none, none => none

/-- The files in which two states differ, in the order of their paths. -/
def Snapshot.deltas (before after : Snapshot) : List FileDelta :=
  (before.union after).keys.filterMap (FileDelta.at? before after)

end CoChange
