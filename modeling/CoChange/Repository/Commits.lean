import CoChange.Commit
import CoChange.EditScript.LineDiff
import CoChange.HistoryError
import CoChange.Repository.Order
import CoChange.Repository.Rename
import CoChange.Source.Reader
import CoChange.Text.Utf8

/-!
# Commits with their changes

A commit is compared with its first parent, or with nothing if it has none. Of a changed file those
sides are read that hold text in a language that is understood; a change with no such side is left
out.

* `Repository.read`: a commit with its changes.
* `Repository.openCommits`: the commits with the given identifiers, each read on its own.
-/

namespace CoChange

/-- A file at a commit. -/
structure FileRevision where
  path : String
  text : String
  tree : Node

/-- A file as far as it is understood. -/
def FileRevision.read? (path : String) (content : FileContent) : Option FileRevision := do
  let language ← Language.ofPath path
  if Content.isBinary content then none
  else
    let text := Text.decodeUtf8 content
    some ⟨path, text, language.parse text⟩

/-- The change of a file whose sides have been read. -/
def Change.ofRevisions? : Option FileRevision → Option FileRevision → Option Change
  | none, none => none
  | none, some new => some ⟨"", new.path, none, some new.tree, none⟩
  | some old, none => some ⟨old.path, "", some old.tree, none, none⟩
  | some old, some new =>
    some ⟨old.path, new.path, some old.tree, some new.tree, some (.between old.text new.text)⟩

/-- The change of a file, as far as it is understood. -/
def FileDelta.change? : FileDelta → Option Change
  | added path new => Change.ofRevisions? none (FileRevision.read? path new)
  | deleted path old => Change.ofRevisions? (FileRevision.read? path old) none
  | modified path old new =>
    Change.ofRevisions? (FileRevision.read? path old) (FileRevision.read? path new)
  | renamed source target old new =>
    Change.ofRevisions? (FileRevision.read? source old) (FileRevision.read? target new)

namespace Repository

/-- The files that a commit is compared with. -/
def base (r : Repository) (c : StoredCommit) : Except HistoryError Snapshot :=
  match c.parents with
  | [] => .ok ∅
  | parent :: _ =>
    match r.commit? parent with
    | some p => .ok p.files
    | none => .error (.repository ("Failed to read parent of " ++ c.id))

/-- A commit with its changes. -/
def read (r : Repository) (id : String) : Except HistoryError Commit :=
  match r.commit? id with
  | none => .error (.repository ("Failed to find commit " ++ id))
  | some c => do
    let before ← r.base c
    let deltas := FileDelta.withRenames (before.deltas c.files)
    return ⟨c.id, c.parents.length, deltas.filterMap FileDelta.change?⟩

/-- The identifier that a text names. -/
def readId (text : String) : Except HistoryError String :=
  match CommitId.read? text with
  | some id => .ok id
  | none => .error (.repository ("Invalid commit id '" ++ text ++ "'"))

/-- The commits with the given identifiers. -/
def openCommits (r : Repository) (ids : List String) :
    Except HistoryError (List (Except HistoryError Commit)) := do
  return (← ids.mapM readId).map r.read

end Repository

end CoChange
