import CoChange.FileSystem

/-!
# Repositories

A repository as a value: its commits, each with all files of its state, and the commit that it is
at. A commit is known by an identifier of forty digits in base sixteen.

* `Repository.commit?`: the commit with an identifier.
* `CommitId.read?`: which texts can name a commit.
-/

namespace CoChange

/-- The files of a state, by path. -/
abbrev Snapshot := SortedMap String FileContent

/-- A commit as a repository keeps it. -/
structure StoredCommit where
  id : String
  /-- The commits that it follows, the main one first. -/
  parents : List String
  files : Snapshot

structure Repository where
  commits : List StoredCommit
  /-- The commit that the repository is at; there is none before the first commit. -/
  head : Option String

namespace CommitId

/-- The number of digits of an identifier. -/
def length : Nat := 40

def isHexDigit (c : Char) : Bool :=
  c.isDigit || ('a' ≤ c && c ≤ 'f') || ('A' ≤ c && c ≤ 'F')

/-- The identifier that a text names; missing digits are zeros at its end. -/
def read? (text : String) : Option String :=
  let digits := text.toList
  if digits.isEmpty || length < digits.length || !digits.all isHexDigit then none
  else some (String.ofList (digits.map Char.toLower ++ List.replicate (length - digits.length) '0'))

end CommitId

namespace Repository

def commit? (r : Repository) (id : String) : Option StoredCommit := r.commits.find? (·.id = id)

/-- The commits that a commit follows, as far as the repository has it. -/
def parentsOf (r : Repository) (id : String) : List String :=
  match r.commit? id with
  | some c => c.parents
  | none => []

end Repository

end CoChange
