import CoChange.Arithmetic
import CoChange.Repository.Basic

/-!
# The order of commits

The history of a repository lists the commits that can be reached from the one it is at, the oldest
first: every commit stands behind all commits that it follows. Where this leaves a choice, the line
of the last parent of a merge comes directly in front of the merge.

* `Repository.descent`: the same from the newest to the oldest.
-/

namespace CoChange.Repository

/-- Commits that are to be listed, newest first. -/
structure Descent where
  /-- Commits all of whose followers are listed, the next one first. -/
  ready : List String
  /-- How many followers of a commit are still to be listed. -/
  waiting : SortedMap String Nat

/-- Counts down the followers of a commit; it is ready behind the last of them. -/
def Descent.release (d : Descent) (id : String) : Descent :=
  let left := d.waiting.getD id 0 - 1
  ⟨if left = 0 then id :: d.ready else d.ready, d.waiting.insert id left⟩

/-- The commits that can be reached from some, found in at most the given number of steps. -/
def reach (r : Repository) : Nat → List String → SortedSet String → SortedSet String
  | 0, _, found => found
  | _, [], found => found
  | fuel + 1, id :: rest, found =>
    if found.contains id || (r.commit? id).isNone then reach r fuel rest found
    else reach r fuel (r.parentsOf id ++ rest) (SortedSet.insert id found)

/-- The steps in which all commits are reached: one for each line from a commit to a parent, and one
for the start. -/
def reachSteps (r : Repository) : Nat := 1 + (r.commits.map (·.parents.length)).sum

/-- The number of lines that lead to each parent from the given commits. -/
def followers (r : Repository) (ids : List String) : SortedMap String Nat :=
  (ids.flatMap r.parentsOf).foldl (fun m id => m.insert id (m.getD id 0 + 1)) ∅

/-- Lists commits, newest first, in at most the given number of steps. -/
def descend (r : Repository) : Nat → Descent → List String
  | 0, _ => []
  | _, ⟨[], _⟩ => []
  | fuel + 1, ⟨id :: ready, waiting⟩ =>
    id :: descend r fuel ((r.parentsOf id).foldl Descent.release ⟨ready, waiting⟩)

/-- The commits that can be reached from the one that the repository is at, the newest first. -/
def descent (r : Repository) : List String :=
  match r.head with
  | none => []
  | some head =>
    let reached := (reach r r.reachSteps [head] ∅).keys
    descend r reached.length ⟨[head], r.followers reached⟩

/-- The commits that can be reached from the one that the repository is at, the oldest first. -/
def history (r : Repository) : List String := r.descent.reverse

end CoChange.Repository
