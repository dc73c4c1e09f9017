import CoChange.SortedMap.Basic

/-!
# Merge commits that were seen

A history with several branches can bring the same merge commit more than once; it counts once. The
log keeps the hashes of the merges that were consumed. It can be put to sleep, which forgets them,
and an asleep log wakes up empty.
-/

namespace CoChange

/-- The merges that were consumed; `none` while the log is asleep. -/
structure MergeLog where
  seen : Option (SortedSet String)
  deriving Inhabited

namespace MergeLog

def empty : MergeLog := ⟨some ∅⟩

def asleep : MergeLog := ⟨none⟩

/-- A log of the given hashes. -/
def ofHashes (hashes : List String) : MergeLog := ⟨some (SortedSet.ofList hashes)⟩

def hashes (log : MergeLog) : List String := (log.seen.getD ∅).keys

def size (log : MergeLog) : Nat := log.hashes.length

def isEmpty (log : MergeLog) : Bool := log.size == 0

def isAsleep (log : MergeLog) : Bool := log.seen.isNone

/-- Whether a commit is new to the log, and the log afterwards. Commits with at most one parent are
always new and are not recorded; a merge wakes the log up. -/
def accept (hash : String) (parentCount : Nat) (log : MergeLog) : Bool × MergeLog :=
  if parentCount ≤ 1 then (true, log)
  else
    let seen := log.seen.getD ∅
    (!seen.contains hash, ⟨some (SortedSet.insert hash seen)⟩)

/-- Forgets all hashes and goes to sleep. -/
def hibernate (_log : MergeLog) : MergeLog := asleep

/-- Wakes up, empty if it was asleep. -/
def boot (log : MergeLog) : MergeLog := ⟨some (log.seen.getD ∅)⟩

/-- Adds the hashes of another log, unless that one is asleep. -/
def union (log other : MergeLog) : MergeLog :=
  match other.seen with
  | none => log
  | some hashes => ⟨some (SortedMap.union (log.seen.getD ∅) hashes)⟩

end MergeLog

end CoChange
