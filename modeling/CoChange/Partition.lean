/-!
# Cutting a list into ranges

`partition len shards` cuts the positions below `len` into ranges of nearly the same size, one after
the other, the longer ones first. There is at least one range for every position up to the number
of shards, and none for an empty list. `chunks` cuts a list into pieces of a given size.
-/

namespace CoChange

/-- The positions from `start` up to, without, `stop`. -/
structure Range where
  start : Nat
  stop : Nat
  deriving DecidableEq, Repr, Inhabited

namespace Range

def size (r : Range) : Nat := r.stop - r.start

/-- The members of a list at the positions of a range. -/
def slice (r : Range) (l : List α) : List α := (l.drop r.start).take r.size

end Range

/-- The sizes of the ranges: `shards` of them, of which the first `len % shards` are longer by
one. -/
def shardSizes (len shards : Nat) : List Nat :=
  (List.range shards).map fun i => len / shards + if i < len % shards then 1 else 0

/-- Ranges of the given sizes, one after the other; empty ones are left out. -/
def consecutive (start : Nat) : List Nat → List Range
  | [] => []
  | size :: rest =>
    let tail := consecutive (start + size) rest
    if size = 0 then tail else ⟨start, start + size⟩ :: tail

/-- Cuts the positions below `len` into at most `shards` ranges; no shards count as one. -/
def partition (len shards : Nat) : List Range :=
  consecutive 0 (shardSizes len (min (max shards 1) (max len 1)))

/-- Cuts a list into pieces of `size` members; only the last piece may be shorter. A size of zero
counts as one. -/
def chunks (size : Nat) (l : List α) : List (List α) :=
  match l with
  | [] => []
  | a :: rest => (a :: rest.take (size - 1)) :: chunks size (rest.drop (size - 1))
  termination_by l.length
  decreasing_by simp only [List.length_drop, List.length_cons]; omega

end CoChange
