import CoChange.Repository.Delta
import CoChange.Repository.Similarity

/-!
# Renamed files

A file that is gone and a file that is new are one renamed file if they are similar enough. Files
are paired so that the most similar ones come together: a pair gives way to another pair with one of
its files that is more similar, and what becomes free is tried again.

* `Pairing.best`: which of some candidates are paired.
* `FileDelta.withRenames`: the changes with the pairs that are similar enough put together.
-/

namespace CoChange

/-- The percentage from which on similar files are one renamed file. -/
def renameThreshold : Nat := 50

/-- A file that is gone and a file that is new, by their places in a list of changes, and how
similar they are. -/
structure FilePair where
  source : Nat
  target : Nat
  score : Nat
  deriving DecidableEq, Repr, Inhabited

/-- Whether two pairs have a file in common. -/
def FilePair.meets (p q : FilePair) : Bool := p.source = q.source || p.target = q.target

/-- Pairs of which no two have a file in common. -/
abbrev Pairing := List FilePair

namespace Pairing

/-- Whether a pair is more similar than all pairs that it meets. -/
def accepts (p : Pairing) (pair : FilePair) : Bool :=
  0 < pair.score && p.all fun q => !pair.meets q || q.score < pair.score

/-- Takes a pair in if it is more similar than all pairs that it meets, which give way. -/
def offer (p : Pairing) (pair : FilePair) : Pairing :=
  if p.accepts pair then pair :: p.filter (!pair.meets ·) else p

/-- Whether some pair gives way when a pair is offered. -/
def displaces (p : Pairing) (pair : FilePair) : Bool := p.accepts pair && p.any pair.meets

/-- Offers pairs one after the other; tells whether some pair had to give way. -/
def offerAll (p : Pairing) (pairs : List FilePair) : Pairing × Bool :=
  pairs.foldl (fun (p, displaced) pair => (p.offer pair, displaced || p.displaces pair)) (p, false)

/-- Offers pairs until none has to give way, at most the given number of times. -/
def improve (pairs : List FilePair) : Nat → Pairing → Pairing
  | 0, p => p
  | fuel + 1, p =>
    match p.offerAll pairs with
    | (p, true) => improve pairs fuel p
    | (p, false) => p

/-- The pairs that some candidates come to. Every round settles one more of them for good. -/
def best (pairs : List FilePair) : Pairing := improve pairs (pairs.length + 1) []

end Pairing

namespace FileDelta

/-- The pairs of a file that is gone and a file that is new, in the order of the new files. -/
def candidates (deltas : List FileDelta) : List FilePair :=
  let numbered := deltas.zipIdx
  numbered.flatMap fun (target, t) =>
    match target with
    | added _ new =>
      numbered.filterMap fun (source, s) =>
        match source with
        | deleted _ old => (Content.similarity? old new).map (⟨s, t, ·⟩)
        | _ => none
    | _ => []

/-- The pairs that are similar enough to be renamed files. -/
def renames (deltas : List FileDelta) : Pairing :=
  (Pairing.best (candidates deltas)).filter (renameThreshold ≤ ·.score)

/-- The changes with renamed files put together, each in the place of the new file. -/
def withRenames (deltas : List FileDelta) : List FileDelta :=
  let pairs := renames deltas
  deltas.zipIdx.filterMap fun (delta, i) =>
    match delta with
    | added target new =>
      match (pairs.find? (·.target = i)).bind (deltas[·.source]?) with
      | some (deleted source old) => some (renamed source target old new)
      | _ => some delta
    | deleted _ _ => if pairs.any (·.source = i) then none else some delta
    | _ => some delta

end FileDelta

end CoChange
