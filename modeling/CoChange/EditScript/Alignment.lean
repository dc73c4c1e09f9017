import CoChange.Arithmetic

/-!
# Aligning two sequences of lines

Finds a small set of lines whose removal from the old side, and addition to the new side, turns one
sequence into the other. The answer is a list of marks for each side, one for each line, true for a
line that is removed or added; the unmarked lines of both sides are the same.

The search divides the two sequences at a point that a shortest script passes through and goes on
in both halves (`marks`). The point is found by following the scripts of growing cost from both ends
until they meet (`middle`). Lines without a counterpart on the other side are marked before the
search, and so are frequent lines that stand among them (`keepers`).
-/

namespace CoChange.Alignment

variable {α : Type} [BEq α]

/-! ### Where a shortest script passes -/

/-- How far scripts of one cost reach: for each diagonal (old position minus new position) between
`low` and `high` the furthest old position, stored with an offset. -/
structure Frontier where
  reach : Array Int
  low : Int
  high : Int

namespace Frontier

/-- The place of a diagonal in the store. -/
def place (offset : Nat) (d : Int) : Nat := (d + offset).toNat

/-- The furthest position on a diagonal. -/
def at_ (offset : Nat) (f : Frontier) (d : Int) : Int := f.reach.getD (place offset d) 0

/-- Records the furthest position on a diagonal. -/
def put (offset : Nat) (f : Frontier) (d i : Int) : Frontier :=
  { f with reach := f.reach.setIfInBounds (place offset d) i }

/-- The frontier of the empty script, at one corner. -/
def start (offset size : Nat) (d i : Int) : Frontier :=
  put offset ⟨Array.replicate size 0, d, d⟩ d i

/-- Makes room for one more edit: both ends move out by one diagonal, with `outside` beyond them, or
back by one at the edge of the box. -/
def widen (offset : Nat) (least greatest outside : Int) (f : Frontier) : Frontier :=
  let f := if least < f.low then { f.put offset (f.low - 2) outside with low := f.low - 1 }
    else { f with low := f.low + 1 }
  if f.high < greatest then { f.put offset (f.high + 2) outside with high := f.high + 1 }
  else { f with high := f.high - 1 }

/-- The diagonals that one more edit can reach, from the highest down, every second one. -/
def diagonals (f : Frontier) : List Int :=
  (List.range ((f.high - f.low) / 2 + 1).toNat).map fun (k : Nat) => f.high - 2 * (k : Int)

/-- Whether a diagonal lies between the ends. -/
def covers (f : Frontier) (d : Int) : Bool := f.low ≤ d && d ≤ f.high

end Frontier

def matchForward (a b : Array α) : Nat → Nat → Nat → Nat
  | 0, _, _ => 0
  | fuel + 1, i, j =>
    match a[i]?, b[j]? with
    | some x, some y => if x == y then matchForward a b fuel (i + 1) (j + 1) + 1 else 0
    | _, _ => 0

/-- The number of equal lines right before `i` and `j`. -/
def matchBackward (a b : Array α) : Nat → Nat → Nat
  | i + 1, j + 1 =>
    match a[i]?, b[j]? with
    | some x, some y => if x == y then matchBackward a b i j + 1 else 0
    | _, _ => 0
  | _, _ => 0

/-- What a sweep over the diagonals leaves: the frontier, or the point where it met the other
one. -/
abbrev Sweep := Except (Nat × Nat) Frontier

/-- Goes one edit further on every diagonal of a forward frontier, and stops where the backward
frontier is met. -/
def sweepForward (offset : Nat) (a b : Array α) (odd : Bool) (back : Frontier) :
    List Int → Frontier → Sweep
  | [], f => .ok f
  | d :: rest, f =>
    let below := f.at_ offset (d - 1)
    let above := f.at_ offset (d + 1)
    let i := if above ≤ below then below + 1 else above
    let j := i - d
    let run := if 0 ≤ i && 0 ≤ j then matchForward a b a.size i.toNat j.toNat else 0
    let i := i + run
    if odd && back.covers d && back.at_ offset d ≤ i then .error (i.toNat, (i - d).toNat)
    else sweepForward offset a b odd back rest (f.put offset d i)

/-- Goes one edit further on every diagonal of a backward frontier, and stops where the forward
frontier is met. -/
def sweepBackward (offset : Nat) (a b : Array α) (odd : Bool) (forth : Frontier) :
    List Int → Frontier → Sweep
  | [], f => .ok f
  | d :: rest, f =>
    let below := f.at_ offset (d - 1)
    let above := f.at_ offset (d + 1)
    let i := if below < above then below else above - 1
    let j := i - d
    let run := if 0 ≤ i && 0 ≤ j then matchBackward a b i.toNat j.toNat else 0
    let i := i - run
    if !odd && forth.covers d && i ≤ forth.at_ offset d then .error (i.toNat, (i - d).toNat)
    else sweepBackward offset a b odd forth rest (f.put offset d i)

/-- Follows scripts of growing cost from both corners until they meet. -/
def meet (offset : Nat) (a b : Array α) (odd : Bool) : Nat → Frontier → Frontier → Nat × Nat
  | 0, _, _ => (a.size, 0)
  | fuel + 1, forth, back =>
    let least : Int := -(b.size : Int)
    let greatest : Int := a.size
    let forth := forth.widen offset least greatest (-1)
    match sweepForward offset a b odd back forth.diagonals forth with
    | .error point => point
    | .ok forth =>
      let back := back.widen offset least greatest (2 ^ 62)
      match sweepBackward offset a b odd forth back.diagonals back with
      | .error point => point
      | .ok back => meet offset a b odd fuel forth back

/-- A point that a shortest script from `a` to `b` passes through. -/
def middle (a b : Array α) : Nat × Nat :=
  let offset := b.size + 2
  let size := a.size + b.size + 5
  let corner : Int := (a.size : Int) - b.size
  meet offset a b (corner % 2 != 0) (a.size + b.size + 1)
    (.start offset size 0 0) (.start offset size corner a.size)

/-! ### The marks -/

abbrev Marks := List Bool × List Bool

/-- Marks of two stretches, one after the other. -/
def Marks.append (m m' : Marks) : Marks := (m.1 ++ m'.1, m.2 ++ m'.2)

/-- The same number of lines on both sides, all kept. -/
def Marks.kept (n : Nat) : Marks := (List.replicate n false, List.replicate n false)

/-- All lines of both sides marked. -/
def Marks.all (a b : List α) : Marks := (a.map fun _ => true, b.map fun _ => true)

/-- The number of equal lines at the start of both lists. -/
def commonStart : List α → List α → Nat
  | x :: a, y :: b => if x == y then commonStart a b + 1 else 0
  | _, _ => 0

/-- Does `f` to what stands between the common start and the common end of both lists. -/
def betweenEnds (f : List α → List α → Marks) (a b : List α) : Marks :=
  let start := commonStart a b
  let a := a.drop start
  let b := b.drop start
  let stop := commonStart a.reverse b.reverse
  (Marks.kept start).append
    ((f (a.take (a.length - stop)) (b.take (b.length - stop))).append (Marks.kept stop))

/-- The marks of a small set of changed lines, by division at the middle of a shortest script. -/
def marks : Nat → List α → List α → Marks
  | 0, a, b => Marks.all a b
  | fuel + 1, a, b =>
    betweenEnds (fun a b =>
      if a.isEmpty || b.isEmpty then Marks.all a b
      else
        let (i, j) := middle a.toArray b.toArray
        (marks fuel (a.take i) (b.take j)).append (marks fuel (a.drop i) (b.drop j))) a b

/-! ### Lines that are marked before the search -/

/-- How the lines of one side occur on the other side. -/
inductive Occurrence where
  | missing
  | few
  | many
  deriving DecidableEq, Repr

/-- A power of two near the square root, with which numbers of occurrences are compared. -/
def rootBound (n bound : Nat) : Nat :=
  if n = 0 then bound else rootBound (n / 4) (2 * bound)

/-- The largest number of occurrences that still makes a line rare, plus one. -/
def manyBound (lines : Nat) : Nat := min (rootBound lines 1) 1024

/-- How often a line occurs among `lines`. -/
def occurrence (bound : Nat) (lines : List α) (x : α) : Occurrence :=
  let n := lines.count x
  if n = 0 then .missing else if n < bound then .few else .many

/-- The lines of the run next to a frequent line that have no counterpart, and those that are
frequent themselves. The run ends at a line with few counterparts, or after a hundred lines. -/
def runBeside (occurrences : List Occurrence) : Nat × Nat :=
  let run := (occurrences.take 100).takeWhile (· != .few)
  (run.count .missing, run.count .many)

/-- Whether each line takes part in the search, given what stands before it in reverse. Frequent
lines are left out where lines without a counterpart stand on both sides and outweigh them. -/
def keepersFrom (before : List Occurrence) : List Occurrence → List Bool
  | [] => []
  | o :: rest =>
    let keep := match o with
      | .missing => false
      | .few => true
      | .many =>
        let (lost, frequent) := runBeside before
        let (lost', frequent') := runBeside rest
        let frequent := frequent + frequent' + 2
        !(lost != 0 && lost' != 0 && frequent * 4 < frequent + lost + lost')
    keep :: keepersFrom (o :: before) rest

/-- The lines of `a`, each with whether it takes part in the search. `wholeA` and `wholeB` are the
whole texts, whose common ends are already gone from `a`. -/
def keepers (bound : Nat) (whole a : List α) : List Bool :=
  keepersFrom [] (a.map (occurrence bound whole))

/-- The members that are kept. -/
def select (keep : List Bool) (a : List α) : List α :=
  ((keep.zip a).filter (·.1)).map (·.2)

/-- Puts the marks of the kept members in their places, and marks the others. -/
def spread : List Bool → List Bool → List Bool
  | [], _ => []
  | false :: keep, found => true :: spread keep found
  | true :: keep, [] => true :: spread keep []
  | true :: keep, m :: found => m :: spread keep found

def align (a b : List α) : Marks :=
  betweenEnds (fun a' b' =>
    let keepA := keepers (manyBound a.length) b a'
    let keepB := keepers (manyBound b.length) a b'
    let sub := select keepA a'
    let sub' := select keepB b'
    let (found, found') := marks (sub.length + sub'.length + 1) sub sub'
    (spread keepA found, spread keepB found')) a b

end CoChange.Alignment
