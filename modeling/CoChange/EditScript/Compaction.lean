import CoChange.EditScript.Alignment

/-!
# Placing groups of changed lines

Where a group of marked lines ends with the line that stands right before the group, the group can
slide up by one line without a change of meaning, and likewise down. `compact` gives every group of
one side its place: as far down as it can go, where it joins groups that it meets, and from there up
again to the last place, if there is one, at which a group of the other side stands beside it.
-/

namespace CoChange.Compaction

variable {α : Type} [BEq α]

/-- The marked lines of a side from `first` up to, without, `stop`; a group may be empty. -/
structure Group where
  first : Nat
  stop : Nat
  deriving DecidableEq, Repr

/-- Whether a line is marked; there are no marked lines outside the text. -/
def isMarked (marks : Array Bool) (i : Nat) : Bool := marks.getD i false

/-- The first unmarked line from `i` on. -/
def endFrom (marks : Array Bool) : Nat → Nat → Nat
  | 0, i => i
  | fuel + 1, i => if isMarked marks i then endFrom marks fuel (i + 1) else i

/-- The start of the run of marked lines that stands before `i`. -/
def startBefore (marks : Array Bool) : Nat → Nat
  | 0 => 0
  | i + 1 => if isMarked marks i then startBefore marks i else i + 1

namespace Group

/-- The group at the start of the text. -/
def initial (marks : Array Bool) : Group := ⟨0, endFrom marks marks.size 0⟩

def isEmpty (g : Group) : Bool := g.first == g.stop

/-- The group behind the next unmarked line. -/
def next? (marks : Array Bool) (g : Group) : Option Group :=
  if g.stop < marks.size then
    some ⟨g.stop + 1, endFrom marks marks.size (g.stop + 1)⟩
  else none

/-- The group before the unmarked line that precedes this one. -/
def previous? (marks : Array Bool) (g : Group) : Option Group :=
  if g.first = 0 then none else some ⟨startBefore marks (g.first - 1), g.first - 1⟩

end Group

/-- The text and the marks of a side. -/
structure Side (α : Type) where
  lines : Array α
  marks : Array Bool

namespace Side

def sameLine (s : Side α) (i j : Nat) : Bool :=
  match s.lines[i]?, s.lines[j]? with
  | some x, some y => x == y
  | _, _ => false

/-- Moves a group up by one line, and joins it with the group that it then touches. -/
def slideUp? (s : Side α) (g : Group) : Option (Side α × Group) :=
  if 0 < g.first && s.sameLine (g.first - 1) (g.stop - 1) then
    let marks := (s.marks.setIfInBounds (g.first - 1) true).setIfInBounds (g.stop - 1) false
    some ({ s with marks }, ⟨startBefore marks (g.first - 1), g.stop - 1⟩)
  else none

/-- Moves a group down by one line, and joins it with the group that it then touches. -/
def slideDown? (s : Side α) (g : Group) : Option (Side α × Group) :=
  if g.stop < s.marks.size && s.sameLine g.first g.stop then
    let marks := (s.marks.setIfInBounds g.first false).setIfInBounds g.stop true
    some ({ s with marks }, ⟨g.first + 1, endFrom marks marks.size (g.stop + 1)⟩)
  else none

end Side

/-- The side that is compacted with the group in hand, and the group of the other side that stands
beside it. -/
structure Cursor (α : Type) where
  side : Side α
  group : Group
  beside : Group

namespace Cursor

/-- One step of a group upwards. -/
def up? (other : Array Bool) (c : Cursor α) : Option (Cursor α) := do
  let (side, group) ← c.side.slideUp? c.group
  return ⟨side, group, (c.beside.previous? other).getD c.beside⟩

/-- One step of a group downwards. -/
def down? (other : Array Bool) (c : Cursor α) : Option (Cursor α) := do
  let (side, group) ← c.side.slideDown? c.group
  return ⟨side, group, (c.beside.next? other).getD c.beside⟩

/-- A group as far up as it goes. -/
def top (other : Array Bool) : Nat → Cursor α → Cursor α
  | 0, c => c
  | fuel + 1, c =>
    match c.up? other with
    | some c => top other fuel c
    | none => c

/-- A group as far down as it goes, and whether a group of the other side stood beside it on the
way. -/
def bottom (other : Array Bool) : Nat → Bool → Cursor α → Cursor α × Bool
  | 0, met, c => (c, met)
  | fuel + 1, met, c =>
    let met := met || !c.beside.isEmpty
    match c.down? other with
    | some c => bottom other fuel met c
    | none => (c, met)

/-- Moves a group up and down until it meets no further group. The result is at the bottom, with the
end of the group at its top, and whether a group of the other side was met. -/
def settle (other : Array Bool) (size : Nat) : Nat → Cursor α → Cursor α × Nat × Bool
  | 0, c => (c, c.group.stop, false)
  | fuel + 1, c =>
    let length := c.group.stop - c.group.first
    let high := c.top other size
    let (low, met) := high.bottom other (size + 1) false
    if low.group.stop - low.group.first = length then (low, high.group.stop, met)
    else settle other size fuel low

/-- Moves a group up to the last place at which a group of the other side stands beside it. -/
def meetOther (other : Array Bool) : Nat → Cursor α → Cursor α
  | 0, c => c
  | fuel + 1, c =>
    if c.beside.isEmpty then
      match c.up? other with
      | some c => meetOther other fuel c
      | none => c
    else c

/-- Gives the group in hand its place. -/
def place (other : Array Bool) (c : Cursor α) : Cursor α :=
  if c.group.isEmpty then c
  else
    let size := c.side.marks.size
    let (low, highEnd, met) := c.settle other size (size + 1)
    if low.group.stop ≠ highEnd && met then low.meetOther other size else low

/-- Gives the group in hand and all groups behind it their places. -/
def placeAll (other : Array Bool) : Nat → Cursor α → Side α
  | 0, c => c.side
  | fuel + 1, c =>
    let c := c.place other
    match c.group.next? c.side.marks, c.beside.next? other with
    | some group, some beside => placeAll other fuel ⟨c.side, group, beside⟩
    | _, _ => c.side

end Cursor

/-- Gives every group of a side its place, given the marks of the other side. -/
def compact (lines : List α) (marks other : List Bool) : List Bool :=
  let side : Side α := ⟨lines.toArray, marks.toArray⟩
  let other := other.toArray
  let start : Cursor α := ⟨side, .initial side.marks, .initial other⟩
  (start.placeAll other (marks.length + 1)).marks.toList

end CoChange.Compaction
