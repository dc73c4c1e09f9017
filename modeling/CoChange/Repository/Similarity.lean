import CoChange.Repository.Content

/-!
# How similar two files are

Files are similar as far as they have lines in common, wherever these stand. Blanks in front of
lines, carriage returns and empty lines do not count; long lines are cut into parts.

* `Content.lineRuns`: the lines of a file, or parts of them.
* `Content.similarity?`: from 0 to 100; files with few lines can only be equal.
-/

namespace CoChange.Content

/-- The longest part of a line. -/
def longestRun : Nat := 80

/-- The number of lines from which on files can be similar. -/
def fewestRuns : Nat := 4

/-- Where in a line the next byte stands. -/
inductive LinePlace where
  /-- At the start, where blanks do not count. -/
  | start
  /-- Behind something that counts. -/
  | inside
  /-- Behind a part that has ended, with what the place is when no more ends of lines follow. -/
  | behind (starts : Bool)
  deriving DecidableEq, Repr

def endsLine (b : UInt8) : Bool := b = 0x0A || b = 0

/-- The parts of lines in bytes. `run` holds the bytes of the current part, the last first, and
`size` their number. -/
def runsFrom (place : LinePlace) (run : List UInt8) (size : Nat) : List UInt8 → List (List UInt8)
  | [] => if run.isEmpty then [] else [run]
  | b :: rest =>
    match place with
    | .behind starts =>
      if endsLine b then runsFrom place run size rest
      else if b = 0x0D || (starts && isBlankByte b) then
        runsFrom (if starts then .start else .inside) run size rest
      else runsFrom .inside [b] 1 rest
    | .start | .inside =>
      if b = 0x0D || (place = .start && b ≠ 0x0A && isBlankByte b) then runsFrom place run size rest
      else if endsLine b then
        let starts := b = 0x0A
        if run.isEmpty then runsFrom (if starts then .start else .inside) [] 0 rest
        else run :: runsFrom (.behind starts) [] 0 rest
      else if size + 1 = longestRun then (b :: run) :: runsFrom (.behind false) [] 0 rest
      else runsFrom .inside (b :: run) (size + 1) rest

/-- The lines of a file, the long ones in parts. -/
def lineRuns (content : FileContent) : List (List UInt8) := runsFrom .start [] 0 content

/-- The number of members that two lists have in common, each as often as both have it. -/
def commonCount [BEq α] : List α → List α → Nat
  | [], _ => 0
  | a :: as, bs => if bs.contains a then commonCount as (bs.erase a) + 1 else commonCount as bs

/-- The sizes beyond which files of very different sizes are not compared. -/
def smallSize : Nat := 127

/-- Whether the sizes of two files are too far apart. -/
def sizesDiffer (m n : Nat) : Bool := smallSize < m && smallSize < n && (8 * n < m || 8 * m < n)

/-- How similar two files are, in percent, if that can be told. -/
def similarity? (a b : FileContent) : Option Nat :=
  if a = b then some 100
  else if sizesDiffer a.length b.length then none
  else
    let as := lineRuns a
    let bs := lineRuns b
    if as.length < fewestRuns || bs.length < fewestRuns then none
    else some (100 * (2 * commonCount as bs) / (as.length + bs.length))

end CoChange.Content
