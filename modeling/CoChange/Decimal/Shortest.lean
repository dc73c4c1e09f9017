import CoChange.Decimal.Rounding

/-!
# The shortest decimal that reads back

A finite binary number stands for every real that rounds to it: an interval around it, whose ends
belong to it exactly when the significand is even. `shortest` finds a decimal in that interval with
as few digits as possible and, among those, the nearest to the number. Only the two neighbours of
the number on each decimal grid have to be looked at, because if any point of a grid lies in the
interval then so does one of them.
-/

namespace CoChange.Decimal

structure Scaled where
  digits : Nat
  exponent : Int
  deriving DecidableEq, Repr

/-- The reals that round to `m * 2 ^ e`, over the common denominator `den`. -/
structure RoundingInterval where
  low : Nat
  value : Nat
  high : Nat
  den : Nat
  closed : Bool

/-- The interval of `m * 2 ^ e`. Below a power of two the numbers lie twice as dense, unless the
exponent is already the least. -/
def RoundingInterval.ofBinary (m : Nat) (e : Int) : RoundingInterval :=
  let quarter : Nat × Nat := scaleRatio 2 (e - 2) 1 1
  let below := if m = 2 ^ 52 ∧ -1074 < e then 1 else 2
  { low := (4 * m - below) * quarter.1
    value := 4 * m * quarter.1
    high := (4 * m + 2) * quarter.1
    den := quarter.2
    closed := m % 2 = 0 }

/-- Whether the grid point `d * 10 ^ k` lies in the interval. -/
def RoundingInterval.containsPoint (r : RoundingInterval) (d : Nat) (k : Int) : Bool :=
  let (num, den) := scaleRatio 10 k (d * r.den) 1
  let low := r.low * den
  let high := r.high * den
  if r.closed then low ≤ num ∧ num ≤ high else low < num ∧ num < high

/-- The better of the two neighbours of the value on the grid of step `10 ^ k`, if one lies in the
interval. Of two equally near ones the even one is taken. -/
def RoundingInterval.neighbour? (r : RoundingInterval) (k : Int) : Option Nat :=
  let (num, den) := scaleRatio 10 (-k) r.value r.den
  let lower := num / den
  let near := roundDiv num den
  let far := if near = lower then lower + 1 else lower
  if near ≠ 0 ∧ r.containsPoint near k then some near
  else if far ≠ 0 ∧ r.containsPoint far k then some far
  else none

def digitCount (n : Nat) : Nat := (Nat.toDigits 10 n).length

/-- The position of the leading digit of `num / den`: the largest `k` with `10 ^ k ≤ num / den`. -/
def leadingPlace (num den : Nat) : Int :=
  if den ≤ num then (digitCount (num / den) : Int) - 1
  else
    let guess : Int := -(digitCount (den / num) : Int)
    let (n, d) := scaleRatio 10 (-guess - 1) num den
    if d ≤ n then guess + 1 else guess

/-- Removes trailing zeros of the digits, at most `fuel` of them. -/
def Scaled.strip : Nat → Scaled → Scaled
  | 0, s => s
  | fuel + 1, s =>
    if s.digits ≠ 0 ∧ s.digits % 10 = 0 then
      Scaled.strip fuel ⟨s.digits / 10, s.exponent + 1⟩
    else s

/-- The shortest decimal for `m * 2 ^ e`, `m` not zero: the first grid, from coarse to fine, with a
neighbour in the interval. Seventeen digits always suffice. -/
def shortest (m : Nat) (e : Int) : Scaled :=
  let r := RoundingInterval.ofBinary m e
  let lead := leadingPlace r.value r.den
  let grids := (List.range 18).map fun (n : Nat) => lead + 1 - (n : Int)
  match grids.findSome? fun k => (r.neighbour? k).map (Scaled.mk · k) with
  | some s => s.strip 20
  | none => ⟨0, 0⟩

end CoChange.Decimal
