import CoChange.Decimal.Rounding

/-!
# Binary floating point numbers of 64 bits

A `Binary64` is its bit pattern: a sign, eleven bits of exponent and fifty-two of fraction. The
arithmetic is carried out on exact ratios of natural numbers and rounded once at the end, to the
nearest representable number with ties to the even significand, so each operation has a meaning that
proofs can compute with.

* `Binary64.view`: what a bit pattern stands for.
* `Binary64.ofRatio`: the number nearest to a ratio.
* `add`, `mul`, `div`: the rounded operations, with infinities and NaN as usual.
-/

namespace CoChange

/-- A floating point number, as its bit pattern. -/
structure Binary64 where
  bits : UInt64
  deriving DecidableEq, Repr, Inhabited

namespace Binary64

/-- What a bit pattern stands for; a finite number is `± significand * 2 ^ exponent`. -/
inductive View where
  | nan
  | infinite (negative : Bool)
  | finite (negative : Bool) (significand : Nat) (exponent : Int)
  deriving DecidableEq, Repr

def negative (x : Binary64) : Bool := 2 ^ 63 ≤ x.bits.toNat

def exponentField (x : Binary64) : Nat := x.bits.toNat / 2 ^ 52 % 2 ^ 11

def fractionField (x : Binary64) : Nat := x.bits.toNat % 2 ^ 52

/-- Reads the three fields. An exponent of all ones is an infinity or a NaN, one of all zeros has no
implicit leading bit. -/
def view (x : Binary64) : View :=
  if x.exponentField = 2047 then
    if x.fractionField = 0 then .infinite x.negative else .nan
  else if x.exponentField = 0 then .finite x.negative x.fractionField (-1074)
  else .finite x.negative (2 ^ 52 + x.fractionField) (x.exponentField - 1075)

def isFinite (x : Binary64) : Bool := x.exponentField ≠ 2047

def isZero (x : Binary64) : Bool := x.exponentField = 0 && x.fractionField = 0

def isNaN (x : Binary64) : Bool := x.exponentField = 2047 && x.fractionField ≠ 0

/-- The number whose magnitude has the given pattern. -/
def ofMagnitude (negative : Bool) (magnitude : Nat) : Binary64 :=
  ⟨.ofNat (magnitude + if negative then 2 ^ 63 else 0)⟩

def infinity (negative : Bool) : Binary64 := ofMagnitude negative (2047 * 2 ^ 52)

def zero (negative : Bool) : Binary64 := ofMagnitude negative 0

def nan : Binary64 := ofMagnitude false (2047 * 2 ^ 52 + 2 ^ 51)

/-- The exponent of the last place of a number near `num / den`: fifty-three significant bits, but
never below the least exponent there is. -/
def lastPlace (num den : Nat) : Int :=
  let guess : Int := (Nat.log2 num : Int) - Nat.log2 den - 52
  let (n, d) := Decimal.scaleRatio 2 (-guess) num den
  max (if n / d < 2 ^ 52 then guess - 1 else guess) (-1074)

/-- The number nearest to `num / den` (with `den` not zero), ties to even. What is too large becomes
infinite. A significand rounded up to the next power of two carries into the exponent by itself,
because the fields are adjacent. -/
def ofRatio (negative : Bool) (num den : Nat) : Binary64 :=
  if num = 0 then zero negative
  else
    let exponent := lastPlace num den
    let (n, d) := Decimal.scaleRatio 2 (-exponent) num den
    let significand := Decimal.roundDiv n d
    let magnitude :=
      if significand < 2 ^ 52 then significand
      else (exponent + 1074).toNat * 2 ^ 52 + significand
    if 2047 * 2 ^ 52 ≤ magnitude then infinity negative else ofMagnitude negative magnitude

/-- The number nearest to a natural number. -/
def ofNat (n : Nat) : Binary64 := ofRatio false n 1

/-- The number nearest to `± digits * 10 ^ exponent`. Exponents far outside the range are decided
without computing the power. -/
def ofDecimal (negative : Bool) (digits : Nat) (exponent : Int) : Binary64 :=
  if digits = 0 then zero negative
  else
    let magnitude := (Nat.log2 digits : Int) / 4 + exponent
    if 400 < magnitude then infinity negative
    else if (Nat.log2 digits : Int) + exponent < -400 then zero negative
    else
      let (num, den) := Decimal.scaleRatio 10 exponent digits 1
      ofRatio negative num den

/-- The rounded sum. A sum that is exactly zero is negative only if both terms are. -/
def add (x y : Binary64) : Binary64 :=
  match x.view, y.view with
  | .nan, _ | _, .nan => nan
  | .infinite s, .infinite t => if s = t then infinity s else nan
  | .infinite s, _ => infinity s
  | _, .infinite t => infinity t
  | .finite s m e, .finite t n f =>
    -- both significands in units of the lower last place
    let low := min e f
    let a := m * 2 ^ (e - low).toNat
    let b := n * 2 ^ (f - low).toNat
    let (negative, magnitude) :=
      if s = t then (s, a + b)
      else if a < b then (t, b - a)
      else if b < a then (s, a - b)
      else (false, 0)
    let (num, den) := Decimal.scaleRatio 2 low magnitude 1
    ofRatio negative num den

def mul (x y : Binary64) : Binary64 :=
  match x.view, y.view with
  | .nan, _ | _, .nan => nan
  | .infinite s, .infinite t => infinity (s != t)
  | .infinite s, .finite t n _ => if n = 0 then nan else infinity (s != t)
  | .finite s m _, .infinite t => if m = 0 then nan else infinity (s != t)
  | .finite s m e, .finite t n f =>
    let (num, den) := Decimal.scaleRatio 2 (e + f) (m * n) 1
    ofRatio (s != t) num den

def div (x y : Binary64) : Binary64 :=
  match x.view, y.view with
  | .nan, _ | _, .nan => nan
  | .infinite _, .infinite _ => nan
  | .infinite s, .finite t _ _ => infinity (s != t)
  | .finite s _ _, .infinite t => zero (s != t)
  | .finite s m e, .finite t n f =>
    if n = 0 then (if m = 0 then nan else infinity (s != t))
    else
      let (num, den) := Decimal.scaleRatio 2 (e - f) m n
      ofRatio (s != t) num den

instance : Add Binary64 := ⟨add⟩
instance : Mul Binary64 := ⟨mul⟩
instance : Div Binary64 := ⟨div⟩

/-- The integral part of a finite number that is not negative. -/
def floor? (x : Binary64) : Option Nat :=
  match x.view with
  | .finite false m e =>
    let (num, den) := Decimal.scaleRatio 2 e m 1
    some (num / den)
  | .finite true 0 _ => some 0
  | _ => none

end Binary64

end CoChange
