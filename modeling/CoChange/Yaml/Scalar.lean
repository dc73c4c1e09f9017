import CoChange.Decimal.Literal
import CoChange.Binary64.Basic

/-!
# Scalars of YAML

What an unquoted scalar stands for, by the core rules of YAML 1.2: null, a truth value, an integer
in base ten, sixteen, eight or two, a floating point number, or else a text.
-/

namespace CoChange.Yaml

/-- What an unquoted scalar stands for. -/
inductive Scalar where
  | null
  | bool (value : Bool)
  | int (value : Int)
  /-- An integer that needs more than 64 bits. -/
  | wideInt
  | float (value : Binary64)
  | text
  deriving DecidableEq, Repr

namespace Scalar

/-- The value of a digit in a base of up to sixteen. -/
def digit? (base : Nat) (c : Char) : Option Nat :=
  let n := if c.isDigit then c.toNat - '0'.toNat
    else if 'a' ≤ c && c ≤ 'f' then c.toNat - 'a'.toNat + 10
    else if 'A' ≤ c && c ≤ 'F' then c.toNat - 'A'.toNat + 10
    else base
  if n < base then some n else none

/-- The number that digits stand for in a base; there has to be at least one digit. -/
def natOf? (base : Nat) (cs : List Char) : Option Nat :=
  if cs.isEmpty then none
  else cs.foldlM (fun n c => (digit? base c).map (base * n + ·)) 0

/-- The digits and the base of a number without sign. -/
def splitBase : List Char → Nat × List Char
  | '0' :: 'x' :: rest => (16, rest)
  | '0' :: 'o' :: rest => (8, rest)
  | '0' :: 'b' :: rest => (2, rest)
  | cs => (10, cs)

def splitSign : List Char → Bool × List Char
  | '-' :: rest => (true, rest)
  | '+' :: rest => (false, rest)
  | cs => (false, cs)

/-- Whether a scalar is made of digits but stands for no number: it starts with a superfluous
zero. -/
def isPaddedDigits (cs : List Char) : Bool :=
  match (splitSign cs).2 with
  | '0' :: c :: rest => (c :: rest).all Char.isDigit
  | _ => false

def int? (cs : List Char) : Option Int := do
  let (negative, rest) := splitSign cs
  let (base, digits) := splitBase rest
  if base = 10 && isPaddedDigits cs then none
  else
    let n ← natOf? base digits
    return if negative then -(n : Int) else n

/-- Whether an integer fits into 64 bits, with a sign if it is negative. -/
def fitsWord (z : Int) : Bool := -(2 ^ 63) ≤ z && z < 2 ^ 64

/-- Whether an integer fits into 128 bits, with a sign if it is negative. -/
def fitsWideWord (z : Int) : Bool := -(2 ^ 127) ≤ z && z < 2 ^ 128

def float? (cs : List Char) : Option Binary64 :=
  let positive := match cs with
    | '+' :: rest => rest
    | _ => cs
  if positive ∈ [".inf", ".Inf", ".INF"].map String.toList then some (.infinity false)
  else if cs ∈ ["-.inf", "-.Inf", "-.INF"].map String.toList then some (.infinity true)
  else if cs ∈ [".nan", ".NaN", ".NAN"].map String.toList then some .nan
  else if cs.head? = some '+' && (positive.head? = some '+' || positive.head? = some '-') then none
  else
    match Decimal.Literal.parse? positive with
    | some l =>
      let x := l.toBinary64
      if x.isFinite then some x else none
    | none => none

/-- What an unquoted scalar stands for. -/
def resolve (s : String) : Scalar :=
  let cs := s.toList
  if s ∈ ["", "~", "null", "Null", "NULL"] then null
  else if s ∈ ["true", "True", "TRUE"] then bool true
  else if s ∈ ["false", "False", "FALSE"] then bool false
  else
    match int? cs with
    | some z =>
      if fitsWord z then int z
      else if fitsWideWord z then wideInt
      else
        match float? cs with
        | some x => float x
        | none => text
    | none =>
      if isPaddedDigits cs then text
      else
        match float? cs with
        | some x => float x
        | none => text

/-- Whether a text has to be quoted so as not to stand for something else, or be taken for a number
by an older reader. -/
def needsQuotes (s : String) : Bool := resolve s != text || isPaddedDigits s.toList

end Scalar

end CoChange.Yaml
