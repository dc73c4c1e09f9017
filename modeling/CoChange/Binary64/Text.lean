import CoChange.Binary64.Basic
import CoChange.Decimal.Shortest

/-!
# Written forms of floating point numbers

Two forms are in use. `NumberStyle.render` writes the shortest decimal that reads back; a
`NumberStyle` holds the decisions of one output format: where positional notation ends and how the
exponent, an integral value and the non-finite values are written. `renderFixed` writes a given
number of decimal places of the exact value, a half going to the even neighbour.
-/

namespace CoChange

/-- How one output format writes a floating point number. -/
structure NumberStyle where
  /-- The place of the leading digit from which on, downwards, an exponent is written. -/
  leastPositional : Option Int
  /-- The place of the leading digit from which on, upwards, an exponent is written. -/
  greatestPositional : Option Int
  /-- Whether an integral value in positional notation ends in `.0`. -/
  pointZero : Bool
  /-- Whether an exponent that is not negative has a plus sign. -/
  plusExponent : Bool
  nan : String
  infinity : String
  negativeInfinity : String

namespace NumberStyle

/-- Numbers of a JSON document: positional from `1e-5` up to `1e16`. -/
def json : NumberStyle := ⟨some (-6), some 16, true, true, "null", "null", "null"⟩

/-- Numbers of a YAML document: as in JSON, but the exponent has no plus sign. -/
def yaml : NumberStyle := ⟨some (-6), some 16, true, false, ".nan", ".inf", "-.inf"⟩

/-- Numbers in settings and messages: never an exponent, no `.0`. -/
def plain : NumberStyle := ⟨none, none, false, false, "NaN", "inf", "-inf"⟩

/-- Writes `d * 10 ^ exponent` without an exponent. -/
def positional (style : NumberStyle) (digits : List Char) (exponent : Int) : List Char :=
  match exponent with
  | .ofNat n => digits ++ List.replicate n '0' ++ if style.pointZero then ['.', '0'] else []
  | .negSucc n =>
    let places := n + 1
    if places < digits.length then
      digits.take (digits.length - places) ++ '.' :: digits.drop (digits.length - places)
    else '0' :: '.' :: (List.replicate (places - digits.length) '0' ++ digits)

/-- Writes the digits with a point behind the first one and the exponent of that digit. -/
def scientific (style : NumberStyle) (digits : List Char) (lead : Int) : List Char :=
  let mantissa := match digits with
    | [] => []
    | [d] => [d]
    | d :: rest => d :: '.' :: rest
  let sign := if lead < 0 then ['-'] else if style.plusExponent then ['+'] else []
  mantissa ++ 'e' :: (sign ++ Nat.toDigits 10 lead.natAbs)

/-- Whether the leading digit stands at a place that is written without an exponent. -/
def isPositional (style : NumberStyle) (lead : Int) : Bool :=
  (match style.leastPositional with | some low => low < lead | none => true) &&
  (match style.greatestPositional with | some high => lead < high | none => true)

/-- The shortest text in this style that reads back as `x`. -/
def render (style : NumberStyle) (x : Binary64) : String :=
  match x.view with
  | .nan => style.nan
  | .infinite false => style.infinity
  | .infinite true => style.negativeInfinity
  | .finite negative m e =>
    let body :=
      if m = 0 then style.positional ['0'] 0
      else
        let s := Decimal.shortest m e
        let digits := Nat.toDigits 10 s.digits
        -- the place of the leading digit
        let lead := s.exponent + digits.length - 1
        if style.isPositional lead then style.positional digits s.exponent
        else style.scientific digits lead
    String.ofList (if negative then '-' :: body else body)

end NumberStyle

namespace Binary64

/-- The exact value with `places` decimal places, a half going to the even neighbour. The sign of a
negative number stays also where it is rounded to zero. -/
def renderFixed (places : Nat) (x : Binary64) : String :=
  match x.view with
  | .nan => "NaN"
  | .infinite false => "inf"
  | .infinite true => "-inf"
  | .finite negative m e =>
    let (num, den) := Decimal.scaleRatio 2 e (m * 10 ^ places) 1
    let digits := Nat.toDigits 10 (Decimal.roundDiv num den)
    let digits := List.replicate (places + 1 - digits.length) '0' ++ digits
    let whole := digits.take (digits.length - places)
    let fraction := digits.drop (digits.length - places)
    let body := if places = 0 then whole else whole ++ '.' :: fraction
    String.ofList (if negative then '-' :: body else body)

end Binary64

end CoChange
