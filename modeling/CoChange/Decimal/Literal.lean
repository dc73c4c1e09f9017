import CoChange.Binary64.Basic

/-!
# Decimal literals

A literal is a run of digits with an optional point and an optional exponent. `Literal` keeps what a
text says exactly; turning it into a floating point number rounds once.
-/

namespace CoChange.Decimal

/-- The number that a run of decimal digits writes. -/
def ofDigits (cs : List Char) : Nat := cs.foldl (fun n c => 10 * n + (c.toNat - '0'.toNat)) 0

/-- Cuts off the decimal digits that a text starts with. -/
def spanDigits (cs : List Char) : List Char × List Char := cs.span Char.isDigit

/-- `± digits * 10 ^ exponent`, as a text writes it. -/
structure Literal where
  negative : Bool
  digits : Nat
  exponent : Int
  deriving DecidableEq, Repr

/-- The nearest floating point number. -/
def Literal.toBinary64 (l : Literal) : Binary64 :=
  .ofDecimal l.negative l.digits l.exponent

/-- Builds the literal with the given digits before and behind the point. -/
def Literal.ofParts (negative : Bool) (whole fraction : List Char) (exponent : Int) : Literal :=
  ⟨negative, ofDigits (whole ++ fraction), exponent - fraction.length⟩

/-- Reads what may follow the digits: `e` or `E`, a sign and at least one digit. A text without an
exponent mark has exponent zero; a mark without digits is refused. -/
def exponent? : List Char → Option (Int × List Char)
  | c :: rest =>
    if c = 'e' ∨ c = 'E' then
      let (negative, rest) := match rest with
        | '-' :: r => (true, r)
        | '+' :: r => (false, r)
        | r => (false, r)
      match spanDigits rest with
      | ([], _) => none
      | (ds, rest) => some (if negative then -(ofDigits ds : Int) else ofDigits ds, rest)
    else some (0, c :: rest)
  | [] => some (0, [])

/-- Reads a whole text as a literal: an optional sign, digits on at least one side of an optional
point, an optional exponent. -/
def Literal.parse? (cs : List Char) : Option Literal := do
  let (negative, cs) := match cs with
    | '-' :: r => (true, r)
    | '+' :: r => (false, r)
    | r => (false, r)
  let (whole, rest) := spanDigits cs
  let (fraction, rest) := match rest with
    | '.' :: r => spanDigits r
    | r => ([], r)
  guard (!whole.isEmpty || !fraction.isEmpty)
  let (exponent, rest) ← exponent? rest
  guard rest.isEmpty
  return .ofParts negative whole fraction exponent

end CoChange.Decimal
