import CoChange.Binary64.Text
import CoChange.Decimal.Literal
import CoChange.Text.Blank
import CoChange.Text.Case

/-!
# Sizes in bytes

A size is written as a decimal number and a unit (`512MB`, `0.5 g`, `4096`); units are powers of
1024. `ByteSize.parse` reads one, in either case and with blanks around and between its parts;
`ByteSize.format` writes a number of bytes in the largest unit that leaves at least one.
-/

namespace CoChange.ByteSize

/-- Why a text is not a size. -/
inductive ParseError where
  | invalidFormat (input : String)
  | invalidUnit (unit : String)
  | invalidValue (value : String)
  | tooLarge (size : Binary64)
  deriving DecidableEq, Repr

def ParseError.message : ParseError → String
  | .invalidFormat input =>
    "Invalid memory size format: '" ++ input ++
      "'. Expected something like '512MB', '1GB' or '2048K'"
  | .invalidUnit unit =>
    "Invalid memory unit: '" ++ unit ++
      "'. Supported units: B, K, M, G, T (optionally followed by B or iB)"
  | .invalidValue value =>
    "Invalid memory value: '" ++ value ++ "'. Must be a non-negative number"
  | .tooLarge size => "Memory size too large: " ++ NumberStyle.plain.render size ++ " bytes"

/-- The letters of the units, each 1024 times the one before. -/
def unitLetters : List Char := ['B', 'K', 'M', 'G', 'T']

/-- Whether a text ends in the given characters, and if so what stands before them. -/
def dropEnd? (ending cs : List Char) : Option (List Char) :=
  if ending.isSuffixOf cs then some (cs.take (cs.length - ending.length)) else none

/-- The letter of a unit in upper case: `IB` is dropped from its end, or a `B` that is not the whole
unit. -/
def unitStem (unit : List Char) : List Char :=
  match dropEnd? ['I', 'B'] unit with
  | some stem => stem
  | none =>
    match dropEnd? ['B'] unit with
    | some (c :: stem) => c :: stem
    | _ => unit

/-- The power of 1024 that a unit in upper case stands for. -/
def unitPower? (unit : List Char) : Option Nat :=
  if unit = [] ∨ unit = ['B', 'Y', 'T', 'E', 'S'] then some 0
  else
    match unitStem unit with
    | [c] => unitLetters.idxOf? c
    | _ => none

/-- Characters of the number in front of the unit. -/
def isNumberChar (c : Char) : Bool := c.isDigit || c = '.'

/-- Reads a size. The number is rounded to a floating point number first; its product with the unit
loses the fraction of a byte. -/
def parse (input : String) : Except ParseError Nat := do
  let trimmed := Text.trim input.toList
  let (number, unit) := (Text.toUpper trimmed).span isNumberChar
  if number.isEmpty then
    if trimmed.head? = some '-' then throw (.invalidValue (String.ofList trimmed))
    else throw (.invalidFormat input)
  let some literal := Decimal.Literal.parse? number | throw (.invalidFormat input)
  let unit := Text.trim unit
  let some power := unitPower? unit | throw (.invalidUnit (String.ofList unit))
  let size := literal.toBinary64 * Binary64.ofNat (1024 ^ power)
  match size.floor? with
  | some bytes => if bytes < 2 ^ 64 then return bytes else throw (.tooLarge size)
  | none => throw (.tooLarge size)

/-- The nearest natural number that a floating point number holds exactly: fifty-three significant
bits, ties to even. -/
def roundToDouble (n : Nat) : Nat :=
  if n < 2 ^ 53 then n
  else
    let unit := 2 ^ (Nat.log2 n - 52)
    Decimal.roundDiv n unit * unit

/-- The power of 1024 of the unit that a size is written in. -/
def displayPower (n : Nat) : Nat :=
  if n < 1024 then 0 else if n < 1024 ^ 2 then 1 else if n < 1024 ^ 3 then 2
  else if n < 1024 ^ 4 then 3 else 4

/-- `tenths / 10` with one decimal place. -/
def renderTenths (tenths : Nat) : String := toString (tenths / 10) ++ "." ++ toString (tenths % 10)

/-- The name of a unit. -/
def unitLabel : Nat → String
  | 0 => "B"
  | 1 => "KB"
  | 2 => "MB"
  | 3 => "GB"
  | _ => "TB"

/-- Writes a number of bytes: in full where it is a multiple of the unit, with one decimal place
otherwise. -/
def format (bytes : Nat) : String :=
  let n := roundToDouble bytes
  let power := displayPower n
  let unit := 1024 ^ power
  let amount :=
    if n % unit = 0 then toString (n / unit) else renderTenths (Decimal.roundDiv (10 * n) unit)
  amount ++ " " ++ unitLabel power

/-- Writes a memory limit: whole megabytes, or gigabytes with one decimal place from one on. -/
def formatLimit (bytes : Nat) : String :=
  let megabytes := bytes / 1024 ^ 2
  if 1024 ≤ megabytes then
    renderTenths (Decimal.roundDiv (10 * roundToDouble megabytes) 1024) ++ " GB"
  else toString megabytes ++ " MB"

end CoChange.ByteSize
