import CoChange.Arithmetic

/-!
# Numbers in texts

Natural numbers below 2^64, as users write them: digits, with a plus sign in front if they like.
-/

namespace CoChange.Text

/-- Why a text is not a number. -/
inductive NumberFault where
  | empty
  | badDigit
  | tooLarge
  deriving DecidableEq, Repr

def NumberFault.message : NumberFault → String
  | empty => "cannot parse integer from empty string"
  | badDigit => "invalid digit found in string"
  | tooLarge => "number too large to fit in target type"

/-- Reads digits from left to right; the first fault counts. -/
def readDigits (n : Nat) : List Char → Except NumberFault Nat
  | [] => .ok n
  | c :: rest =>
    if !c.isDigit then .error .badDigit
    else
      let n := 10 * n + (c.toNat - '0'.toNat)
      if n < 2 ^ 64 then readDigits n rest else .error .tooLarge

def parseNumber (s : String) : Except NumberFault Nat :=
  match s.toList with
  | [] => .error .empty
  | ['+'] => .error .badDigit
  | '+' :: rest => readDigits 0 rest
  | cs => readDigits 0 cs

end CoChange.Text
