import CoChange.Arithmetic

/-!
# Rounding a quotient

`roundDiv num den` is the integer nearest to `num / den`; of two equally near ones it is the even
one. Every rounding of the library, binary or decimal, goes through this function.
-/

namespace CoChange.Decimal

/-- The integer nearest to `num / den`, a half going to the even neighbour. -/
def roundDiv (num den : Nat) : Nat :=
  let q := num / den
  let r := num % den
  if 2 * r < den then q
  else if den < 2 * r then q + 1
  else q + q % 2

/-- `roundDiv` is off by at most half a unit. -/
theorem two_mul_roundDiv_le (num den : Nat) (h : 0 < den) :
    2 * num ≤ 2 * (den * roundDiv num den) + den ∧
      2 * (den * roundDiv num den) ≤ 2 * num + den := by
  have hdiv := Nat.div_add_mod num den
  have hmod := Nat.mod_lt num h
  have hsucc : den * (num / den + 1) = den * (num / den) + den := Nat.mul_succ ..
  unfold roundDiv
  rcases Nat.mod_two_eq_zero_or_one (num / den) with hpar | hpar <;> grind

/-- A quotient without remainder is kept. -/
theorem roundDiv_mul_self (q den : Nat) (h : 0 < den) : roundDiv (q * den) den = q := by
  unfold roundDiv
  simp [Nat.mul_div_cancel q h, h]

/-- `10 ^ n` in the numerator when `n` is an exponent to add, in the denominator otherwise. -/
def scaleRatio (base : Nat) (exponent : Int) (num den : Nat) : Nat × Nat :=
  match exponent with
  | .ofNat n => (num * base ^ n, den)
  | .negSucc n => (num, den * base ^ (n + 1))

end CoChange.Decimal
