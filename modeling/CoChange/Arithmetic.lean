/-!
# Powers and sums

The library counts in plain numbers, and the programs need nothing beyond core to do so. Theorems
about them use Mathlib, which has its own powers and its own zero. In this namespace those of core
come first, so that a power or a sum is the same term in a program and in a statement about it.

For the same reason a property of the characters of a text is decided along the text, and not by
trying out every character that there is.
-/

namespace CoChange

@[default_instance 20000]
scoped instance (priority := 2000) intPow : Pow Int Nat := instPowNat

-- Behind `intPow`, so that a power of a bare numeral is a natural number.
@[default_instance 20000]
scoped instance (priority := 2000) natPow : Pow Nat Nat := instPowNat

scoped instance (priority := 2000) natZero : Zero Nat := Zero.ofOfNat0

scoped instance (priority :=
  2000) decidableForallMem (cs : List Char) (p : Char → Prop) [DecidablePred p] :
    Decidable (∀ c ∈ cs, p c) :=
  List.decidableBAll p cs

end CoChange
