import CoChange.Decimal.Literal
import Mathlib.Data.List.TakeWhile
import Mathlib.Data.Nat.Digits.Lemmas

/-!
# Texts are read back

What all readers of texts build upon:

* **`fromUTF8?_toUTF8`**: the bytes of a text are read back as the text.
* **`Decimal.ofDigits_toDigits`**, **`Decimal.spanDigits_append`**: the digits of a number are read
  back as the number, and end where something else than a digit follows.

`ok_bind` is the step of a reader that goes on from what was read, and `span_append_stops` what a
reader of all characters of a kind takes.
-/

namespace CoChange

theorem ok_bind {ε α β : Type} (a : α) (f : α → Except ε β) : (Except.ok a >>= f) = f a := rfl

/-- A computation on a state goes on with what came before. -/
theorem bind_of_ok {ε σ α β : Type} {x : StateT σ (Except ε) α} {f : α → StateT σ (Except ε) β}
    {a : α} {s s' : σ} (h : x s = .ok (a, s')) : (x >>= f) s = f a s' := by
  show (x s >>= fun p => f p.1 p.2) = _
  rw [h, ok_bind]

theorem error_bind {ε α β : Type} (err : ε) (f : α → Except ε β) :
    (Except.error err >>= f) = Except.error err := rfl

/-- Both steps of what succeeds succeed. -/
theorem bind_eq_ok_iff {ε α β : Type} {x : Except ε α} {f : α → Except ε β} {b : β} :
    (x >>= f) = .ok b ↔ ∃ a, x = .ok a ∧ f a = .ok b := by
  cases x with
  | error err => simp [error_bind]
  | ok a => simp [ok_bind]

theorem mapError_eq_ok_iff {ε ε' α : Type} {x : Except ε α} {f : ε → ε'} {a : α} :
    x.mapError f = .ok a ↔ x = .ok a := by
  cases x <;> simp [Except.mapError]

/-! ## The bytes of a text -/

/-- The bytes of an array one by one are those that it is made of. The induction is on what is left
from a position. -/
theorem toList_byteArray (bytes : ByteArray) : bytes.toList = bytes.data.toList := by
  have hloop : ∀ n i acc, bytes.size - i = n →
      ByteArray.toList.loop bytes i acc = acc.reverse ++ bytes.data.toList.drop i := by
    intro n
    -- on the bytes that are left
    induction n with
    | zero =>
      intro i acc h
      rw [ByteArray.toList.loop, if_neg (by omega), List.drop_eq_nil_of_le, List.append_nil]
      rw [Array.length_toList]
      exact Nat.le_of_sub_eq_zero h
    | succ n ih =>
      intro i acc h
      have hi : i < bytes.data.toList.length := by
        rw [Array.length_toList]
        show i < bytes.size
        omega
      have hget : bytes.get! i = bytes.data.toList[i] := by
        rw [Array.getElem_toList]
        exact getElem!_pos bytes.data i _
      rw [ByteArray.toList.loop, if_pos (by omega), ih (i + 1) _ (by omega),
        List.drop_eq_getElem_cons hi, List.reverse_cons, List.append_assoc, hget]
      rfl
  exact hloop bytes.size 0 [] rfl

/-- **The bytes of a text are read back as the text.** The bytes go through a list and back, which
changes nothing about them. -/
theorem fromUTF8?_toUTF8 (s : String) : String.fromUTF8? ⟨s.toUTF8.toList.toArray⟩ = some s := by
  have hbytes : (⟨s.toUTF8.toList.toArray⟩ : ByteArray) = s.toUTF8 := by
    rw [toList_byteArray]
  rw [hbytes, String.fromUTF8?, String.toUTF8_eq_toByteArray, dif_pos s.isValidUTF8]
  rfl

theorem length_toUTF8 (s : String) : s.toUTF8.toList.length = s.utf8ByteSize := by
  rw [toList_byteArray]
  exact Array.length_toList

/-! ## Characters of a kind -/

/-- What does not begin with a character of a kind. -/
def Stops (p : Char → Bool) (cs : List Char) : Prop := ∀ c ∈ cs.head?, p c = false

section Stops

variable {p : Char → Bool} {cs rest : List Char}

/-- What is taken off the front of a text ends where the rest stops it. -/
theorem takeWhile_append_stops (hcs : ∀ c ∈ cs, p c = true) (hrest : Stops p rest) :
    (cs ++ rest).takeWhile p = cs := by
  rw [List.takeWhile_append_of_pos hcs]
  cases rest with
  | nil => simp
  | cons c rest => rw [List.takeWhile_cons_of_neg (by simp [hrest c rfl]), List.append_nil]

/-- What is dropped off the front of a text ends where the rest stops it. -/
theorem dropWhile_append_stops (hcs : ∀ c ∈ cs, p c = true) (hrest : Stops p rest) :
    (cs ++ rest).dropWhile p = rest := by
  rw [List.dropWhile_append_of_pos hcs]
  cases rest with
  | nil => rfl
  | cons c rest => rw [List.dropWhile_cons_of_neg (by simp [hrest c rfl])]

/-- **Characters of a kind end where something else follows.** So what was written can be taken off
again, whatever is written behind it. -/
theorem span_append_stops (hcs : ∀ c ∈ cs, p c = true) (hrest : Stops p rest) :
    (cs ++ rest).span p = (cs, rest) := by
  rw [List.span_eq_takeWhile_dropWhile, takeWhile_append_stops hcs hrest,
    dropWhile_append_stops hcs hrest]

end Stops

/-! ## The digits of a number -/

namespace Decimal

theorem toList_toString (n : Nat) : (toString n).toList = Nat.toDigits 10 n := by
  rw [Nat.toString_eq_ofList_toDigits, String.toList_ofList]

theorem toString_ne_empty (n : Nat) : toString n ≠ "" := by
  intro h
  have hdigits := toList_toString n
  rw [h] at hdigits
  exact Nat.toDigits_ne_nil hdigits.symm

theorem ofDigits_eq (cs : List Char) : ofDigits cs = Nat.ofDigitChars 10 cs 0 :=
  Nat.ofDigitChars_eq_foldl.symm

theorem ofDigits_toDigits (n : Nat) : ofDigits (Nat.toDigits 10 n) = n := by
  rw [ofDigits_eq, Nat.ofDigitChars_ten_toDigits]

/-- **A number can be told from its digits.** Its digits are read back as the number, so no two
numbers share them. -/
theorem toString_inj {m n : Nat} : toString m = toString n ↔ m = n := by
  refine ⟨fun h => ?_, congrArg toString⟩
  rw [← ofDigits_toDigits m, ← toList_toString, h, toList_toString, ofDigits_toDigits]

/-- Zeros in front of a number do not change it. -/
theorem ofDigits_replicate_append (k : Nat) (cs : List Char) :
    ofDigits (List.replicate k '0' ++ cs) = ofDigits cs := by
  rw [ofDigits_eq, ofDigits_eq, Nat.ofDigitChars_append, Nat.ofDigitChars_replicate_zero,
    Nat.mul_zero]

theorem isDigit_toDigits (n : Nat) : ∀ c ∈ Nat.toDigits 10 n, c.isDigit = true :=
  fun _ => Nat.isDigit_of_mem_toDigits (by decide) (by decide)

theorem not_mem_toDigits {c : Char} (h : c.isDigit = false) (n : Nat) : c ∉ Nat.toDigits 10 n :=
  fun hc => Bool.false_ne_true (h.symm.trans (isDigit_toDigits n c hc))

/-- Only zero begins with the digit zero. -/
theorem head?_toDigits {n : Nat} (h : (Nat.toDigits 10 n).head? = some '0') : n = 0 := by
  induction n using Nat.strongRecOn with
  | ind n ih =>
    by_cases hn : n < 10
    · rw [Nat.toDigits_of_lt_base hn, List.head?_cons, Option.some.injEq] at h
      interval_cases n <;> first | rfl | exact absurd h (by decide)
    · have hquot : n / 10 = 0 := by
        refine ih (n / 10) (by omega) ?_
        rw [Nat.toDigits_of_base_le (by decide) (by omega)] at h
        rwa [List.head?_append_of_ne_nil _ Nat.toDigits_ne_nil] at h
      omega

/-- What begins with something else than a digit. -/
def NoDigit (cs : List Char) : Prop := ∀ c ∈ cs.head?, c.isDigit = false

theorem takeWhile_digits {ds rest : List Char} (hds : ∀ c ∈ ds, c.isDigit = true)
    (hrest : NoDigit rest) : (ds ++ rest).takeWhile Char.isDigit = ds :=
  takeWhile_append_stops hds hrest

theorem dropWhile_digits {ds rest : List Char} (hds : ∀ c ∈ ds, c.isDigit = true)
    (hrest : NoDigit rest) : (ds ++ rest).dropWhile Char.isDigit = rest :=
  dropWhile_append_stops hds hrest

/-- **The digits of a number end where something else follows.** So a written number can be taken
off again. -/
theorem spanDigits_append {ds rest : List Char} (hds : ∀ c ∈ ds, c.isDigit = true)
    (hrest : NoDigit rest) : spanDigits (ds ++ rest) = (ds, rest) :=
  span_append_stops hds hrest

end Decimal

end CoChange
