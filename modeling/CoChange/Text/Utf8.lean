/-!
# Bytes as text

Bytes that are not UTF-8 are read as text all the same: each maximal part that no character starts
or continues with becomes one replacement character.
-/

namespace CoChange.Text

/-- A character of which some bytes have been read. -/
structure PartialChar where
  /-- The bits so far. -/
  bits : Nat
  /-- The bounds of the next byte. -/
  low : UInt8
  high : UInt8
  /-- The bytes still to come behind the next one. -/
  more : Nat

/-- What stands for bytes that are no text. -/
def replacement : Char := Char.ofNat 0xFFFD

/-- What a byte starts: a character of one byte, a longer one, or nothing. The bounds leave out
forms that are too long, surrogates, and what lies beyond the last character. -/
def startChar (b : UInt8) : Option (Char ⊕ PartialChar) :=
  let part (mask : UInt8) (low high : UInt8) (more : Nat) : Option (Char ⊕ PartialChar) :=
    some (.inr ⟨(b &&& mask).toNat, low, high, more⟩)
  if b < 0x80 then some (.inl (Char.ofNat b.toNat))
  else if b < 0xC2 then none
  else if b < 0xE0 then part 0x1F 0x80 0xBF 0
  else if b = 0xE0 then part 0x0F 0xA0 0xBF 1
  else if b = 0xED then part 0x0F 0x80 0x9F 1
  else if b < 0xF0 then part 0x0F 0x80 0xBF 1
  else if b = 0xF0 then part 0x07 0x90 0xBF 2
  else if b < 0xF4 then part 0x07 0x80 0xBF 2
  else if b = 0xF4 then part 0x07 0x80 0x8F 2
  else none

/-- What a byte completes or carries on, if it fits. -/
def PartialChar.add? (p : PartialChar) (b : UInt8) : Option (Char ⊕ PartialChar) :=
  if p.low ≤ b && b ≤ p.high then
    let bits := p.bits * 64 + (b &&& 0x3F).toNat
    match p.more with
    | 0 => some (.inl (Char.ofNat bits))
    | more + 1 => some (.inr ⟨bits, 0x80, 0xBF, more⟩)
  else none

/-- The characters of bytes, behind the given part of one. -/
def decodeFrom : Option PartialChar → List UInt8 → List Char
  | none, [] => []
  | some _, [] => [replacement]
  | pending, b :: rest =>
    match pending.bind (·.add? b) with
    | some (.inl c) => c :: decodeFrom none rest
    | some (.inr p) => decodeFrom (some p) rest
    | none =>
      (if pending.isSome then [replacement] else []) ++
        match startChar b with
        | some (.inl c) => c :: decodeFrom none rest
        | some (.inr p) => decodeFrom (some p) rest
        | none => replacement :: decodeFrom none rest

/-- The text that bytes stand for. -/
def decodeUtf8 (bytes : List UInt8) : String := String.ofList (decodeFrom none bytes)

end CoChange.Text
