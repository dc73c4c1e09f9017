import CoChange.Binary64.Basic
import CoChange.SortedMap.Basic

/-!
# A binary form of records

A `Codec` writes values of a type as bytes and reads them back from the front of a sequence of
bytes. Codecs are put together from those of numbers and texts: numbers are little-endian words,
texts and lists stand behind their length, a map is the list of its entries, and a record is its
fields one after the other, with nothing in between.
-/

namespace CoChange.Binary

abbrev Bytes := List UInt8

/-- Why bytes cannot be read. -/
inductive CodecError where
  | unexpectedEnd
  | invalidText
  | invalidTag (tag : Nat)
  deriving DecidableEq, Repr

def CodecError.message : CodecError → String
  | unexpectedEnd => "unexpected end of data"
  | invalidText => "text is not valid UTF-8"
  | invalidTag tag => "invalid tag " ++ toString tag

/-- A binary form: how a value is written, and how one is read, with the bytes that follow it. -/
structure Codec (α : Type) where
  encode : α → Bytes
  decode : Bytes → Except CodecError (α × Bytes)

/-- The bytes of a number, the lowest first. -/
def littleEndian : Nat → Nat → Bytes
  | 0, _ => []
  | width + 1, n => UInt8.ofNat (n % 256) :: littleEndian width (n / 256)

/-- The number of the given bytes, the lowest first. -/
def ofLittleEndian : Bytes → Nat
  | [] => 0
  | b :: rest => b.toNat + 256 * ofLittleEndian rest

/-- The next `n` bytes, with those behind them. -/
def takeBytes (n : Nat) (bytes : Bytes) : Except CodecError (Bytes × Bytes) :=
  if n ≤ bytes.length then .ok (bytes.take n, bytes.drop n) else .error .unexpectedEnd

namespace Codec

/-- The same form for another type, between which two functions go back and forth. -/
def imap (c : Codec α) (into : α → β) (from_ : β → α) : Codec β where
  encode b := c.encode (from_ b)
  decode bytes := do
    let (a, rest) ← c.decode bytes
    return (into a, rest)

def word (width : Nat) : Codec Nat where
  encode := littleEndian width
  decode bytes := do
    let (word, rest) ← takeBytes width bytes
    return (ofLittleEndian word, rest)

/-- A count. -/
def nat : Codec Nat := word 8

/-- A floating point number, as its bits. -/
def float : Codec Binary64 := nat.imap (fun n => ⟨UInt64.ofNat n⟩) (fun x => x.bits.toNat)

def string : Codec String where
  encode s := nat.encode s.utf8ByteSize ++ s.toUTF8.toList
  decode bytes := do
    let (n, rest) ← nat.decode bytes
    let (text, rest) ← takeBytes n rest
    match String.fromUTF8? ⟨text.toArray⟩ with
    | some s => return (s, rest)
    | none => throw .invalidText

def prod (c : Codec α) (d : Codec β) : Codec (α × β) where
  encode p := c.encode p.1 ++ d.encode p.2
  decode bytes := do
    let (a, rest) ← c.decode bytes
    let (b, rest) ← d.decode rest
    return ((a, b), rest)

/-- A value that may be missing, behind a byte that says whether it is there. -/
def option (c : Codec α) : Codec (Option α) where
  encode
    | none => [0]
    | some a => 1 :: c.encode a
  decode
    | [] => .error .unexpectedEnd
    | 0 :: rest => .ok (none, rest)
    | 1 :: rest => do
      let (a, rest) ← c.decode rest
      return (some a, rest)
    | tag :: _ => .error (.invalidTag tag.toNat)

/-- Reads `n` values, one behind the other. -/
def decodeMany (c : Codec α) : Nat → Bytes → Except CodecError (List α × Bytes)
  | 0, bytes => .ok ([], bytes)
  | n + 1, bytes => do
    let (a, rest) ← c.decode bytes
    let (l, rest) ← decodeMany c n rest
    return (a :: l, rest)

def list (c : Codec α) : Codec (List α) where
  encode l := nat.encode l.length ++ l.flatMap c.encode
  decode bytes := do
    let (n, rest) ← nat.decode bytes
    decodeMany c n rest

/-- A map: the list of its entries. Of two entries with one key the later stays. -/
def map (c : Codec α) : Codec (SortedMap String α) :=
  (list (string.prod c)).imap .ofList (·.toList)

/-- One of a fixed list of values, as its position in four bytes. -/
def oneOf [DecidableEq α] (values : List α) : Codec α where
  encode a := (word 4).encode (values.idxOf a)
  decode bytes := do
    let (tag, rest) ← (word 4).decode bytes
    match values[tag]? with
    | some a => return (a, rest)
    | none => throw (.invalidTag tag)

end Codec

end CoChange.Binary
