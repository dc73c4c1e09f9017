import CoChange.Arithmetic
import CoChange.Partition

/-!
# The digest SHA-256

The digest of a sequence of bytes: the bytes are padded to whole blocks of 64, and each block
changes a state of eight words of 32 bits in 64 rounds.
-/

namespace CoChange.Digest

/-- The constants of the rounds: the fractions of the cube roots of the first 64 primes. -/
def roundConstants : Array UInt32 :=
  #[
    0x428a2f98, 0x71374491, 0xb5c0fbcf, 0xe9b5dba5, 0x3956c25b, 0x59f111f1, 0x923f82a4, 0xab1c5ed5,
    0xd807aa98, 0x12835b01, 0x243185be, 0x550c7dc3, 0x72be5d74, 0x80deb1fe, 0x9bdc06a7, 0xc19bf174,
    0xe49b69c1, 0xefbe4786, 0x0fc19dc6, 0x240ca1cc, 0x2de92c6f, 0x4a7484aa, 0x5cb0a9dc, 0x76f988da,
    0x983e5152, 0xa831c66d, 0xb00327c8, 0xbf597fc7, 0xc6e00bf3, 0xd5a79147, 0x06ca6351, 0x14292967,
    0x27b70a85, 0x2e1b2138, 0x4d2c6dfc, 0x53380d13, 0x650a7354, 0x766a0abb, 0x81c2c92e, 0x92722c85,
    0xa2bfe8a1, 0xa81a664b, 0xc24b8b70, 0xc76c51a3, 0xd192e819, 0xd6990624, 0xf40e3585, 0x106aa070,
    0x19a4c116, 0x1e376c08, 0x2748774c, 0x34b0bcb5, 0x391c0cb3, 0x4ed8aa4a, 0x5b9cca4f, 0x682e6ff3,
    0x748f82ee, 0x78a5636f, 0x84c87814, 0x8cc70208, 0x90befffa, 0xa4506ceb, 0xbef9a3f7, 0xc67178f2]

/-- The state in front of the first block: the fractions of the square roots of the first 8
primes. -/
def initialState : Array UInt32 :=
  #[0x6a09e667, 0xbb67ae85, 0x3c6ef372, 0xa54ff53a, 0x510e527f, 0x9b05688c, 0x1f83d9ab, 0x5be0cd19]

def rotateRight (x : UInt32) (n : UInt32) : UInt32 := (x >>> n) ||| (x <<< (32 - n))

/-- The bytes of a number, the highest first. -/
def bigEndian (width n : Nat) : List UInt8 :=
  (List.range width).reverse.map fun i => UInt8.ofNat (n / 256 ^ i % 256)

/-- The bytes with a one bit, zeros and the length in bits behind them, in whole blocks. -/
def pad (bytes : List UInt8) : List UInt8 :=
  let zeros := (119 - bytes.length % 64) % 64
  bytes ++ 0x80 :: List.replicate zeros 0 ++ bigEndian 8 (8 * bytes.length)

/-- A word from its four bytes, the highest first. -/
def word (bytes : List UInt8) : UInt32 := bytes.foldl (fun w b => (w <<< 8) ||| b.toUInt32) 0

def wordAt (words : Array UInt32) (i : Nat) : UInt32 := words.getD i 0

/-- The 64 words that a block is spread to. -/
def schedule (block : List UInt8) : Array UInt32 :=
  (List.range 48).foldl (fun w k =>
    let i := k + 16
    let x := wordAt w (i - 15)
    let y := wordAt w (i - 2)
    let s0 := rotateRight x 7 ^^^ rotateRight x 18 ^^^ (x >>> 3)
    let s1 := rotateRight y 17 ^^^ rotateRight y 19 ^^^ (y >>> 10)
    w.push (wordAt w (i - 16) + s0 + wordAt w (i - 7) + s1))
    ((chunks 4 block).map word).toArray

/-- One round on the eight words of the state. -/
def round (s : Array UInt32) (input : UInt32) : Array UInt32 :=
  let a := wordAt s 0
  let e := wordAt s 4
  let s1 := rotateRight e 6 ^^^ rotateRight e 11 ^^^ rotateRight e 25
  let choice := (e &&& wordAt s 5) ^^^ (~~~e &&& wordAt s 6)
  let t1 := wordAt s 7 + s1 + choice + input
  let s0 := rotateRight a 2 ^^^ rotateRight a 13 ^^^ rotateRight a 22
  let majority := (a &&& wordAt s 1) ^^^ (a &&& wordAt s 2) ^^^ (wordAt s 1 &&& wordAt s 2)
  #[t1 + s0 + majority, a, wordAt s 1, wordAt s 2, wordAt s 3 + t1, e, wordAt s 5, wordAt s 6]

/-- The state behind a block. -/
def compress (state : Array UInt32) (block : List UInt8) : Array UInt32 :=
  let w := schedule block
  let mixed := (List.range 64).foldl
    (fun s i => round s (wordAt roundConstants i + wordAt w i)) state
  (List.range 8).toArray.map fun i => wordAt state i + wordAt mixed i

/-- The digest of a sequence of bytes, as 32 bytes. -/
def sha256 (bytes : List UInt8) : List UInt8 :=
  let padded := pad bytes
  let state := (chunks 64 padded).foldl compress initialState
  state.toList.flatMap fun w => bigEndian 4 w.toNat

/-- The digits of bytes in base sixteen, two for each, in lower case. -/
def hex (bytes : List UInt8) : String :=
  String.ofList (bytes.flatMap fun b =>
    [Nat.digitChar (b.toNat / 16), Nat.digitChar (b.toNat % 16)])

def hexValue (c : Char) : Nat := "0123456789abcdef".toList.idxOf c.toLower

/-- The bytes whose digits are given, two for each. -/
def bytesOfHex : List Char → List UInt8
  | a :: b :: rest => UInt8.ofNat (16 * hexValue a + hexValue b) :: bytesOfHex rest
  | _ => []

/-- The bytes whose digits are given, two for each. -/
def ofHex (digits : String) : List UInt8 := bytesOfHex digits.toList

end CoChange.Digest
