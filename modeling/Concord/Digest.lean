/-!
The SHA-256 digest of a byte string and its text of sixty-four lower-case hexadecimal digits.
Digests are only ever compared, so nothing else in the library looks inside them.
-/

namespace Concord.Digest

/-- The first thirty-two fractional bits of the cube roots of the first sixty-four primes. -/
def roundConstants : Array UInt32 :=
  #[0x428a2f98, 0x71374491, 0xb5c0fbcf, 0xe9b5dba5, 0x3956c25b, 0x59f111f1, 0x923f82a4, 0xab1c5ed5,
    0xd807aa98, 0x12835b01, 0x243185be, 0x550c7dc3, 0x72be5d74, 0x80deb1fe, 0x9bdc06a7, 0xc19bf174,
    0xe49b69c1, 0xefbe4786, 0x0fc19dc6, 0x240ca1cc, 0x2de92c6f, 0x4a7484aa, 0x5cb0a9dc, 0x76f988da,
    0x983e5152, 0xa831c66d, 0xb00327c8, 0xbf597fc7, 0xc6e00bf3, 0xd5a79147, 0x06ca6351, 0x14292967,
    0x27b70a85, 0x2e1b2138, 0x4d2c6dfc, 0x53380d13, 0x650a7354, 0x766a0abb, 0x81c2c92e, 0x92722c85,
    0xa2bfe8a1, 0xa81a664b, 0xc24b8b70, 0xc76c51a3, 0xd192e819, 0xd6990624, 0xf40e3585, 0x106aa070,
    0x19a4c116, 0x1e376c08, 0x2748774c, 0x34b0bcb5, 0x391c0cb3, 0x4ed8aa4a, 0x5b9cca4f, 0x682e6ff3,
    0x748f82ee, 0x78a5636f, 0x84c87814, 0x8cc70208, 0x90befffa, 0xa4506ceb, 0xbef9a3f7, 0xc67178f2]

/-- The eight working words of the compression. -/
structure Words where
  a : UInt32
  b : UInt32
  c : UInt32
  d : UInt32
  e : UInt32
  f : UInt32
  g : UInt32
  h : UInt32

namespace Words

/-- The first thirty-two fractional bits of the square roots of the first eight primes. -/
def start : Words :=
  ⟨0x6a09e667, 0xbb67ae85, 0x3c6ef372, 0xa54ff53a,
    0x510e527f, 0x9b05688c, 0x1f83d9ab, 0x5be0cd19⟩

/-- Wordwise sum, each modulo two to the thirty-second. -/
def add (x y : Words) : Words :=
  ⟨x.a + y.a, x.b + y.b, x.c + y.c, x.d + y.d, x.e + y.e, x.f + y.f, x.g + y.g, x.h + y.h⟩

/-- The eight words in order. -/
def toList (x : Words) : List UInt32 :=
  [x.a, x.b, x.c, x.d, x.e, x.f, x.g, x.h]

end Words

/-- A word turned right by `n` bits, for `n` from 1 to 31. -/
def rotateRight (x : UInt32) (n : UInt32) : UInt32 :=
  (x >>> n) ||| (x <<< (32 - n))

/-- One round: `constant` and `word` are mixed into the working words. -/
def round (x : Words) (constant word : UInt32) : Words :=
  let high := rotateRight x.e 6 ^^^ rotateRight x.e 11 ^^^ rotateRight x.e 25
  let choice := (x.e &&& x.f) ^^^ ((~~~ x.e) &&& x.g)
  let first := x.h + high + choice + constant + word
  let low := rotateRight x.a 2 ^^^ rotateRight x.a 13 ^^^ rotateRight x.a 22
  let majority := (x.a &&& x.b) ^^^ (x.a &&& x.c) ^^^ (x.b &&& x.c)
  ⟨first + (low + majority), x.a, x.b, x.c, x.d + first, x.e, x.f, x.g⟩

/-- The sixteen words of a block extended by forty-eight, each made of four earlier ones. -/
def schedule (block : Array UInt32) : Array UInt32 :=
  (List.range 48).foldl (fun words i =>
    let x := words.getD (i + 1) 0
    let y := words.getD (i + 14) 0
    let small := rotateRight x 7 ^^^ rotateRight x 18 ^^^ (x >>> 3)
    let large := rotateRight y 17 ^^^ rotateRight y 19 ^^^ (y >>> 10)
    words.push (words.getD i 0 + small + words.getD (i + 9) 0 + large)) block

/-- The working words after one block of sixteen words. -/
def compress (x : Words) (block : Array UInt32) : Words :=
  let words := schedule block
  x.add ((List.range 64).foldl
    (fun y i => round y (roundConstants.getD i 0) (words.getD i 0)) x)

/-- The last `count` bytes of a number, most significant first. -/
def bigEndian (count : Nat) (n : Nat) : List UInt8 :=
  (List.range count).map fun i => UInt8.ofNat (n >>> (8 * (count - 1 - i)))

/-- A message with the closing bit, zeros, and its length in bits as eight bytes: the result is a
whole number of sixty-four byte blocks. -/
def pad (message : List UInt8) : List UInt8 :=
  let zeros := (119 - message.length % 64) % 64
  message ++ 0x80 :: (List.replicate zeros 0 ++ bigEndian 8 (8 * message.length))

/-- Bytes read four at a time as big-endian words. -/
def toWords : List UInt8 → List UInt32
  | p :: q :: r :: s :: rest =>
      ((p.toUInt32 <<< 24) ||| (q.toUInt32 <<< 16) ||| (r.toUInt32 <<< 8) ||| s.toUInt32)
        :: toWords rest
  | _ => []

/-- Compresses `count` blocks of sixteen words one after the other. -/
def absorb : Nat → Words → List UInt32 → Words
  | 0, x, _ => x
  | count + 1, x, words => absorb count (compress x (words.take 16).toArray) (words.drop 16)

/-- The SHA-256 digest of a byte string, as thirty-two bytes. -/
def sha256 (message : List UInt8) : List UInt8 :=
  let words := toWords (pad message)
  (absorb (words.length / 16) .start words).toList.flatMap fun w => bigEndian 4 w.toNat

/-- A byte as two lower-case hexadecimal digits. -/
def hexByte (b : UInt8) : List Char :=
  [Nat.digitChar (b.toNat / 16), Nat.digitChar (b.toNat % 16)]

/-- The digest of a byte string as text. -/
def fingerprint (message : List UInt8) : String :=
  String.ofList ((sha256 message).flatMap hexByte)

end Concord.Digest
