import AccessPolicy.Json.Shape

/-!
# Policy versions

A version tells policy texts apart by their digest and says when a text was loaded. The digest is
SHA-256, which nothing else uses: the message is padded to blocks of 64 bytes, and every block is
folded into a state of eight words by 64 rounds. `Sha256.hex` writes the digest of a text's UTF-8
form in lower-case hexadecimal digits.
-/

namespace AccessPolicy

/-! ### Digests -/

namespace Sha256

/-- The round constants: the first 32 bits of the fractional parts of the cube roots of the first 64
primes. -/
def roundConstants : List UInt32 :=
  [0x428a2f98, 0x71374491, 0xb5c0fbcf, 0xe9b5dba5, 0x3956c25b, 0x59f111f1, 0x923f82a4, 0xab1c5ed5,
   0xd807aa98, 0x12835b01, 0x243185be, 0x550c7dc3, 0x72be5d74, 0x80deb1fe, 0x9bdc06a7, 0xc19bf174,
   0xe49b69c1, 0xefbe4786, 0x0fc19dc6, 0x240ca1cc, 0x2de92c6f, 0x4a7484aa, 0x5cb0a9dc, 0x76f988da,
   0x983e5152, 0xa831c66d, 0xb00327c8, 0xbf597fc7, 0xc6e00bf3, 0xd5a79147, 0x06ca6351, 0x14292967,
   0x27b70a85, 0x2e1b2138, 0x4d2c6dfc, 0x53380d13, 0x650a7354, 0x766a0abb, 0x81c2c92e, 0x92722c85,
   0xa2bfe8a1, 0xa81a664b, 0xc24b8b70, 0xc76c51a3, 0xd192e819, 0xd6990624, 0xf40e3585, 0x106aa070,
   0x19a4c116, 0x1e376c08, 0x2748774c, 0x34b0bcb5, 0x391c0cb3, 0x4ed8aa4a, 0x5b9cca4f, 0x682e6ff3,
   0x748f82ee, 0x78a5636f, 0x84c87814, 0x8cc70208, 0x90befffa, 0xa4506ceb, 0xbef9a3f7, 0xc67178f2]

/-- The eight words of the state. -/
structure State where
  /-- The first word. -/
  a : UInt32
  /-- The second word. -/
  b : UInt32
  /-- The third word. -/
  c : UInt32
  /-- The fourth word. -/
  d : UInt32
  /-- The fifth word. -/
  e : UInt32
  /-- The sixth word. -/
  f : UInt32
  /-- The seventh word. -/
  g : UInt32
  /-- The eighth word. -/
  h : UInt32
deriving DecidableEq

namespace State

/-- The state before the first block: the first 32 bits of the fractional parts of the square roots
of the first eight primes. -/
def initial : State :=
  ⟨0x6a09e667, 0xbb67ae85, 0x3c6ef372, 0xa54ff53a, 0x510e527f, 0x9b05688c, 0x1f83d9ab, 0x5be0cd19⟩

/-- The words in order. -/
def words (s : State) : List UInt32 :=
  [s.a, s.b, s.c, s.d, s.e, s.f, s.g, s.h]

/-- The sum of two states, word by word. -/
def add (s t : State) : State :=
  ⟨s.a + t.a, s.b + t.b, s.c + t.c, s.d + t.d, s.e + t.e, s.f + t.f, s.g + t.g, s.h + t.h⟩

end State

/-! ### Words -/

/-- Rotate a word to the right. -/
def rotate (x : UInt32) (n : UInt32) : UInt32 :=
  (x >>> n) ||| (x <<< (32 - n))

/-- The sum that mixes the first word of the state. -/
def bigSigma0 (x : UInt32) : UInt32 :=
  rotate x 2 ^^^ rotate x 13 ^^^ rotate x 22

/-- The sum that mixes the fifth word of the state. -/
def bigSigma1 (x : UInt32) : UInt32 :=
  rotate x 6 ^^^ rotate x 11 ^^^ rotate x 25

/-- The sum that mixes an early word of the schedule. -/
def smallSigma0 (x : UInt32) : UInt32 :=
  rotate x 7 ^^^ rotate x 18 ^^^ (x >>> 3)

/-- The sum that mixes a late word of the schedule. -/
def smallSigma1 (x : UInt32) : UInt32 :=
  rotate x 17 ^^^ rotate x 19 ^^^ (x >>> 10)

/-- The bits of `y` where `x` has ones, those of `z` elsewhere. -/
def choice (x y z : UInt32) : UInt32 :=
  (x &&& y) ^^^ (~~~x &&& z)

/-- The bit that at least two of three words have. -/
def majority (x y z : UInt32) : UInt32 :=
  (x &&& y) ^^^ (x &&& z) ^^^ (y &&& z)

/-! ### Blocks -/

/-- The words of a list of bytes, the first byte of a word being the highest. -/
def wordsOf : List UInt8 → List UInt32
  | w :: x :: y :: z :: bs =>
    ((w.toUInt32 <<< 24) ||| (x.toUInt32 <<< 16) ||| (y.toUInt32 <<< 8) ||| z.toUInt32) ::
      wordsOf bs
  | _ => []

/-- The word that follows the given words of the schedule, of which the latest comes first. -/
def nextWord (latest : List UInt32) : UInt32 :=
  smallSigma1 (latest.getD 1 0) + latest.getD 6 0 + smallSigma0 (latest.getD 14 0) +
    latest.getD 15 0

/-- Put words in front of a schedule of which the latest word comes first. -/
def extend : (count : Nat) → List UInt32 → List UInt32
  | 0, latest => latest
  | count + 1, latest => extend count (nextWord latest :: latest)

/-- The 64 words of the schedule of a block. -/
def schedule (block : List UInt8) : List UInt32 :=
  (extend 48 (wordsOf block).reverse).reverse

/-- One round. -/
def round (s : State) (constant word : UInt32) : State :=
  let t := s.h + bigSigma1 s.e + choice s.e s.f s.g + constant + word
  ⟨t + bigSigma0 s.a + majority s.a s.b s.c, s.a, s.b, s.c, s.d + t, s.e, s.f, s.g⟩

/-- Fold a block into a state. -/
def compress (s : State) (block : List UInt8) : State :=
  s.add ((roundConstants.zip (schedule block)).foldl (fun t r => round t r.1 r.2) s)

/-- Fold blocks into a state. The count bounds the blocks. -/
def compressAll : (count : Nat) → List UInt8 → State → State
  | 0, _, s => s
  | count + 1, bytes, s => compressAll count (bytes.drop 64) (compress s (bytes.take 64))

/-! ### Messages -/

/-- The bytes of a number, the highest first. -/
def bytesOf : (count : Nat) → (n : Nat) → List UInt8
  | 0, _ => []
  | count + 1, n => UInt8.ofNat (n / Nat.pow 256 count) :: bytesOf count n

/-- A message of the given length with its padding: one bit, zeros up to the last eight bytes of a
block, and there the length in bits. -/
def pad (length : Nat) (message : List UInt8) : List UInt8 :=
  message ++ 0x80 :: List.replicate ((119 - length % 64) % 64) 0 ++ bytesOf 8 (8 * length)

/-- The digest of a message. -/
def digest (message : List UInt8) : State :=
  let padded := pad message.length message
  compressAll (padded.length / 64) padded .initial

/-- The hexadecimal digits of a word. -/
def hexDigits (w : UInt32) : List Char :=
  (bytesOf 4 w.toNat).flatMap fun b => [Nat.digitChar (b.toNat / 16), Nat.digitChar (b.toNat % 16)]

/-- The digest of a text in hexadecimal digits. -/
def hex (text : String) : String :=
  String.ofList ((digest text.toUTF8.toList).words.flatMap hexDigits)

end Sha256

/-! ### Versions -/

/-- The version of a loaded policy text. -/
structure PolicyVersion where
  /-- The digest of the text. -/
  hash : String
  /-- When the text was loaded. -/
  loadedAt : String
deriving DecidableEq

namespace PolicyVersion

/-- The version of a text that is loaded at the given time. -/
def ofText (text now : String) : PolicyVersion :=
  ⟨Sha256.hex text, now⟩

/-- The digest and the time. -/
def text (v : PolicyVersion) : String :=
  v.hash ++ " @ " ++ v.loadedAt

/-- The fields of the JSON form. -/
def fields : List (Json.Field PolicyVersion) :=
  [⟨"hash", true, fun v s => (Json.asString v).map fun h => { s with hash := h }⟩,
   ⟨"loaded_at", true, fun v s => (Json.asString v).map fun t => { s with loadedAt := t }⟩]

/-- Decode the JSON form. -/
def decode (v : Json) : Except Json.Fault PolicyVersion :=
  Json.readRecord ⟨false, false⟩ fields ⟨"", ""⟩ v

/-- The JSON form. -/
def toJson (v : PolicyVersion) : Json :=
  .obj [("hash", .str v.hash), ("loaded_at", .str v.loadedAt)]

end PolicyVersion

end AccessPolicy
