/-
# `Python.Sha256` — `hashlib.sha256(b).hexdigest()`

FIPS 180-4 on natural numbers below `2 ^ 32`.  Nothing is proved about the
digest: the development only ever compares two of them.
-/
import UnifiedNamespace.Python.Json

namespace Py

def roundConstants : List Nat :=
  [0x428a2f98, 0x71374491, 0xb5c0fbcf, 0xe9b5dba5, 0x3956c25b, 0x59f111f1, 0x923f82a4, 0xab1c5ed5,
    0xd807aa98, 0x12835b01, 0x243185be, 0x550c7dc3, 0x72be5d74, 0x80deb1fe, 0x9bdc06a7, 0xc19bf174,
    0xe49b69c1, 0xefbe4786, 0x0fc19dc6, 0x240ca1cc, 0x2de92c6f, 0x4a7484aa, 0x5cb0a9dc, 0x76f988da,
    0x983e5152, 0xa831c66d, 0xb00327c8, 0xbf597fc7, 0xc6e00bf3, 0xd5a79147, 0x06ca6351, 0x14292967,
    0x27b70a85, 0x2e1b2138, 0x4d2c6dfc, 0x53380d13, 0x650a7354, 0x766a0abb, 0x81c2c92e, 0x92722c85,
    0xa2bfe8a1, 0xa81a664b, 0xc24b8b70, 0xc76c51a3, 0xd192e819, 0xd6990624, 0xf40e3585, 0x106aa070,
    0x19a4c116, 0x1e376c08, 0x2748774c, 0x34b0bcb5, 0x391c0cb3, 0x4ed8aa4a, 0x5b9cca4f, 0x682e6ff3,
    0x748f82ee, 0x78a5636f, 0x84c87814, 0x8cc70208, 0x90befffa, 0xa4506ceb, 0xbef9a3f7, 0xc67178f2]

def rotr (x n : Nat) : Nat := (x >>> n ||| x <<< (32 - n)) % 2 ^ 32

/-- The eight working variables. -/
structure HashState where
  a : Nat
  b : Nat
  c : Nat
  d : Nat
  e : Nat
  f : Nat
  g : Nat
  h : Nat

def initialHash : HashState :=
  ⟨0x6a09e667, 0xbb67ae85, 0x3c6ef372, 0xa54ff53a, 0x510e527f, 0x9b05688c, 0x1f83d9ab, 0x5be0cd19⟩

def sha256Round (s : HashState) (kw : Nat × Nat) : HashState :=
  let t1 := s.h + (rotr s.e 6 ^^^ rotr s.e 11 ^^^ rotr s.e 25) +
    ((s.e &&& s.f) ^^^ ((2 ^ 32 - 1 - s.e) &&& s.g)) + kw.1 + kw.2
  let t2 := (rotr s.a 2 ^^^ rotr s.a 13 ^^^ rotr s.a 22) +
    ((s.a &&& s.b) ^^^ (s.a &&& s.c) ^^^ (s.b &&& s.c))
  ⟨(t1 + t2) % 2 ^ 32, s.a, s.b, s.c, (s.d + t1) % 2 ^ 32, s.e, s.f, s.g⟩

/-- `n` more words of the message schedule, the last word first. -/
def extendSchedule : Nat → List Nat → List Nat
  | 0, ws => ws
  | n + 1, ws =>
      let w15 := ws.getD 14 0
      let w2 := ws.getD 1 0
      let s0 := rotr w15 7 ^^^ rotr w15 18 ^^^ (w15 >>> 3)
      let s1 := rotr w2 17 ^^^ rotr w2 19 ^^^ (w2 >>> 10)
      extendSchedule n (((ws.getD 15 0 + s0 + ws.getD 6 0 + s1) % 2 ^ 32) :: ws)

def sha256Block (s : HashState) (block : List Nat) : HashState :=
  let schedule := (extendSchedule 48 block.reverse).reverse
  let r := (roundConstants.zip schedule).foldl sha256Round s
  ⟨(s.a + r.a) % 2 ^ 32, (s.b + r.b) % 2 ^ 32, (s.c + r.c) % 2 ^ 32, (s.d + r.d) % 2 ^ 32,
    (s.e + r.e) % 2 ^ 32, (s.f + r.f) % 2 ^ 32, (s.g + r.g) % 2 ^ 32, (s.h + r.h) % 2 ^ 32⟩

/-- The low `n` bytes of a number, big-endian. -/
def bigEndian : Nat → Nat → List Nat
  | 0, _ => []
  | n + 1, x => x / 256 ^ n % 256 :: bigEndian n x

def sha256Pad (b : Bytes) : List Nat :=
  b.map UInt8.toNat ++ 128 :: (List.replicate ((119 - b.length % 64) % 64) 0 ++
    bigEndian 8 (8 * b.length))

def bigEndianWords : List Nat → List Nat
  | w :: x :: y :: z :: rest => (((w * 256 + x) * 256 + y) * 256 + z) :: bigEndianWords rest
  | _ => []

/-- Blocks of sixteen words, `n` of them. -/
def sha256Blocks : Nat → List Nat → List (List Nat)
  | 0, _ => []
  | n + 1, ws => ws.take 16 :: sha256Blocks n (ws.drop 16)

/-- `hashlib.sha256(b).hexdigest()`. -/
def sha256Hex (b : Bytes) : Str :=
  let padded := sha256Pad b
  let r := (sha256Blocks (padded.length / 64) (bigEndianWords padded)).foldl sha256Block initialHash
  [r.a, r.b, r.c, r.d, r.e, r.f, r.g, r.h].flatMap fun w =>
    (bigEndian 4 w).flatMap fun x => [hexDigit (x / 16), hexDigit (x % 16)]

example : sha256Hex [97, 98, 99] =
    lit "ba7816bf8f01cfea414140de5dae2223b00361a396177a9cb410ff61f20015ad" := by
  decide +kernel

end Py
