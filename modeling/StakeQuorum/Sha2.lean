import StakeQuorum.FixedBytes

/-! # The SHA-2 family

A message is padded to whole blocks, and each block is mixed into eight chaining words. The two
members differ in the width of a word, the rotation amounts, the starting words and the round
constants, so both are values of one `Variant`.
-/

namespace StakeQuorum.Sha2

/-- Machine words. -/
class Word (α : Type) extends Add α, AndOp α, OrOp α, XorOp α, Complement α, ShiftLeft α,
    ShiftRight α where
  /-- The number of bytes in a word. -/
  size : Nat
  ofNat : Nat → α
  toNat : α → Nat

instance : Word UInt32 where
  size := 4
  ofNat := UInt32.ofNat
  toNat := UInt32.toNat

instance : Word UInt64 where
  size := 8
  ofNat := UInt64.ofNat
  toNat := UInt64.toNat

structure State (α : Type) where
  a : α
  b : α
  c : α
  d : α
  e : α
  f : α
  g : α
  h : α

/-- What tells one member of the family from another. -/
structure Variant (α : Type) where
  start : State α
  /-- One constant for each round. -/
  constants : List α
  /-- Mixes the first chaining word into a round. -/
  sum0 : α → α
  /-- Mixes the fifth chaining word into a round. -/
  sum1 : α → α
  /-- Spreads a message word of fifteen rounds ago. -/
  spread0 : α → α
  /-- Spreads a message word of two rounds ago. -/
  spread1 : α → α

variable {α : Type} [Word α]

namespace State

def toList (s : State α) : List α := [s.a, s.b, s.c, s.d, s.e, s.f, s.g, s.h]

@[specialize] def add (s t : State α) : State α :=
  ⟨s.a + t.a, s.b + t.b, s.c + t.c, s.d + t.d, s.e + t.e, s.f + t.f, s.g + t.g, s.h + t.h⟩

end State

@[inline] def shiftRight (x : α) (i : Nat) : α := x >>> Word.ofNat i

@[inline] def rotateRight (x : α) (i : Nat) : α :=
  shiftRight x i ||| x <<< Word.ofNat (8 * Word.size α - i)

@[inline] def rotations (i j k : Nat) (x : α) : α :=
  rotateRight x i ^^^ rotateRight x j ^^^ rotateRight x k

@[inline] def rotationsShift (i j k : Nat) (x : α) : α :=
  rotateRight x i ^^^ rotateRight x j ^^^ shiftRight x k

@[inline] def choose (x y z : α) : α := (x &&& y) ^^^ (~~~x &&& z)

@[inline] def majority (x y z : α) : α := (x &&& y) ^^^ (x &&& z) ^^^ (y &&& z)

@[specialize] def round (v : Variant α) (s : State α) (k m : α) : State α :=
  let t1 := s.h + v.sum1 s.e + choose s.e s.f s.g + k + m
  let t2 := v.sum0 s.a + majority s.a s.b s.c
  ⟨t1 + t2, s.a, s.b, s.c, s.d + t1, s.e, s.f, s.g⟩

/-- The message word that enters a window of the sixteen latest ones. -/
@[specialize] def nextWord (v : Variant α) (window : List α) : α :=
  let word i := window.getD i (Word.ofNat 0)
  v.spread1 (word 14) + word 9 + v.spread0 (word 1) + word 0

/-- Runs the rounds, the message words sliding through a window of sixteen. -/
@[specialize] def rounds (v : Variant α) : List α → List α → State α → State α
  | [], _, s => s
  | k :: ks, window, s =>
    rounds v ks (window.tail ++ [nextWord v window]) (round v s k (window.headD (Word.ofNat 0)))

def blockWords (block : Bytes) : List α :=
  let size := Word.size α
  (List.range 16).map fun i =>
    Word.ofNat (Bytes.ofLittleEndian ((block.drop (i * size)).take size).reverse)

@[specialize] def compress (v : Variant α) (s : State α) (block : Bytes) : State α :=
  s.add (rounds v v.constants (blockWords block) s)

/-- The number of zero bytes that complete the last block. The length takes `field` bytes of it. -/
def zeroCount (block field length : Nat) : Nat :=
  (block - (length + 1 + field) % block) % block

/-- The message, a one bit, zeros, and the length in bits as a number of two words. -/
def padded (size : Nat) (message : Bytes) : Bytes :=
  message ++ 0x80 :: (List.replicate (zeroCount (16 * size) (2 * size) message.length) 0 ++
    (Bytes.littleEndian (2 * size) (8 * message.length)).reverse)

/-- The first `count` pieces of `size` bytes. -/
def pieces (size : Nat) : Nat → Bytes → List Bytes
  | 0, _ => []
  | count + 1, bs => bs.take size :: pieces size count (bs.drop size)

@[specialize] def digestBytes (v : Variant α) (message : Bytes) : Bytes :=
  let size := Word.size α
  let bs := padded size message
  let final := (pieces (16 * size) (bs.length / (16 * size)) bs).foldl (compress v) v.start
  final.toList.flatMap fun x => (Bytes.littleEndian size (Word.toNat x)).reverse

@[simp] theorem length_digestBytes (v : Variant α) (message : Bytes) :
    (digestBytes v message).length = 8 * Word.size α := by
  simp [digestBytes, State.toList]
  omega

def variant256 : Variant UInt32 where
  start := ⟨0x6a09e667, 0xbb67ae85, 0x3c6ef372, 0xa54ff53a,
    0x510e527f, 0x9b05688c, 0x1f83d9ab, 0x5be0cd19⟩
  constants := [
    0x428a2f98, 0x71374491, 0xb5c0fbcf, 0xe9b5dba5, 0x3956c25b, 0x59f111f1,
    0x923f82a4, 0xab1c5ed5, 0xd807aa98, 0x12835b01, 0x243185be, 0x550c7dc3,
    0x72be5d74, 0x80deb1fe, 0x9bdc06a7, 0xc19bf174, 0xe49b69c1, 0xefbe4786,
    0x0fc19dc6, 0x240ca1cc, 0x2de92c6f, 0x4a7484aa, 0x5cb0a9dc, 0x76f988da,
    0x983e5152, 0xa831c66d, 0xb00327c8, 0xbf597fc7, 0xc6e00bf3, 0xd5a79147,
    0x06ca6351, 0x14292967, 0x27b70a85, 0x2e1b2138, 0x4d2c6dfc, 0x53380d13,
    0x650a7354, 0x766a0abb, 0x81c2c92e, 0x92722c85, 0xa2bfe8a1, 0xa81a664b,
    0xc24b8b70, 0xc76c51a3, 0xd192e819, 0xd6990624, 0xf40e3585, 0x106aa070,
    0x19a4c116, 0x1e376c08, 0x2748774c, 0x34b0bcb5, 0x391c0cb3, 0x4ed8aa4a,
    0x5b9cca4f, 0x682e6ff3, 0x748f82ee, 0x78a5636f, 0x84c87814, 0x8cc70208,
    0x90befffa, 0xa4506ceb, 0xbef9a3f7, 0xc67178f2]
  sum0 := rotations 2 13 22
  sum1 := rotations 6 11 25
  spread0 := rotationsShift 7 18 3
  spread1 := rotationsShift 17 19 10

def variant512 : Variant UInt64 where
  start := ⟨
    0x6a09e667f3bcc908, 0xbb67ae8584caa73b, 0x3c6ef372fe94f82b, 0xa54ff53a5f1d36f1,
    0x510e527fade682d1, 0x9b05688c2b3e6c1f, 0x1f83d9abfb41bd6b, 0x5be0cd19137e2179⟩
  constants := [
    0x428a2f98d728ae22, 0x7137449123ef65cd, 0xb5c0fbcfec4d3b2f, 0xe9b5dba58189dbbc,
    0x3956c25bf348b538, 0x59f111f1b605d019, 0x923f82a4af194f9b, 0xab1c5ed5da6d8118,
    0xd807aa98a3030242, 0x12835b0145706fbe, 0x243185be4ee4b28c, 0x550c7dc3d5ffb4e2,
    0x72be5d74f27b896f, 0x80deb1fe3b1696b1, 0x9bdc06a725c71235, 0xc19bf174cf692694,
    0xe49b69c19ef14ad2, 0xefbe4786384f25e3, 0x0fc19dc68b8cd5b5, 0x240ca1cc77ac9c65,
    0x2de92c6f592b0275, 0x4a7484aa6ea6e483, 0x5cb0a9dcbd41fbd4, 0x76f988da831153b5,
    0x983e5152ee66dfab, 0xa831c66d2db43210, 0xb00327c898fb213f, 0xbf597fc7beef0ee4,
    0xc6e00bf33da88fc2, 0xd5a79147930aa725, 0x06ca6351e003826f, 0x142929670a0e6e70,
    0x27b70a8546d22ffc, 0x2e1b21385c26c926, 0x4d2c6dfc5ac42aed, 0x53380d139d95b3df,
    0x650a73548baf63de, 0x766a0abb3c77b2a8, 0x81c2c92e47edaee6, 0x92722c851482353b,
    0xa2bfe8a14cf10364, 0xa81a664bbc423001, 0xc24b8b70d0f89791, 0xc76c51a30654be30,
    0xd192e819d6ef5218, 0xd69906245565a910, 0xf40e35855771202a, 0x106aa07032bbd1b8,
    0x19a4c116b8d2d0c8, 0x1e376c085141ab53, 0x2748774cdf8eeb99, 0x34b0bcb5e19b48a8,
    0x391c0cb3c5c95a63, 0x4ed8aa4ae3418acb, 0x5b9cca4f7763e373, 0x682e6ff3d6b2b8a3,
    0x748f82ee5defb2fc, 0x78a5636f43172f60, 0x84c87814a1f0ab72, 0x8cc702081a6439ec,
    0x90befffa23631e28, 0xa4506cebde82bde9, 0xbef9a3f7b2c67915, 0xc67178f2e372532b,
    0xca273eceea26619c, 0xd186b8c721c0c207, 0xeada7dd6cde0eb1e, 0xf57d4f7fee6ed178,
    0x06f067aa72176fba, 0x0a637dc5a2c898a6, 0x113f9804bef90dae, 0x1b710b35131c471b,
    0x28db77f523047d84, 0x32caab7b40c72493, 0x3c9ebe0a15c9bebc, 0x431d67c49c100d4c,
    0x4cc5d4becb3e42b6, 0x597f299cfc657e2a, 0x5fcb6fab3ad6faec, 0x6c44198c4a475817]
  sum0 := rotations 28 34 39
  sum1 := rotations 14 18 41
  spread0 := rotationsShift 1 8 7
  spread1 := rotationsShift 19 61 6

end StakeQuorum.Sha2

namespace StakeQuorum

/-- The SHA-256 digest of a message. -/
def sha256 (message : Bytes) : Digest :=
  ⟨Sha2.digestBytes Sha2.variant256 message, by simp; rfl⟩

def sha512 (message : Bytes) : FixedBytes 64 :=
  ⟨Sha2.digestBytes Sha2.variant512 message, by simp; rfl⟩

/-- A SHA-256 computation that receives its message in parts. -/
structure Hasher where
  message : Bytes := []

namespace Hasher

def write (h : Hasher) (part : Bytes) : Hasher := ⟨h.message ++ part⟩

/-- The digest of what was written; the computation starts anew. -/
def finish (h : Hasher) : Digest × Hasher := (sha256 h.message, {})

end Hasher

end StakeQuorum
