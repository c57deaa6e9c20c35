import StakeQuorum.Hex

/-! # Byte blocks of a fixed size

Digests, keys, seeds and signatures are blocks of a known number of bytes. A block made from too
few bytes is filled up with zeros, and one made from too many is cut.
-/

namespace StakeQuorum

/-- Exactly `n` bytes. -/
@[ext] structure FixedBytes (n : Nat) where
  bytes : Bytes
  length_eq : bytes.length = n

namespace FixedBytes

variable {n : Nat}

instance : DecidableEq (FixedBytes n) := fun a b =>
  decidable_of_iff (a.bytes = b.bytes) FixedBytes.ext_iff.symm

/-- Blocks compare as unsigned byte strings. -/
instance : LT (FixedBytes n) := ⟨fun a b => a.bytes < b.bytes⟩

instance (a b : FixedBytes n) : Decidable (a < b) := inferInstanceAs (Decidable (a.bytes < b.bytes))

def zero : FixedBytes n := ⟨List.replicate n 0, List.length_replicate⟩

instance : Inhabited (FixedBytes n) := ⟨zero⟩

/-- The first `n` bytes, filled up with zeros. -/
def pad (n : Nat) (bs : Bytes) : FixedBytes n where
  bytes := bs.take n ++ List.replicate (n - bs.length) 0
  length_eq := by simp only [List.length_append, List.length_take, List.length_replicate]; omega

/-- The block with these bytes, if there are exactly `n`. -/
def ofBytes? (n : Nat) (bs : Bytes) : Option (FixedBytes n) :=
  if h : bs.length = n then some ⟨bs, h⟩ else none

def isZero (b : FixedBytes n) : Bool := b.bytes.all (· == 0)

def get (b : FixedBytes n) (i : Nat) : UInt8 := b.bytes.getD i 0

/-- Replaces the byte at a position; nothing happens past the end. -/
def set (b : FixedBytes n) (i : Nat) (c : UInt8) : FixedBytes n :=
  ⟨b.bytes.set i c, by simp [b.length_eq]⟩

/-- Changes one bit. Bits are counted from the lowest one of the first byte. -/
def flip (b : FixedBytes n) (i : Nat) : FixedBytes n :=
  b.set (i / 8) (b.get (i / 8) ^^^ (1 <<< UInt8.ofNat (i % 8)))

def toHex (b : FixedBytes n) : Bytes := Hex.encode b.bytes

@[simp] theorem length_bytes (b : FixedBytes n) : b.bytes.length = n := b.length_eq

@[simp] theorem pad_bytes (b : FixedBytes n) : pad n b.bytes = b := by
  ext1
  simp [pad, b.length_eq, List.take_of_length_le]

@[simp] theorem ofBytes?_bytes (b : FixedBytes n) : ofBytes? n b.bytes = some b := by
  simp [ofBytes?, b.length_eq]

theorem ofBytes?_eq_some_iff {bs : Bytes} {b : FixedBytes n} :
    ofBytes? n bs = some b ↔ bs = b.bytes := by
  unfold ofBytes?
  split
  · simp [FixedBytes.ext_iff]
  · rename_i h
    simp only [reduceCtorEq, false_iff]
    rintro rfl
    exact h b.length_eq

end FixedBytes

abbrev Digest := FixedBytes 32

namespace Digest

inductive DigestError
  | badLength
  | badHex (e : Hex.HexError)
  deriving DecidableEq, Repr

def DigestError.message : DigestError → Bytes
  | .badLength => "Invalid hex string length for hash"
  | .badHex e => e.message

def ofHex (s : Bytes) : Except DigestError Digest :=
  if s.length ≠ 64 then .error .badLength
  else match Hex.decode s with
    | .ok bs => .ok (FixedBytes.pad 32 bs)
    | .error e => .error (.badHex e)

end Digest

end StakeQuorum
