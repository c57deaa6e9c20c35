import StakeQuorum.Codec.CompactSize
import StakeQuorum.FixedBytes

/-! # Typed fields

The units that records are made of: little-endian words, compact sizes, byte strings after their
length, and blocks of a fixed size. Each kind of field has one written form and one reader.
-/

namespace StakeQuorum

/-- A value together with the way it is written. -/
inductive Field
  | u8 (v : UInt8)
  | u16 (v : UInt16)
  | u32 (v : UInt32)
  | u64 (v : UInt64)
  | i64 (v : Int64)
  | size (n : Nat)
  | bytes (bs : Bytes)
  | text (s : Bytes)
  | digest (d : Digest)
  | block {n : Nat} (b : FixedBytes n)

/-- The kind of a field: what a reader has to know before it meets the value. -/
inductive FieldKind
  | u8 | u16 | u32 | u64 | i64 | size | bytes | text | digest
  | block (n : Nat)
  deriving DecidableEq, Repr

namespace Field

def kind : Field → FieldKind
  | u8 _ => .u8
  | u16 _ => .u16
  | u32 _ => .u32
  | u64 _ => .u64
  | i64 _ => .i64
  | size _ => .size
  | bytes _ => .bytes
  | text _ => .text
  | digest _ => .digest
  | @block n _ => .block n

def encode : Field → Bytes
  | u8 v => Bytes.littleEndian 1 v.toNat
  | u16 v => Bytes.littleEndian 2 v.toNat
  | u32 v => Bytes.littleEndian 4 v.toNat
  | u64 v => Bytes.littleEndian 8 v.toNat
  | i64 v => Bytes.littleEndian 8 v.toUInt64.toNat
  | size n => CompactSize.encode n
  | bytes bs => CompactSize.encodeBytes bs
  | text s => CompactSize.encodeBytes s
  | digest d => d.bytes
  | block b => b.bytes

/-- The number field of a kind, cut to its width; `none` for a kind that holds no number. -/
def ofWord? (v : UInt64) : FieldKind → Option Field
  | .u8 => some (u8 v.toUInt8)
  | .u16 => some (u16 v.toUInt16)
  | .u32 => some (u32 v.toUInt32)
  | .u64 => some (u64 v)
  | .i64 => some (i64 v.toInt64)
  | .size => some (size v.toNat)
  | .bytes | .text | .digest | .block _ => none

def encodeAll (fs : List Field) : Bytes := fs.flatMap encode

end Field

namespace Reader

def u8 : Reader UInt8 := do return UInt8.ofNat (← number 1)

def u16 : Reader UInt16 := do return UInt16.ofNat (← number 2)

def u32 : Reader UInt32 := do return UInt32.ofNat (← number 4)

def u64 : Reader UInt64 := do return UInt64.ofNat (← number 8)

def i64 : Reader Int64 := do return (← u64).toInt64

def block (n : Nat) : Reader (FixedBytes n) := do return FixedBytes.pad n (← take n)

def field : FieldKind → Reader Field
  | .u8 => do return .u8 (← u8)
  | .u16 => do return .u16 (← u16)
  | .u32 => do return .u32 (← u32)
  | .u64 => do return .u64 (← u64)
  | .i64 => do return .i64 (← i64)
  | .size => do return .size (← CompactSize.read)
  | .bytes => do return .bytes (← CompactSize.readBytes)
  | .text => do return .text (← CompactSize.readBytes)
  | .digest => do return .digest (← block 32)
  | .block n => do return .block (← block n)

def fields : List FieldKind → Reader (List Field)
  | [] => pure []
  | k :: ks => do return (← field k) :: (← fields ks)

end Reader

end StakeQuorum
