import StakeQuorum.Codec.Reader

/-! # Compact sizes

A size is written in one, three, five or nine bytes: small values stand for themselves, and the
markers 253, 254 and 255 announce two, four or eight little-endian bytes. Reading accepts only
the shortest form and no size above `maxSize`.
-/

namespace StakeQuorum.CompactSize

/-- The largest size that is read, 32 MiB. -/
def maxSize : Nat := 0x02000000

/-- The shortest form of a size. -/
def encode (n : Nat) : Bytes :=
  if n < 253 then [UInt8.ofNat n]
  else if n ≤ 0xFFFF then 253 :: Bytes.littleEndian 2 n
  else if n ≤ 0xFFFFFFFF then 254 :: Bytes.littleEndian 4 n
  else 255 :: Bytes.littleEndian 8 n

/-- A number of `k` bytes that is at least `least`, so that no shorter form holds it. -/
def wide (k least : Nat) : Reader Nat := do
  let n ← Reader.number k
  if n < least then Reader.fail .nonCanonicalSize else return n

def afterMarker (marker : Nat) : Reader Nat :=
  if marker < 253 then pure marker
  else if marker = 253 then wide 2 253
  else if marker = 254 then wide 4 0x10000
  else wide 8 0x100000000

def read : Reader Nat := do
  let marker ← Reader.number 1
  let n ← afterMarker marker
  if maxSize < n then Reader.fail .sizeTooLarge else return n

def encodeBytes (bs : Bytes) : Bytes := encode bs.length ++ bs

def readBytes : Reader Bytes := do
  let n ← read
  let left ← Reader.available
  if left < n then Reader.fail .lengthExceedsData else Reader.take n

end StakeQuorum.CompactSize
