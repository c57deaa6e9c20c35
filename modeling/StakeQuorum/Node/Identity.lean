import StakeQuorum.FixedBytes

/-! # Node identities

A node that is not given an identity takes a random one: 122 random bits, a version and a variant,
written as five groups of hexadecimal digits.
-/

namespace StakeQuorum.Node

/-- Sixteen random bytes with the marks of a random identifier. -/
def markRandom (entropy : FixedBytes 16) : FixedBytes 16 :=
  let versioned := entropy.set 6 (entropy.get 6 &&& 0x0f ||| 0x40)
  versioned.set 8 (versioned.get 8 &&& 0x3f ||| 0x80)

/-- Cuts a byte string into parts of given lengths, with a hyphen between them. -/
def hyphenate : List Nat → Bytes → Bytes
  | [], _ => []
  | [n], s => s.take n
  | n :: ns, s => s.take n ++ '-'.toUInt8 :: hyphenate ns (s.drop n)

def randomId (entropy : FixedBytes 16) : Bytes :=
  hyphenate [8, 4, 4, 4, 12] (markRandom entropy).toHex

end StakeQuorum.Node
