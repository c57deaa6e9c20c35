import StakeQuorum.Base58
import StakeQuorum.FixedBytes

/-! # Keys and signatures

A signature scheme derives a public key from a seed, signs with the seed and verifies with the
public key. Public keys travel as Base58 text.
-/

namespace StakeQuorum

abbrev Seed := FixedBytes 32

abbrev PublicKey := FixedBytes 32

abbrev Signature := FixedBytes 64

namespace PublicKey

def toBase58 (k : PublicKey) : Bytes := Base58.encode k.bytes

/-- The key that a Base58 text stands for, if that is exactly thirty-two bytes. -/
def ofBase58? (s : Bytes) : Option PublicKey := (Base58.decode? s).bind (FixedBytes.ofBytes? 32)

end PublicKey

structure SignatureScheme where
  publicKey : Seed → PublicKey
  sign : Seed → Bytes → Signature
  verify : PublicKey → Bytes → Signature → Bool

/-- What is signed with a seed verifies under the seed's public key. -/
def SignatureScheme.Correct (s : SignatureScheme) : Prop :=
  ∀ seed message, s.verify (s.publicKey seed) message (s.sign seed message) = true

end StakeQuorum
