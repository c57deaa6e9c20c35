import StakeQuorum.Sha2
import StakeQuorum.Signature.Edwards
import StakeQuorum.Signature.Scheme

/-! # Ed25519

Signatures over the Edwards curve with SHA-512. A signature is an encoded point `R` and a scalar
`S` below the group order. It verifies when `S B - k A` is encoded exactly as `R`, where `k` is the
hash of `R`, the public key `A` as it was given, and the message.
-/

namespace StakeQuorum.Ed25519

open Edwards

/-- The number that the SHA-512 hash of a byte string stands for, modulo the group order. -/
def hashScalar (bs : Bytes) : Nat := Bytes.ofLittleEndian (sha512 bs).bytes % groupOrder

/-- The secret scalar of a seed: bit 254 is set, and the lowest three bits are cleared. -/
def secretScalar (seed : Seed) : Nat :=
  let n := Bytes.ofLittleEndian ((sha512 seed.bytes).bytes.take 32)
  (1 <<< 254) + n % (1 <<< 254) / 8 * 8

/-- The half of a seed's hash that makes the nonces of its signatures. -/
def nonceKey (seed : Seed) : Bytes := (sha512 seed.bytes).bytes.drop 32

def publicKey (seed : Seed) : PublicKey :=
  FixedBytes.pad 32 (Point.smul (secretScalar seed) Point.base).encode

def sign (seed : Seed) (message : Bytes) : Signature :=
  let key := publicKey seed
  let r := hashScalar (nonceKey seed ++ message)
  let point := (Point.smul r Point.base).encode
  let k := hashScalar (point ++ key.bytes ++ message)
  let s := (r + k * secretScalar seed) % groupOrder
  FixedBytes.pad 64 (point ++ Bytes.littleEndian 32 s)

def verify (key : PublicKey) (message : Bytes) (signature : Signature) : Bool :=
  let r := signature.bytes.take 32
  let s := Bytes.ofLittleEndian (signature.bytes.drop 32)
  match Point.decode? key.bytes with
  | none => false
  | some a =>
    let k := hashScalar (r ++ key.bytes ++ message)
    decide (s < groupOrder) &&
      ((Point.smul s Point.base).add (Point.smul k a.neg)).encode == r

def scheme : SignatureScheme := ⟨publicKey, sign, verify⟩

end StakeQuorum.Ed25519
