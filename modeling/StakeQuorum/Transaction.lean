import StakeQuorum.Codec.Field
import StakeQuorum.Sha2
import StakeQuorum.Signature.Scheme

/-! # Transactions

A transaction is a payload signed by the holder of a key at a time. The signature covers a version,
the payload, the signer and the time; the wire form is what is signed, followed by the signature,
and the hash of a transaction is the hash of its wire form.
-/

namespace StakeQuorum

structure Transaction where
  payload : Bytes
  /-- The Base58 text of the signer's public key. -/
  signer : Bytes
  signature : Signature := FixedBytes.zero
  /-- Unix milliseconds. -/
  timestamp : Int64 := 0
  deriving DecidableEq

namespace Transaction

def version : UInt8 := 1

/-- The fields that the signature covers. -/
def fields (tx : Transaction) : List Field :=
  [.u8 version, .bytes tx.payload, .text tx.signer, .i64 tx.timestamp]

def signingMessage (tx : Transaction) : Bytes := Field.encodeAll tx.fields

def encode (tx : Transaction) : Bytes := tx.signingMessage ++ Field.encode (.block tx.signature)

def hash (tx : Transaction) : Digest :=
  ((({} : Hasher).write tx.signingMessage).write tx.signature.bytes).finish.1

def reader : Reader (Option Transaction) := do
  if (← Reader.u8) ≠ version then return none
  let payload ← CompactSize.readBytes
  let signer ← CompactSize.readBytes
  let timestamp ← Reader.i64
  let signature ← Reader.block 64
  return some { payload, signer, signature, timestamp }

def decode? (data : Bytes) : Option Transaction := (reader.decode? data).join

/-- The signer is a public key, and the signature verifies under it. -/
def verifies (s : SignatureScheme) (tx : Transaction) : Bool :=
  match PublicKey.ofBase58? tx.signer with
  | none => false
  | some key => s.verify key tx.signingMessage tx.signature

def signed (s : SignatureScheme) (payload : Bytes) (seed : Seed) (timestamp : Int64) :
    Transaction :=
  let tx : Transaction := { payload, signer := (s.publicKey seed).toBase58, timestamp }
  { tx with signature := s.sign seed tx.signingMessage }

def text (tx : Transaction) : Bytes :=
  "Transaction(hash=" ++ tx.hash.toHex ++ ", signer=" ++ tx.signer ++ ", payload=" ++
    Bytes.decimal tx.payload.length ++ " bytes, timestamp=" ++ Bytes.ofSignedWord tx.timestamp ++
    ")"

theorem hash_eq (tx : Transaction) : tx.hash = sha256 tx.encode := rfl

end Transaction

end StakeQuorum
