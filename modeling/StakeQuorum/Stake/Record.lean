import StakeQuorum.Address
import StakeQuorum.Amount
import StakeQuorum.Codec.Field

/-! # Stake records

A stake is an account of the stake program whose data is a record of sixty-two bytes: a version,
the external address of the staker, the amount, a lock and a flag.
-/

namespace StakeQuorum.Stake

structure Record where
  /-- The external address of the staker. -/
  owner : Bytes
  amount : Amount
  /-- The stake is locked while this is positive. -/
  lockedUntil : Int64 := 0
  active : Bool
  deriving DecidableEq, Repr

namespace Record

def version : UInt8 := 1

def size : Nat := 1 + Address.externalLength + 8 + 8 + 1

def isLocked (r : Record) : Bool := 0 < r.lockedUntil

/-- The bytes of a record, whatever the length of its owner. -/
def layout (r : Record) : Bytes :=
  Field.encode (.u8 version) ++ r.owner ++ Field.encode (.u64 r.amount) ++
    Field.encode (.i64 r.lockedUntil) ++ Field.encode (.u8 (if r.active then 1 else 0))

/-- A record can be written only if its owner has the length of an external address. -/
inductive EncodeError
  | badOwnerLength
  deriving DecidableEq, Repr

def EncodeError.message : EncodeError → Bytes
  | .badOwnerLength => "stake owner must be " ++ Bytes.decimal Address.externalLength ++ " bytes"

def encode (r : Record) : Except EncodeError Bytes :=
  if r.owner.length ≠ Address.externalLength then .error .badOwnerLength else .ok r.layout

/-- Reads a record of the current version with a well-formed owner and a flag of zero or one. -/
def reader : Reader (Option Record) := do
  if (← Reader.u8) ≠ version then return none
  let owner ← Reader.take Address.externalLength
  let amount ← Reader.u64
  let lockedUntil ← Reader.i64
  let flag ← Reader.u8
  if !Address.isExternal owner || 1 < flag then return none
  return some { owner, amount, lockedUntil, active := flag == 1 }

def decode? (data : Bytes) : Option Record := (reader.decode? data).join

def text (r : Record) : Bytes :=
  "StakeAccount(owner=" ++ r.owner ++ ", amount=" ++ Bytes.ofWord r.amount ++ ", lockedUntil=" ++
    Bytes.ofSignedWord r.lockedUntil ++ ", active=" ++ (if r.active then "yes" else "no") ++ ")"

end Record

/-- The smallest stake that may be created: ten tokens. -/
def minimumAmount : Amount := 10 * Amount.perToken

end StakeQuorum.Stake
