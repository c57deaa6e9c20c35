import StakeQuorum.Amount
import StakeQuorum.Codec.Field

/-! # Accounts

An account has a balance, an owner program and data. Its stored record holds a version, the
balance, the owner and the data; the key is where the record is stored. An account with data is
exempt from rent while it holds two years' rent for its bytes and an overhead.
-/

namespace StakeQuorum

structure Account where
  key : Bytes
  lamports : Amount
  owner : Bytes
  data : Bytes
  deriving DecidableEq, Repr

namespace Account

/-- The program that owns plain wallets. -/
def systemProgram : Bytes := "system"

def recordVersion : UInt8 := 1

def fields (a : Account) : List Field :=
  [.u8 recordVersion, .u64 a.lamports, .text a.owner, .bytes a.data]

def encode (a : Account) : Bytes := Field.encodeAll a.fields

/-- Reads a record of the current version, and nothing after it. -/
def reader (key : Bytes) : Reader (Option Account) := do
  if (← Reader.u8) ≠ recordVersion then return none
  let lamports ← Reader.u64
  let owner ← CompactSize.readBytes
  let data ← CompactSize.readBytes
  return some { key, lamports, owner, data }

def decode? (key record : Bytes) : Option Account := ((reader key).decode? record).join

def text (a : Account) : Bytes :=
  "HostAccount(key=" ++ a.key ++ ", lamports=" ++ Bytes.ofWord a.lamports ++ ", owner=" ++
    a.owner ++ ", data=" ++ Bytes.decimal a.data.length ++ " bytes)"

/-- The balance that exempts an account with so many bytes of data from rent: 3480 for each byte
and year, for two years, with 128 bytes of overhead. -/
def rentMinimum (dataLength : UInt64) : Amount := (128 + dataLength) * 3480 * 2

def rentFor (data : Bytes) : Amount := rentMinimum (UInt64.ofNat data.length)

end Account

end StakeQuorum
