import StakeQuorum.Stake.Record

/-! # Instructions

What a program is asked to do travels as a version, a tag and an amount; creating a stake also
carries a lock period. Only an exact encoding is understood.
-/

namespace StakeQuorum.Stake

inductive Instruction
  | createStake (amount : Amount) (lockPeriod : Int64)
  | withdraw (amount : Amount)
  deriving DecidableEq, Repr

namespace Instruction

def version : UInt8 := 1

def createTag : UInt8 := 0

def withdrawTag : UInt8 := 1

/-- The name of an instruction's kind, read off its tag. -/
def tagName (tag : UInt8) : Bytes :=
  if tag = createTag then "CreateStake" else if tag = withdrawTag then "Withdraw" else "Unknown"

def tag : Instruction → UInt8
  | createStake .. => createTag
  | withdraw _ => withdrawTag

def name (i : Instruction) : Bytes := tagName i.tag

def amount : Instruction → Amount
  | createStake amount _ => amount
  | withdraw amount => amount

def lockPeriod : Instruction → Int64
  | createStake _ lock => lock
  | withdraw _ => 0

def header (tag : UInt8) (amount : Amount) : Bytes :=
  Field.encodeAll [.u8 version, .u8 tag, .u64 amount]

def encode : Instruction → Bytes
  | createStake amount lock => header createTag amount ++ Field.encode (.i64 lock)
  | withdraw amount => header withdrawTag amount

/-- The encoding of fields whose tag may be unknown. Only the known tag of a creation brings the
lock period with it. -/
def encodeFields (tag : UInt8) (amount : Amount) (lock : Int64) : Bytes :=
  header tag amount ++ if tag = createTag then Field.encode (.i64 lock) else []

def reader : Reader (Option Instruction) := do
  if (← Reader.u8) ≠ version then return none
  let tag ← Reader.u8
  let amount ← Reader.u64
  if tag = createTag then return some (createStake amount (← Reader.i64))
  else if tag = withdrawTag then return some (withdraw amount)
  else return none

def decode? (data : Bytes) : Option Instruction := (reader.decode? data).join

end Instruction

end StakeQuorum.Stake
