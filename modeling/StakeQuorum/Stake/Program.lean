import StakeQuorum.Account.Host
import StakeQuorum.Stake.Instruction

/-! # The stake program

Stakes are created and withdrawn through the account host. Every operation is one change set, so
one that is refused leaves all balances as they were.
-/

namespace StakeQuorum.Stake

open Store

inductive Code
  | ok | argumentError | permissionDenied | stillLocked | insufficientFunds | ownershipError
  | invalidInstruction | invalidAccountData | accountNotFound | hostError
  deriving DecidableEq, Repr

namespace Code

def all : List Code := [ok, argumentError, permissionDenied, stillLocked, insufficientFunds,
  ownershipError, invalidInstruction, invalidAccountData, accountNotFound, hostError]

def name : Code → Bytes
  | ok => "OK"
  | argumentError => "ArgumentError"
  | permissionDenied => "PermissionDenied"
  | stillLocked => "StillLocked"
  | insufficientFunds => "InsufficientFunds"
  | ownershipError => "OwnershipError"
  | invalidInstruction => "InvalidInstruction"
  | invalidAccountData => "InvalidAccountData"
  | accountNotFound => "AccountNotFound"
  | hostError => "HostError"

end Code

inductive StakeError
  | badStaker
  | unsigned (who : Bytes)
  | emptyAccount
  | belowMinimum (amount : Amount)
  | overflow
  | accountNotFound (account : Bytes)
  | foreignAccount (account owner : Bytes)
  | badRecord (account : Bytes)
  | notOwner (requester account : Bytes)
  | locked (until_ : Int64)
  | insufficient (requested staked : Amount)
  | badInstruction (length : Nat)
  | host (e : Host.HostError)
  deriving DecidableEq, Repr

namespace StakeError

def code : StakeError → Code
  | badStaker | emptyAccount | belowMinimum _ | overflow => .argumentError
  | unsigned _ | notOwner .. => .permissionDenied
  | accountNotFound _ => .accountNotFound
  | foreignAccount .. => .ownershipError
  | badRecord _ => .invalidAccountData
  | locked _ => .stillLocked
  | insufficient .. | host (.insufficient ..) => .insufficientFunds
  | badInstruction _ => .invalidInstruction
  | host _ => .hostError

def message : StakeError → Bytes
  | badStaker => "invalid staker address"
  | unsigned who => who ++ " did not sign"
  | emptyAccount => "empty stake account key"
  | belowMinimum amount =>
    "stake amount " ++ Bytes.ofWord amount ++ " below minimum " ++ Bytes.ofWord minimumAmount
  | overflow => "stake amount overflows"
  | accountNotFound account => account
  | foreignAccount account owner => account ++ " is owned by " ++ owner
  | badRecord account => account
  | notOwner requester account => requester ++ " does not own " ++ account
  | locked until_ => "locked until " ++ Bytes.ofSignedWord until_
  | insufficient requested staked =>
    "requested " ++ Bytes.ofWord requested ++ ", staked " ++ Bytes.ofWord staked
  | badInstruction length => "cannot decode " ++ Bytes.decimal length ++ "-byte instruction"
  | host (.insufficient key holds debit) => (Host.HostError.insufficient key holds debit).message
  | host e => e.text

def text (e : StakeError) : Bytes := Host.statusText e.code.name e.message

end StakeError

def defaultProgram : Bytes := "dadbs_stake"

/-- The rent that a stake account holds on top of its stake. -/
def surcharge : Amount := Account.rentMinimum (UInt64.ofNat Record.size)

/-- The record that an operation leaves, or why it was refused, and the database after it. -/
abbrev Settlement := Except StakeError Record × Database

/-- Applies a change set of the program and notes what came of it. -/
def commit (db : Database) (program : Bytes) (signers : List Bytes) (changes : List Change)
    (rejected done : Bytes) (record : Record) : Logged Settlement := do
  match ← Host.apply db program signers changes with
  | (.error e, db) =>
    Log.note .debug Log.Category.stake (rejected ++ " rejected: " ++ e.text)
    return (.error (.host e), db)
  | (.ok (), db) =>
    Log.note .info Log.Category.stake done
    return (.ok record, db)

def checkCreate (signers : List Bytes) (staker account : Bytes) (amount : Amount) :
    Except StakeError Unit :=
  if !Address.isExternal staker then .error .badStaker
  else if staker ∉ signers then .error (.unsigned staker)
  else if account.isEmpty then .error .emptyAccount
  else if amount < minimumAmount then .error (.belowMinimum amount)
  else if Amount.addOverflows amount surcharge then .error .overflow
  else .ok ()

def newRecord (staker : Bytes) (amount : Amount) (lockPeriod : Int64) : Record :=
  { owner := staker, amount, lockedUntil := lockPeriod, active := true }

/-- Moves an amount and the rent of the record from the staker's wallet into a new account. -/
def create (db : Database) (program : Bytes) (signers : List Bytes) (staker account : Bytes)
    (amount : Amount) (lockPeriod : Int64) : Logged Settlement := do
  match checkCreate signers staker account amount with
  | .error e => return (.error e, db)
  | .ok () =>
    let record := newRecord staker amount lockPeriod
    let total := amount + surcharge
    commit db program signers
      [.update staker total 0 none, .create account total program record.layout]
      ("CreateStake " ++ account)
      ("Created stake " ++ account ++ " for " ++ staker ++ ": " ++ Bytes.ofWord amount ++
        " (lock " ++ Bytes.ofSignedWord lockPeriod ++ ")")
      record

/-- The record after a withdrawal, if the requester may withdraw so much from the account. -/
def checkWithdraw (program account requester : Bytes) (amount : Amount) (a : Account) :
    Except StakeError Record :=
  if a.owner ≠ program then .error (.foreignAccount account a.owner)
  else match Record.decode? a.data with
    | none => .error (.badRecord account)
    | some r =>
      if r.owner ≠ requester then .error (.notOwner requester account)
      else if r.isLocked then .error (.locked r.lockedUntil)
      else if r.amount < amount then .error (.insufficient amount r.amount)
      else .ok { r with amount := r.amount - amount }

/-- Moves an amount from a stake back to its owner's wallet. -/
def withdraw (db : Database) (program : Bytes) (signers : List Bytes) (account requester : Bytes)
    (amount : Amount) : Logged Settlement := do
  if requester ∉ signers then return (.error (.unsigned requester), db)
  else match ← Host.account? db account with
    | none => return (.error (.accountNotFound account), db)
    | some a =>
      match checkWithdraw program account requester amount a with
      | .error e => return (.error e, db)
      | .ok record =>
        commit db program signers
          [.update account amount 0 (some record.layout), .update requester 0 amount none]
          ("Withdraw from " ++ account)
          ("Withdrew " ++ Bytes.ofWord amount ++ " from " ++ account ++ ", remaining " ++
            Bytes.ofWord record.amount)
          record

/-- Carries out an instruction for a staker, who must be among the signers. -/
def process (db : Database) (program : Bytes) (signers : List Bytes) (staker account data : Bytes) :
    Logged Settlement := do
  match Instruction.decode? data with
  | none => return (.error (.badInstruction data.length), db)
  | some i =>
    Log.note .trace Log.Category.stake (i.name ++ " for " ++ account)
    match i with
    | .createStake amount lock => create db program signers staker account amount lock
    | .withdraw amount => withdraw db program signers account staker amount

/-! ### Reading -/

def stake? (db : Database) (program account : Bytes) : Logged (Option Record) :=
  (fun a => a.bind fun a => if a.owner = program then Record.decode? a.data else none) <$>
    Host.account? db account

/-- Decodes the stakes of accounts and leaves out those that cannot be decoded. -/
def readStakes : List Account → Logged (List (Bytes × Record))
  | [] => return []
  | a :: rest => do
    match Record.decode? a.data with
    | some r => return (a.key, r) :: (← readStakes rest)
    | none =>
      Log.note .warn Log.Category.stake ("Undecodable stake record in " ++ a.key)
      readStakes rest

/-- Every stake of the program, in the order of the account keys. -/
def stakes (db : Database) (program : Bytes) : Logged (List (Bytes × Record)) := do
  readStakes (← Host.accountsOf db program)

/-- The sum of the active amounts, modulo `2 ^ 64`. -/
def totalOf (stakes : List (Bytes × Record)) : Amount :=
  stakes.foldl (fun sum s => if s.2.active then sum + s.2.amount else sum) 0

def totalStaked (db : Database) (program : Bytes) : Logged Amount :=
  totalOf <$> stakes db program

end StakeQuorum.Stake
