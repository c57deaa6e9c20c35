import StakeQuorum.Account.Record
import StakeQuorum.Log.Note
import StakeQuorum.Store.Database

/-! # The account host

The host keeps every account in the database and applies change sets on behalf of programs, as a
whole or not at all. Only its owner may change an account's data or take from it, except that a
wallet that signed may pay. A change set takes away as much as it gives, new accounts included.
-/

namespace StakeQuorum

open Store

/-- One element of a change set. -/
inductive Change
  | create (key : Bytes) (lamports : Amount) (owner data : Bytes)
  | update (key : Bytes) (debit credit : Amount) (newData : Option Bytes)
  deriving DecidableEq, Repr

def Change.key : Change → Bytes
  | create key _ _ _ => key
  | update key _ _ _ => key

namespace Host

inductive Code
  | ok | accountExists | accountNotFound | insufficientLamports | notRentExempt
  | permissionDenied | unbalanced | invalidArgument | storageError
  deriving DecidableEq, Repr

namespace Code

def all : List Code := [ok, accountExists, accountNotFound, insufficientLamports, notRentExempt,
  permissionDenied, unbalanced, invalidArgument, storageError]

def name : Code → Bytes
  | ok => "OK"
  | accountExists => "AccountExists"
  | accountNotFound => "AccountNotFound"
  | insufficientLamports => "InsufficientLamports"
  | notRentExempt => "NotRentExempt"
  | permissionDenied => "PermissionDenied"
  | unbalanced => "Unbalanced"
  | invalidArgument => "InvalidArgument"
  | storageError => "StorageError"

end Code

inductive HostError
  | emptyCaller
  | emptyKey
  | repeatedKey (key : Bytes)
  | emptyOwner (key : Bytes)
  | accountExists (key : Bytes)
  | newBelowRent (key : Bytes) (holds needs : Amount)
  | overflow
  | accountNotFound (key : Bytes)
  | foreignDebit (caller key : Bytes)
  | unsignedDebit (key : Bytes)
  | insufficient (key : Bytes) (holds debit : Amount)
  | foreignData (caller key : Bytes)
  | belowRent (key : Bytes)
  | unbalanced (debits credits : Amount)
  | unreadable (key : Bytes)
  | storage (status : Status)
  deriving DecidableEq, Repr

namespace HostError

def code : HostError → Code
  | emptyCaller | emptyKey | repeatedKey _ | emptyOwner _ | overflow => .invalidArgument
  | accountExists _ => .accountExists
  | newBelowRent .. | belowRent _ => .notRentExempt
  | accountNotFound _ => .accountNotFound
  | foreignDebit .. | unsignedDebit _ | foreignData .. => .permissionDenied
  | insufficient .. => .insufficientLamports
  | unbalanced .. => .unbalanced
  | unreadable _ | storage _ => .storageError

def message : HostError → Bytes
  | emptyCaller => "empty caller program"
  | emptyKey => "empty account key"
  | repeatedKey key => "account " ++ key ++ " appears twice in change set"
  | emptyOwner key => "empty owner for " ++ key
  | accountExists key => key
  | newBelowRent key holds needs =>
    key ++ " holds " ++ Bytes.ofWord holds ++ ", needs " ++ Bytes.ofWord needs
  | overflow => "lamport overflow"
  | accountNotFound key => key
  | foreignDebit caller key => caller ++ " cannot debit " ++ key
  | unsignedDebit key => "wallet " ++ key ++ " did not sign"
  | insufficient key holds debit =>
    key ++ " holds " ++ Bytes.ofWord holds ++ ", debit " ++ Bytes.ofWord debit
  | foreignData caller key => caller ++ " cannot modify data of " ++ key
  | belowRent key => key ++ " would drop below the rent-exempt minimum"
  | unbalanced debits credits =>
    "debits " ++ Bytes.ofWord debits ++ " != credits " ++ Bytes.ofWord credits
  | unreadable key => "unreadable account " ++ key
  | storage status => status.text

end HostError

/-- A code's name, followed by a message unless that is empty. -/
def statusText (name message : Bytes) : Bytes :=
  if message.isEmpty then name else name ++ ": " ++ message

def HostError.text (e : HostError) : Bytes := statusText e.code.name e.message

/-- The name space of accounts in the database. -/
def accountMark : UInt8 := 'a'.toUInt8

def accountKey (key : Bytes) : Bytes := keyIn accountMark key

/-! ### Reading -/

/-- The account under a key, if there is a record and it can be read. -/
def account? (db : Database) (key : Bytes) : Logged (Option Account) := do
  match db.get (accountKey key) with
  | .error s =>
    if s.code ≠ .notFound then
      Log.note .warn Log.Category.db ("Account read failed for " ++ key ++ ": " ++ s.text)
    return none
  | .ok record =>
    match Account.decode? key record with
    | some a => return some a
    | none =>
      Log.note .warn Log.Category.db ("Corrupt account record for " ++ key)
      return none

/-- Decodes the records of a scan and leaves out those that cannot be read. -/
def readAll : List (Bytes × Bytes) → Logged (List Account)
  | [] => return []
  | (k, record) :: es => do
    let key := k.tail
    match Account.decode? key record with
    | some a => return a :: (← readAll es)
    | none =>
      Log.note .warn Log.Category.db ("Skipping corrupt account record " ++ key)
      readAll es

def accounts (db : Database) : Logged (List Account) := do
  let all ← readAll (db.scan accountMark)
  if !db.scanStatus.isOk then
    Log.note .error Log.Category.db ("Account scan failed: " ++ db.scanStatus.text)
  return all

def accountsOf (db : Database) (owner : Bytes) : Logged (List Account) :=
  (fun all => all.filter (·.owner == owner)) <$> accounts db

/-- The sum of all balances, modulo `2 ^ 64`. -/
def totalLamports (db : Database) : Logged Amount :=
  (fun all => all.foldl (fun sum a => sum + a.lamports) 0) <$> accounts db

/-! ### Change sets -/

/-- What the changes looked at so far amount to. -/
structure Staging where
  /-- The accounts as they will be. -/
  staged : ByteMap Account := {}
  debits : Amount := 0
  credits : Amount := 0

namespace Staging

def create (s : Staging) (key : Bytes) (lamports : Amount) (owner data : Bytes) (taken : Bool) :
    Except HostError Staging :=
  if owner.isEmpty then .error (.emptyOwner key)
  else if taken then .error (.accountExists key)
  else if lamports < Account.rentFor data then
    .error (.newBelowRent key lamports (Account.rentFor data))
  else if Amount.addOverflows s.credits lamports then .error .overflow
  else .ok { s with
    staged := s.staged.insert key { key, lamports, owner, data }
    credits := s.credits + lamports }

/-- The caller may take `debit` from an account. -/
def checkDebit (caller : Bytes) (signers : List Bytes) (a : Account) (debit : Amount) :
    Except HostError Unit :=
  if debit = 0 then .ok ()
  else if a.owner ≠ caller ∧ a.owner ≠ Account.systemProgram then
    .error (.foreignDebit caller a.key)
  else if a.owner ≠ caller ∧ a.key ∉ signers then .error (.unsignedDebit a.key)
  else if a.lamports < debit then .error (.insufficient a.key a.lamports debit)
  else .ok ()

def update (s : Staging) (caller : Bytes) (signers : List Bytes) (a : Account)
    (debit credit : Amount) (newData : Option Bytes) : Except HostError Staging := do
  checkDebit caller signers a debit
  if newData.isSome ∧ a.owner ≠ caller then .error (.foreignData caller a.key)
  else if Amount.addOverflows s.debits debit || Amount.addOverflows s.credits credit ||
      Amount.addOverflows (a.lamports - debit) credit then .error .overflow
  else
    let lamports := a.lamports - debit + credit
    let data := newData.getD a.data
    if !data.isEmpty ∧ lamports ≠ 0 ∧ lamports < Account.rentFor data then .error (.belowRent a.key)
    else .ok {
      staged := s.staged.insert a.key { a with lamports, data }
      debits := s.debits + debit
      credits := s.credits + credit }

end Staging

/-- Stages one change against the accounts in the database. -/
def stage (db : Database) (caller : Bytes) (signers : List Bytes) (s : Staging) (c : Change) :
    Logged (Except HostError Staging) := do
  if c.key.isEmpty then return .error .emptyKey
  else if s.staged.contains c.key then return .error (.repeatedKey c.key)
  else match c with
    | .create key lamports owner data =>
      return s.create key lamports owner data (db.contains (accountKey key))
    | .update key debit credit newData =>
      match ← account? db key with
      | none => return .error (.accountNotFound key)
      | some a => return s.update caller signers a debit credit newData

def stageAll (db : Database) (caller : Bytes) (signers : List Bytes) :
    List Change → Staging → Logged (Except HostError Staging)
  | [], s => return .ok s
  | c :: cs, s => do
    match ← stage db caller signers s c with
    | .error e => return .error e
    | .ok s => stageAll db caller signers cs s

def Staging.batch (s : Staging) : Batch :=
  s.staged.entries.foldl (fun b (key, a) => b.put (accountKey key) a.encode) []

/-- Applies a change set on behalf of a program. -/
def apply (db : Database) (caller : Bytes) (signers : List Bytes) (changes : List Change) :
    Logged (Except HostError Unit × Database) := do
  if caller.isEmpty then return (.error .emptyCaller, db)
  else if changes.isEmpty then return (.ok (), db)
  else match ← stageAll db caller signers changes {} with
    | .error e => return (.error e, db)
    | .ok s =>
      if s.debits ≠ s.credits then return (.error (.unbalanced s.debits s.credits), db)
      else
        let (status, db) := db.write s.batch
        if status.isOk then
          Log.note .trace Log.Category.db
            ("Applied " ++ Bytes.decimal changes.length ++ " account changes for " ++ caller)
          return (.ok (), db)
        else
          Log.note .error Log.Category.db
            ("Change set from " ++ caller ++ " failed to commit: " ++ status.text)
          return (.error (.storage status), db)

/-! ### Deposits -/

/-- The account that a deposit leaves behind: a new wallet, or the old account with more. -/
def credited (db : Database) (key : Bytes) (lamports : Amount) :
    Option Account → Except HostError Account
  | some a =>
    if Amount.addOverflows a.lamports lamports then .error .overflow
    else .ok { a with lamports := a.lamports + lamports }
  | none =>
    if db.contains (accountKey key) then .error (.unreadable key)
    else .ok { key, lamports, owner := Account.systemProgram, data := [] }

/-- Funds an account; a key without a record becomes a wallet. -/
def deposit (db : Database) (key : Bytes) (lamports : Amount) :
    Logged (Except HostError Unit × Database) := do
  if key.isEmpty then return (.error .emptyKey, db)
  else match credited db key lamports (← account? db key) with
    | .error e => return (.error e, db)
    | .ok a =>
      let (status, db) := db.put (accountKey key) a.encode
      return (if status.isOk then .ok () else .error (.storage status), db)

end Host

end StakeQuorum
