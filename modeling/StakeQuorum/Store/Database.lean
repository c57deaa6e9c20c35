import StakeQuorum.Store.ByteMap

/-! # The database

A map from byte strings to byte strings. A batch of writes takes effect at once, and a cursor
walks the entries that were there when it was made. A database may have a fault: from then on one
kind of access reports a status and has no effect.
-/

namespace StakeQuorum.Store

inductive StatusCode
  | ok | notFound | corruption | notSupported | invalidArgument | ioError
  | other (number : Int)
  deriving DecidableEq, Repr

namespace StatusCode

def ofNumber : Int → StatusCode
  | 0 => ok
  | 1 => notFound
  | 2 => corruption
  | 3 => notSupported
  | 4 => invalidArgument
  | 5 => ioError
  | n => other n

def name : StatusCode → Bytes
  | ok => "OK"
  | notFound => "NotFound"
  | corruption => "Corruption"
  | notSupported => "NotSupported"
  | invalidArgument => "InvalidArgument"
  | ioError => "IOError"
  | other _ => "Unknown"

end StatusCode

structure Status where
  code : StatusCode := .ok
  message : Bytes := []
  deriving DecidableEq, Repr

namespace Status

def isOk (s : Status) : Bool := s.code == .ok

def notFound : Status := { code := .notFound }

def text (s : Status) : Bytes :=
  if s.isOk then "OK" else s.code.name ++ ": " ++ s.message

end Status

/-! ### Batches -/

/-- Writes in the order in which they were added; no value stands for a deletion. -/
abbrev Batch := List (Bytes × Option Bytes)

namespace Batch

def put (b : Batch) (k v : Bytes) : Batch := b ++ [(k, some v)]

def delete (b : Batch) (k : Bytes) : Batch := b ++ [(k, none)]

/-- One write of a batch. -/
def step (m : ByteMap Bytes) : Bytes × Option Bytes → ByteMap Bytes
  | (k, some v) => m.insert k v
  | (k, none) => m.erase k

def applyTo (b : Batch) (m : ByteMap Bytes) : ByteMap Bytes := b.foldl step m

@[simp] theorem applyTo_nil (m : ByteMap Bytes) : applyTo [] m = m := rfl

@[simp] theorem applyTo_cons (w : Bytes × Option Bytes) (b : Batch) (m : ByteMap Bytes) :
    applyTo (w :: b) m = applyTo b (step m w) := rfl

@[simp] theorem applyTo_put (b : Batch) (k v : Bytes) (m : ByteMap Bytes) :
    (b.put k v).applyTo m = (b.applyTo m).insert k v := by
  simp [put, applyTo, step]

@[simp] theorem applyTo_delete (b : Batch) (k : Bytes) (m : ByteMap Bytes) :
    (b.delete k).applyTo m = (b.applyTo m).erase k := by
  simp [delete, applyTo, step]

end Batch

/-! ### Cursors -/

/-- A position in a snapshot: the entries from the current one on. -/
structure Cursor where
  snapshot : ByteMap Bytes
  rest : List (Bytes × Bytes) := []

namespace Cursor

def current? (c : Cursor) : Option (Bytes × Bytes) := c.rest.head?

def first (c : Cursor) : Cursor := { c with rest := c.snapshot.entries }

def seek (c : Cursor) (target : Bytes) : Cursor := { c with rest := c.snapshot.seek target }

def next (c : Cursor) : Cursor := { c with rest := c.rest.tail }

end Cursor

/-! ### Databases -/

inductive Access
  | get | put | write | scan
  deriving DecidableEq, Repr

structure Database where
  contents : ByteMap Bytes := {}
  fault : Option (Access × Status) := none
  deriving DecidableEq

namespace Database

/-- The status that a kind of access reports instead of its result. -/
def faultOn (db : Database) (a : Access) : Option Status :=
  match db.fault with
  | some (b, s) => if a = b then some s else none
  | none => none

/-- Every access works. -/
def Healthy (db : Database) : Prop := db.fault = none

instance (db : Database) : Decidable db.Healthy := inferInstanceAs (Decidable (db.fault = none))

def get (db : Database) (k : Bytes) : Except Status Bytes :=
  match db.faultOn .get with
  | some s => if s.isOk then .ok [] else .error s
  | none =>
    match db.contents.get? k with
    | some v => .ok v
    | none => .error Status.notFound

def contains (db : Database) (k : Bytes) : Bool := (db.get k).toBool

def put (db : Database) (k v : Bytes) : Status × Database :=
  match db.faultOn .put with
  | some s => (s, db)
  | none => ({}, { db with contents := db.contents.insert k v })

def write (db : Database) (b : Batch) : Status × Database :=
  match db.faultOn .write with
  | some s => (s, db)
  | none => ({}, { db with contents := b.applyTo db.contents })

/-- The entries whose keys start with a byte, by walking a cursor. -/
def scan (db : Database) (mark : UInt8) : List (Bytes × Bytes) :=
  (db.contents.seek [mark]).takeWhile fun e => e.1.head? == some mark

/-- What a cursor reports after its walk. -/
def scanStatus (db : Database) : Status := (db.faultOn .scan).getD {}

end Database

def keyIn (mark : UInt8) (k : Bytes) : Bytes := mark :: k

end StakeQuorum.Store
