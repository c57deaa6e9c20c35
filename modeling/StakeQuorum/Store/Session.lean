import StakeQuorum.Store.Database

/-! # Sessions

A session is a database in use together with the cursors that were made on it. Cursors are numbered
in the order in which they were made; what is written later does not reach them.
-/

namespace StakeQuorum.Store

inductive Move
  | first
  | seek (target : Bytes)
  | next
  deriving DecidableEq, Repr

def Cursor.move (c : Cursor) : Move → Cursor
  | .first => c.first
  | .seek target => c.seek target
  | .next => c.next

namespace Database

def delete (db : Database) (k : Bytes) : Database := { db with contents := db.contents.erase k }

def size (db : Database) : Nat := db.contents.size

/-- A cursor on what is held now. It stands on no entry before it is moved to one. -/
def cursor (db : Database) : Cursor := { snapshot := db.contents }

end Database

inductive Operation
  | put (key value : Bytes)
  | delete (key : Bytes)
  | write (batch : Batch)
  | openCursor
  | move (cursor : Nat) (m : Move)
  deriving DecidableEq

structure Session where
  db : Database := {}
  /-- The oldest first. -/
  cursors : List Cursor := []

namespace Session

def current? (s : Session) (cursor : Nat) : Option (Bytes × Bytes) :=
  s.cursors[cursor]?.bind Cursor.current?

/-- What an operation reports, and the session that it leaves. -/
def step (s : Session) : Operation → Status × Session
  | .put k v =>
    let (status, db) := s.db.put k v
    (status, { s with db })
  | .delete k => ({}, { s with db := s.db.delete k })
  | .write b =>
    let (status, db) := s.db.write b
    (status, { s with db })
  | .openCursor => ({}, { s with cursors := s.cursors ++ [s.db.cursor] })
  | .move i m => ({}, { s with cursors := s.cursors.modify i (·.move m) })

/-- Operations one after the other, with what each of them reports. -/
def run (s : Session) : List Operation → List Status × Session
  | [] => ([], s)
  | o :: os =>
    let (status, s) := s.step o
    let (statuses, s) := run s os
    (status :: statuses, s)

end Session

end StakeQuorum.Store
