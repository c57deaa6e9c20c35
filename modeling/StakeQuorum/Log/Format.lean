import StakeQuorum.Files.Path
import StakeQuorum.Log.Note
import StakeQuorum.Time.Calendar

/-! # Log lines

An entry is a note with its time, its thread and its place in a program. A format says which of them
stand before the message.
-/

namespace StakeQuorum.Log

structure Entry where
  level : Level
  category : Bytes
  message : Bytes
  /-- Empty if the place is unknown. -/
  file : Files.Path := []
  line : Int := 0
  /-- In milliseconds since 1970. -/
  time : Int64 := 0
  thread : Option Nat := none
  deriving DecidableEq, Repr

/-- What stands before the message. -/
structure Format where
  timestamp : Bool := true
  level : Bool := true
  category : Bool := true
  thread : Bool := false
  location : Bool := false
  deriving DecidableEq, Repr

def Format.full : Format := { thread := true, location := true }

def padRight (width : Nat) (s : Bytes) : Bytes :=
  s ++ List.replicate (width - s.length) ' '.toUInt8

def bracketed (s : Bytes) : Bytes := "[" ++ s ++ "] "

def threadText : Option Nat → Bytes
  | some n => Bytes.decimal n
  | none => "thread::id of a non-executing thread"

namespace Entry

/-- The categories that are printed: all but the empty and the default one. -/
def hasCategory (e : Entry) : Bool := e.category != [] && e.category != Category.default

/-- The line of an entry. -/
def render (e : Entry) (f : Format) : Bytes :=
  (if f.timestamp then Calendar.text e.time ++ " " else []) ++
  (if f.level then bracketed (padRight 5 e.level.name) else []) ++
  (if f.category && e.hasCategory then bracketed e.category else []) ++
  (if f.thread then bracketed (threadText e.thread) else []) ++
  (if f.location && e.file != []
    then Files.Path.baseName e.file ++ ":" ++ Bytes.signedDecimal e.line ++ " " else []) ++
  e.message

end Entry

end StakeQuorum.Log
