import StakeQuorum.Files.Handle
import StakeQuorum.Log.Format

/-! # Loggers

A logger passes entries that are serious enough and whose category is enabled to its sinks. Each
sink has a level of its own; it writes to the console, to a file or to a collector.
-/

namespace StakeQuorum.Log

/-! ### Sinks -/

inductive Target
  /-- Errors go to the error stream if they stand apart. -/
  | console (colors errorsApart : Bool)
  /-- The number of an open file. A file that could not be opened takes nothing. -/
  | file (handle : Option Nat)
  /-- Keeps entries under a label. -/
  | collector (label : Nat)
  | nothing
  deriving DecidableEq, Repr

structure Sink where
  level : Level := .info
  format : Format := {}
  target : Target := .console true false
  /-- Lines do not wait. -/
  flushes : Bool := false
  deriving DecidableEq, Repr

/-- Where sinks write to. -/
structure Outlets where
  output : Bytes := []
  errors : Bytes := []
  /-- Output goes to a terminal, which shows colours. -/
  terminal : Bool := false
  files : Files.Tree := {}
  /-- The files that have been opened, by number. -/
  handles : List Files.Handle := []
  collected : List (Nat × Entry) := []

def Outlets.edit (o : Outlets) (n : Nat)
    (f : Files.Handle → Files.Tree → Files.Handle × Files.Tree) : Outlets :=
  match o.handles[n]? with
  | none => o
  | some h =>
    let (h, files) := f h o.files
    { o with handles := o.handles.set n h, files }

def escape : UInt8 := 27

def colour : Level → Bytes
  | .trace => escape :: "[90m"
  | .debug => escape :: "[36m"
  | .info => escape :: "[32m"
  | .warn => escape :: "[33m"
  | .error => escape :: "[31m"
  | .fatal => escape :: "[35;1m"
  | .off | .other _ => escape :: "[0m"

def plainColour : Bytes := escape :: "[0m"

namespace Sink

/-- Opens a file for a sink. What the file held is kept if lines are appended. -/
def openFile (path : Files.Path) (appends : Bool) (level : Level) (format : Format) (o : Outlets)
    (flushes : Bool := false) : Sink × Outlets :=
  match o.files.openFile path appends with
  | .ok (h, files) =>
    ({ level, format, flushes, target := .file (some o.handles.length) },
      { o with handles := o.handles ++ [h], files })
  | .error _ => ({ level, format, flushes, target := .file none }, o)

def isOpen (s : Sink) : Bool := s.target != .file none

def flush (s : Sink) (o : Outlets) : Outlets :=
  match s.target with
  | .file (some n) => o.edit n Files.Handle.flush
  | _ => o

/-- The line of an entry on the console, which ends at its first zero byte. -/
def consoleLine (s : Sink) (e : Entry) (coloured : Bool) : Bytes :=
  let line := Bytes.untilNul (e.render s.format)
  (if coloured then colour e.level ++ line ++ plainColour else line) ++ "\n"

/-- Writes an entry that is serious enough for the sink. -/
def write (s : Sink) (e : Entry) (o : Outlets) : Outlets :=
  if ¬s.level ≤ e.level then o
  else match s.target with
    | .console colors errorsApart =>
      if errorsApart ∧ Level.error ≤ e.level then
        { o with errors := o.errors ++ s.consoleLine e false }
      else { o with output := o.output ++ s.consoleLine e (colors && o.terminal) }
    | .file (some n) =>
      let o := o.edit n (·.writeLine (e.render s.format))
      if s.flushes then s.flush o else o
    | .file none | .nothing => o
    | .collector label => { o with collected := o.collected ++ [(label, e)] }

end Sink

/-! ### Loggers -/

structure Logger where
  level : Level := .info
  /-- The enabled categories, unless all are. -/
  enabled : Option (List Bytes) := none
  /-- All sinks that were made, by number. -/
  sinks : List Sink := []
  /-- The numbers of the sinks that get entries, in the order in which they were added. -/
  attached : List Nat := []
  started : Bool := false

namespace Logger

def add (l : Logger) (s : Sink) : Nat × Logger :=
  (l.sinks.length, { l with sinks := l.sinks ++ [s], attached := l.attached ++ [l.sinks.length] })

def remove (l : Logger) (n : Nat) : Logger := { l with attached := l.attached.filter (· != n) }

def clear (l : Logger) : Logger := { l with attached := [] }

def setSinkLevel (l : Logger) (n : Nat) (level : Level) : Logger :=
  { l with sinks := l.sinks.modify n fun s => { s with level } }

/-- Adds a console, unless the logger has been started already. -/
def start (l : Logger) : Logger :=
  if l.started then l else { (l.add {}).2 with started := true }

def flushSink (l : Logger) (o : Outlets) (n : Nat) : Outlets :=
  l.sinks[n]?.elim o fun s => s.flush o

def flush (l : Logger) (o : Outlets) : Outlets := l.attached.foldl l.flushSink o

/-- Closes the sinks that neither get entries nor are kept by anyone. -/
def close (l : Logger) (kept : List Nat) (o : Outlets) : Outlets :=
  ((List.range l.sinks.length).filter fun n => !(l.attached ++ kept).contains n).foldl l.flushSink o

/-- Lets nothing wait and takes all sinks away. -/
def shutdown (l : Logger) (o : Outlets) : Logger × Outlets :=
  ({ l.clear with started := false }, l.flush o)

/-- Restricts the categories to the enabled ones, of which this is one. -/
def enable (l : Logger) (category : Bytes) : Logger :=
  { l with enabled := some (category :: l.enabled.getD []) }

/-- Takes a category away. If all were enabled, only the known ones stay. -/
def disable (l : Logger) (category : Bytes) : Logger :=
  { l with enabled := some ((l.enabled.getD Category.known).filter (· != category)) }

def enableAll (l : Logger) : Logger := { l with enabled := none }

def isEnabled (l : Logger) (category : Bytes) : Bool :=
  l.enabled.all fun cs => cs.contains category

def admits (l : Logger) (level : Level) (category : Bytes) : Bool :=
  level != .off && decide (l.level ≤ level) && l.isEnabled category

def writeTo (l : Logger) (e : Entry) (o : Outlets) (n : Nat) : Outlets :=
  l.sinks[n]?.elim o fun s => s.write e o

def log (l : Logger) (e : Entry) (o : Outlets) : Outlets :=
  if l.admits e.level e.category then l.attached.foldl (l.writeTo e) o else o

/-- The most that a message made from a template holds. -/
def longestMessage : Nat := 4095

/-- A message made from a template, which ends at its first zero byte. -/
def fromTemplate (message : Bytes) : Bytes := (Bytes.untilNul message).take longestMessage

end Logger

end StakeQuorum.Log
