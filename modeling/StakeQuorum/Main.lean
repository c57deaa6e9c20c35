import Std.Time.DateTime.Timestamp
import StakeQuorum.Daemon.Footprint

/-! # Command line

The daemon as a program. It looks up what its run depends on, prints what the run prints and writes
the files that the run leaves. It serves until its input ends.
-/

namespace StakeQuorum.Daemon

def bytesOf (s : String) : Bytes := s.toUTF8.toList

def nameOf? (bs : Bytes) : Option String := String.fromUTF8? ⟨bs.toArray⟩

/-- The home directory in an entry of the password database, if it is the user's. -/
def homeIn? (user entry : Bytes) : Option Bytes :=
  match Bytes.pieces ':'.toUInt8 entry with
  | [_, _, number, _, _, home, _] => if number = user then some home else none
  | _ => none

def userIn? (line : Bytes) : Option Bytes :=
  match Bytes.pieces '\t'.toUInt8 line with
  | name :: number :: _ => if name = ("Uid:" : Bytes) then some number else none
  | _ => none

/-- The home directory of the user as far as the local files tell it. -/
def lookUpHome : IO (Option Bytes) := do
  try
    let status ← IO.FS.readBinFile "/proc/self/status"
    let some user := (Bytes.lines status.toList).findSome? userIn? | return none
    let entries ← IO.FS.readBinFile "/etc/passwd"
    return (Bytes.lines entries.toList).findSome? (homeIn? user)
  catch _ => return none

def lookUp (names : List Bytes) : IO Environment := do
  names.foldlM (fun env name => do
    let some n := nameOf? name | return env
    return (← IO.getEnv n).elim env fun value => env.define name (bytesOf value))
    { userHome := ← lookUpHome }

/-- Something that can be read stands at a path. A path that ends with `/.` names a directory. -/
def opens (path : String) : IO Bool := do
  try
    let _ ← IO.FS.Handle.mk path .read
    return true
  catch _ => return false

def visit (t : Files.Tree) (p : Files.Path) : IO Files.Tree := do
  let some name := nameOf? p | return t
  if ← opens (name ++ "/.") then return (t.makeDirectories p).2
  try
    let text ← IO.FS.readBinFile name
    return (t.write p text.toList).toOption.getD t
  catch _ => return t

def leave (before after : Files.Tree) : IO Unit := do
  for (p, e) in before.changes after do
    if let some name := nameOf? p then
      match e with
      | .directory => IO.FS.createDirAll name
      | .file text => IO.FS.writeBinFile name ⟨text.toArray⟩

def now : IO Int64 := do
  return Int64.ofInt (← Std.Time.Timestamp.now).toMillisecondsSinceUnixEpoch.val

/-- Looks up what a run with these arguments depends on. -/
def survey (arguments : List Bytes) : IO Circumstances := do
  let env ← lookUp (variableNames arguments)
  let path := configPath env (settingsOf arguments)
  let found ← (Files.Path.along path).foldlM visit {}
  let text := (found.read path).toOption.getD []
  let environment ← lookUp (variableNames (text :: arguments))
  let files ← (paths environment arguments text).foldlM visit {}
  let random ← IO.getRandomBytes 16
  return {
    environment, files
    terminal := ← (← IO.getStdout).isTty
    newId := Node.randomId (FixedBytes.pad 16 random.toList)
    time := ← now
    thread := some (← IO.getTID).toNat }

/-- Shows what was added to the outlets. -/
def present (before after : Log.Outlets) : IO Unit := do
  let output ← IO.getStdout
  output.write ⟨(after.output.drop before.output.length).toArray⟩
  output.flush
  let errors ← IO.getStderr
  errors.write ⟨(after.errors.drop before.errors.length).toArray⟩
  errors.flush
  leave before.files after.files

partial def waitForEnd (input : IO.FS.Stream) : IO Unit := do
  if (← input.getLine).isEmpty then return
  waitForEnd input

end StakeQuorum.Daemon

open StakeQuorum StakeQuorum.Daemon

def main (args : List String) : IO UInt32 := do
  let arguments := args.map bytesOf
  let w ← survey arguments
  let progress := start w arguments
  let begun := progress.soFar.outlets
  present { files := w.files } begun
  if let .serving _ := progress then waitForEnd (← IO.getStdin)
  let run := progress.finish { w with time := ← now }
  present begun run.outlets
  return run.exit.toUInt32
