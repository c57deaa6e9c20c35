import StakeQuorum.Files.Tree

/-! # Open files

What is written to an open file waits until the file is flushed, the buffer is full or a large text
is written. A file that was opened for appending takes bytes at its end. Any other file takes them
where the last ones ended; if it has become shorter in the meantime, the gap is filled with zeros.
-/

namespace StakeQuorum.Files

structure Handle where
  place : Place
  appends : Bool
  /-- Where the next bytes go unless they are appended. -/
  position : Nat := 0
  /-- What has been written and has not reached the file. -/
  pending : Bytes := []
  deriving DecidableEq, Repr

/-- Replaces the bytes from a position on by a part, and keeps what lies beyond it. -/
def overwrite (old : Bytes) (position : Nat) (part : Bytes) : Bytes :=
  old.take position ++ List.replicate (position - old.length) 0 ++ part ++
    old.drop (position + part.length)

/-- Opens a file, which is emptied unless it is opened for appending. -/
def Tree.openFile (t : Tree) (p : Path) (appends : Bool) : Except FileError (Handle × Tree) := do
  let t ← if appends then t.append p [] else t.write p []
  return ({ place := ← t.locate p, appends }, t)

namespace Handle

def bufferSize : Nat := 8191

/-- A text of this size does not wait. -/
def directSize : Nat := 1024

def room (h : Handle) : Nat := bufferSize - h.pending.length

/-- Hands bytes over to the file instead of those that wait. -/
def commit (h : Handle) (part : Bytes) (t : Tree) : Handle × Tree :=
  let old := t.contentsAt h.place
  let start := if h.appends then old.length else h.position
  ({ h with position := start + part.length, pending := [] },
    if part.isEmpty then t else t.put h.place (.file (overwrite old start part)))

def flush (h : Handle) (t : Tree) : Handle × Tree := h.commit h.pending t

/-- Writes a text. It waits unless it is large or leaves no room, and then it goes out together with
what waits. -/
def write (h : Handle) (s : Bytes) (t : Tree) : Handle × Tree :=
  if min directSize h.room ≤ s.length then h.commit (h.pending ++ s) t
  else ({ h with pending := h.pending ++ s }, t)

def writeLine (h : Handle) (line : Bytes) (t : Tree) : Handle × Tree :=
  let (h, t) := h.write line t
  h.write "\n" t

end Handle

end StakeQuorum.Files
