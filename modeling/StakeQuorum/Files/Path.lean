import StakeQuorum.Bytes.Pieces

/-! # Paths

A path is a byte string whose components are separated by slashes. These are the functions that
look at the text of a path only.
-/

namespace StakeQuorum.Files

def slash : UInt8 := '/'.toUInt8

abbrev Path := Bytes

namespace Path

def isAbsolute (p : Path) : Bool := p.head? == some slash

/-- A component that stands for something of its own. -/
def isName (c : Bytes) : Bool := !(c == [] || c == "." || c == "..")

def baseName (p : Path) : Bytes := (Bytes.pieces slash p).getLast?.getD []

/-- The path without its last component; the root is its own parent. -/
def parent (p : Path) : Path :=
  let stem := Bytes.dropEndWhile (· == slash) (Bytes.dropEndWhile (· != slash) p)
  if stem.isEmpty && isAbsolute p then [slash] else stem

def child (p : Path) (name : Bytes) : Path :=
  if p.isEmpty || p.getLast? == some slash then p ++ name else p ++ slash :: name

/-- The paths of the directories around a path and, at the end, the path itself. -/
def along (p : Path) : List Path :=
  let names := Bytes.pieces slash p
  ((List.range names.length).map fun i => ([slash] : Bytes).intercalate (names.take (i + 1))).filter
    (· != [])

end Path

end StakeQuorum.Files
