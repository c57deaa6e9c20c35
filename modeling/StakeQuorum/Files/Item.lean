import StakeQuorum.Files.Path

/-! # Files and directories

An item is a file, or a directory with the items that stand in it under their names. A way into a
directory is the list of the names along it.
-/

namespace StakeQuorum.Files

inductive Entry
  | directory
  | file (contents : Bytes)
  deriving DecidableEq, Repr

inductive Item
  | file (contents : Bytes)
  | directory (items : List (Bytes × Item))

namespace Item

def entry : Item → Entry
  | file contents => .file contents
  | directory _ => .directory

def ofEntry : Entry → Item
  | .file contents => file contents
  | .directory => directory []

def items : Item → List (Bytes × Item)
  | file _ => []
  | directory items => items

def get? (i : Item) (name : Bytes) : Option Item := i.items.lookup name

/-- A directory with this item under a name, or with none. -/
def set (i : Item) (name : Bytes) (new : Option Item) : Item :=
  directory (new.toList.map (name, ·) ++ i.items.filter fun e => name != e.1)

def find? : List Bytes → Item → Option Item
  | [], i => some i
  | name :: way, i => (i.get? name).bind (find? way)

/-- Puts an item at the end of a way, or removes the one that stands there. Directories that are
missing on the way are made. -/
def alter (new : Option Item) : List Bytes → Item → Item
  | [], i => i
  | [name], i => i.set name new
  | name :: way, i => i.set name (alter new way ((i.get? name).getD (directory [])))

/-- What stands in an item, near and far, with the names on the way to it, the innermost first. -/
def descendants (l : List Bytes) : Item → List (List Bytes × Entry)
  | file _ => []
  | directory items => items.attach.flatMap fun ⟨(name, i), _⟩ =>
    (name :: l, i.entry) :: descendants (name :: l) i
decreasing_by
  rename_i h
  have := List.sizeOf_lt_of_mem h
  simp only [Prod.mk.sizeOf_spec, directory.sizeOf_spec] at this ⊢
  omega

end Item

end StakeQuorum.Files
