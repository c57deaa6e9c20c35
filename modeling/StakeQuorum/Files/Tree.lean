import StakeQuorum.Files.Item

/-! # File trees

A tree holds directories and files. Paths are resolved component by component from the working
directory, which is where the tree starts; the root directory and the directories above the working
directory exist too, but are not listed. Paths end at their first zero byte.
-/

namespace StakeQuorum.Files

inductive FileError
  | missing
  | notDirectory
  | isDirectory
  | present
  | notEmpty
  | nameTooLong
  | invalidArgument
  deriving DecidableEq, Repr

def FileError.message : FileError → Bytes
  | missing => "No such file or directory"
  | notDirectory => "Not a directory"
  | isDirectory => "Is a directory"
  | present => "File exists"
  | notEmpty => "Directory not empty"
  | nameTooLong => "File name too long"
  | invalidArgument => "Invalid argument"

/-! ### Places -/

/-- A place: the names on the way to it, the innermost first. The working directory is the empty
place, and the root is the place with an empty name. -/
abbrev Place := List Bytes

namespace Place

def here : Place := []

def root : Place := [[]]

def up : Place → Place
  | [] => [".."]
  | name :: rest =>
    if name = ".." then name :: name :: rest
    else if name = [] then [name]
    else rest

/-- The places that are directories in every tree: the root, the working directory and those above
it. -/
def isGiven (l : Place) : Bool := l == root || l.all (· == "..")

def path (l : Place) : Bytes := ([slash] : Bytes).intercalate l.reverse

def isInside (l : Place) : Bool := l.getLast?.any Path.isName

end Place

/-! ### Trees -/

structure Tree where
  /-- The working directory. The root directory and the one above count as standing in it, with the
  empty name and with two dots. -/
  top : Item := .directory []

/-- What a name and a path may measure at most. -/
def longestName : Nat := 255
def longestPath : Nat := 4095

namespace Tree

def put (t : Tree) (l : Place) (e : Entry) : Tree := ⟨t.top.alter (some (.ofEntry e)) l.reverse⟩

def itemAt? (t : Tree) (l : Place) : Option Item :=
  match t.top.find? l.reverse with
  | some i => some i
  | none => if l.isGiven then some (.directory []) else none

/-- Goes on by one component from a place and what stands there. An empty component stays where it
is. -/
def step (t : Tree) : Place × Option Item → Bytes → Except FileError (Place × Option Item)
  | (_, none), _ => .error .missing
  | (_, some (.file _)), _ => .error .notDirectory
  | (l, some (.directory items)), name =>
    if name = [] ∨ name = "." then .ok (l, some (.directory items))
    else if name = ".." then .ok (l.up, t.itemAt? l.up)
    else if longestName < name.length then .error .nameTooLong
    else .ok (name :: l, items.lookup name)

def start (p : Path) : Place := if p.isAbsolute then .root else .here

/-- The place that a path names, and what stands there if anything does. -/
def resolve (t : Tree) (p : Path) : Except FileError (Place × Option Item) :=
  let p := Bytes.untilNul p
  if p = [] then .error .missing
  else if longestPath < p.length then .error .nameTooLong
  else (Bytes.pieces slash p).foldlM t.step (start p, t.itemAt? (start p))

def locate (t : Tree) (p : Path) : Except FileError Place := (·.1) <$> t.resolve p

def find (t : Tree) (p : Path) : Except FileError Entry := do
  match (← t.resolve p).2 with
  | some i => return i.entry
  | none => .error .missing

def contains (t : Tree) (p : Path) : Bool := (t.find p).toBool

def hasFile (t : Tree) (p : Path) : Bool :=
  match t.find p with
  | .ok (.file _) => true
  | _ => false

def read (t : Tree) (p : Path) : Except FileError Bytes := do
  match ← t.find p with
  | .file contents => return contents
  | .directory => return []

/-- Puts a file where a path leads to, with a text made from the one that was there. -/
def edit (t : Tree) (p : Path) (f : Bytes → Bytes) : Except FileError Tree := do
  match ← t.resolve p with
  | (_, some (.directory _)) => .error .isDirectory
  | (l, some (.file contents)) => return t.put l (.file (f contents))
  | (l, none) => return t.put l (.file (f []))

def write (t : Tree) (p : Path) (contents : Bytes) : Except FileError Tree :=
  t.edit p fun _ => contents

def append (t : Tree) (p : Path) (contents : Bytes) : Except FileError Tree :=
  t.edit p (· ++ contents)

def contentsAt (t : Tree) (l : Place) : Bytes :=
  match t.itemAt? l with
  | some (.file contents) => contents
  | _ => []

/-! ### Directories -/

/-- How many directories are made at once at most. -/
def mostNewDirectories : Nat := 1000

/-- Makes one directory; one that is there already is no failure. -/
def makeDirectory (t : Tree) (p : Path) : Except FileError Tree := do
  let p := Bytes.untilNul p
  let stem := Bytes.dropEndWhile (· == slash) p
  match ← t.resolve (if stem = [] then p else stem) with
  | (_, some (.directory _)) => return t
  | (_, some (.file _)) => .error .present
  | (l, none) => return t.put l .directory

/-- Makes directories in turn. What was made before a failure stays. -/
def makeAll (t : Tree) : List Path → Except FileError Unit × Tree
  | [] => (.ok (), t)
  | p :: rest =>
    match t.makeDirectory p with
    | .ok t => makeAll t rest
    | .error e => (.error e, t)

/-- Puts a path before the directories that have to be made, unless it ends with dots. -/
def plan (p : Path) (toMake : List Path) : Except FileError (List Path) :=
  if !Path.isName (Path.baseName p) then .ok toMake
  else if mostNewDirectories ≤ toMake.length then .error .nameTooLong
  else .ok (p :: toMake)

/-- Goes up from a path to the first directory that is there, and plans the directories on the way.
The outermost comes first. -/
def planUpward (t : Tree) : Nat → Path → List Path → Except FileError (List Path)
  | 0, _, toMake => .ok toMake
  | n + 1, p, toMake =>
    if p = [] then .ok toMake
    else match t.find p with
      | .ok .directory => .ok toMake
      | .ok (.file _) => .error .notDirectory
      | .error e =>
        if e = .missing ∨ e = .notDirectory then do planUpward t n (Path.parent p) (← plan p toMake)
        else .error e

/-- Makes a directory and those around it. Components are told apart in the whole text of the path,
also in what follows a zero byte. -/
def makeDirectories (t : Tree) (p : Path) : Except FileError Unit × Tree :=
  if p = [] then (.error .invalidArgument, t)
  else
    match t.find p with
    | .ok .directory => (.ok (), t)
    | .ok (.file _) => (.error .notDirectory, t)
    | .error e =>
      if e = .missing ∨ e = .notDirectory then
        let stem := Bytes.dropEndWhile (· == slash) p
        match plan stem [] >>= planUpward t p.length (Path.parent stem) with
        | .ok toMake => makeAll t toMake
        | .error e => (.error e, t)
      else (.error e, t)

/-- A tree with these directories and files, and with the directories around them. -/
def ofContents (directories : List Path) (files : List (Path × Bytes)) : Tree :=
  let bare := directories.foldl (fun t p => (t.makeDirectories p).2) {}
  files.foldl (fun t (p, contents) =>
    let t := (t.makeDirectories (Path.parent p)).2
    (t.write p contents).toOption.getD t) bare

def entries (t : Tree) : List (Place × Entry) := t.top.descendants Place.here

/-- The entries below the working directory in the order of their paths. -/
def listing (t : Tree) : List (Path × Entry) :=
  let inside := t.entries.filter fun e => e.1.isInside
  (inside.map fun (l, e) => (l.path, e)).mergeSort fun a b => a.1 ≤ b.1

/-- The entries that another tree has and this one has not, or has otherwise. -/
def changes (t after : Tree) : List (Path × Entry) :=
  let new := after.entries.filter fun (l, e) =>
    !l.isGiven && (t.itemAt? l).map Item.entry != some e
  new.map fun (l, e) => (l.path, e)

/-- Keeps what does not stand below a place. Whatever is above the working directory has everything
below it. -/
def emptied (t : Tree) (l : Place) : Tree :=
  if l = .here then ⟨.directory (t.top.items.filter fun e => !Path.isName e.1)⟩
  else if l.isGiven then {}
  else match t.itemAt? l with
    | some (.directory _) => t.put l .directory
    | _ => t

/-- Removes a file or an empty directory; nothing there is no failure. A directory that is named by
dots stays. -/
def remove (t : Tree) (p : Path) : Except FileError Unit × Tree :=
  match t.locate p with
  | .error .missing => (.ok (), t)
  | .error e => (.error e, t)
  | .ok l =>
    let last := Path.baseName (Bytes.dropEndWhile (· == slash) (Bytes.untilNul p))
    if last = ".." then (.error .notEmpty, t)
    else if last = "." ∨ l.isGiven then (.error .invalidArgument, t)
    else (.ok (), ⟨t.top.alter none l.reverse⟩)

/-- Removes what stands below a path, and then what the path leads to after that: a path may lead
through a directory that is gone by then. -/
def removeAll (t : Tree) (p : Path) : Except FileError Unit × Tree :=
  match t.locate p with
  | .error .missing => (.ok (), t)
  | .error e => (.error e, t)
  | .ok l => (t.emptied l).remove p

end Tree

end StakeQuorum.Files
