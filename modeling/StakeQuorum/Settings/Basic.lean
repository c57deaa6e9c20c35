import StakeQuorum.Settings.Environment
import StakeQuorum.Settings.Value
import StakeQuorum.Store.ByteMap

/-! # Settings

Settings are values under keys, and a key may stand in a section. A key keeps all its values in the
order in which they were recorded: as one value it means the last, as a list it means all of them.
-/

namespace StakeQuorum

namespace Settings

/-- All values of a key, and where the key was met first. -/
structure Entry where
  key : Bytes
  /-- Empty outside all sections. -/
  heading : Bytes := []
  /-- The values, the latest first. -/
  latest : List Bytes := []
  source : Bytes
  line : Nat := 0
  deriving DecidableEq, Repr

namespace Entry

def values (e : Entry) : List Bytes := e.latest.reverse

def push (e : Entry) (value : Bytes) : Entry := { e with latest := value :: e.latest }

@[simp] theorem values_push (e : Entry) (value : Bytes) :
    (e.push value).values = e.values ++ [value] := by simp [values, push]

@[simp] theorem head?_latest (e : Entry) : e.latest.head? = e.values.getLast? := by simp [values]

end Entry

end Settings

structure Settings where
  entries : ByteMap Settings.Entry := {}
  /-- The sections in the order in which they were met. -/
  sections : List Bytes := []

namespace Settings

/-- Letters, digits, underscore and hyphen, at least one of them. -/
def isKey (s : Bytes) : Bool :=
  !s.isEmpty && s.all fun c => Bytes.isAlphanumeric c || c == '_'.toUInt8 || c == '-'.toUInt8

def dot : UInt8 := '.'.toUInt8

def fullKey (key heading : Bytes) : Bytes :=
  if heading = [] then key else heading ++ dot :: key

def addSection (s : Settings) (name : Bytes) : Settings :=
  if name = [] ∨ name ∈ s.sections then s else { s with sections := s.sections ++ [name] }

def record (s : Settings) (key heading value source : Bytes) (line : Nat) : Settings :=
  let k := fullKey key heading
  let e := (s.entries.get? k).getD { key, heading, source, line }
  addSection { s with entries := s.entries.insert k (e.push value) } heading

def erase (s : Settings) (key heading : Bytes) : Settings :=
  { s with entries := s.entries.erase (fullKey key heading) }

def programmatic : Bytes := "<programmatic>"

/-- Gives a key one value instead of all it had. -/
def set (s : Settings) (key value : Bytes) (heading : Bytes := []) : Settings :=
  (s.erase key heading).record key heading value programmatic 0

def add (s : Settings) (key value : Bytes) (heading : Bytes := []) : Settings :=
  s.record key heading value programmatic 0

/-! ### Looking up -/

def entry? (s : Settings) (key : Bytes) (heading : Bytes := []) : Option Entry :=
  s.entries.get? (fullKey key heading)

def contains (s : Settings) (key : Bytes) (heading : Bytes := []) : Bool :=
  (s.entry? key heading).isSome

def hasSection (s : Settings) (name : Bytes) : Bool := s.sections.contains name

/-- The last value of a key. -/
def get? (s : Settings) (key : Bytes) (heading : Bytes := []) : Option Bytes :=
  (s.entry? key heading).bind (·.latest.head?)

def getInt? (s : Settings) (key : Bytes) (heading : Bytes := []) : Option Int64 :=
  (s.get? key heading).bind int?

/-- An integer that is not negative. -/
def getWord? (s : Settings) (key : Bytes) (heading : Bytes := []) : Option UInt64 :=
  (s.getInt? key heading).bind fun n => if n < 0 then none else some n.toUInt64

def getBool? (s : Settings) (key : Bytes) (heading : Bytes := []) : Option Bool :=
  (s.get? key heading).bind bool?

/-- The items of all values of a key. -/
def getList (s : Settings) (key : Bytes) (heading : Bytes := []) : List Bytes :=
  ((s.entry? key heading).elim [] (·.values)).flatMap items

def getPath (s : Settings) (env : Environment) (key : Bytes) (default : Bytes := [])
    (heading : Bytes := []) : Files.Path :=
  env.path ((s.get? key heading).getD default)

def entriesIn (s : Settings) (name : Bytes) : List Entry :=
  s.entries.values.filter (·.heading = name)

def keysIn (s : Settings) (name : Bytes) : List Bytes := (s.entriesIn name).map (·.key)

/-- What is found for each key, section by section, the keys outside all sections first. -/
def listing (s : Settings) : List (Option Entry) :=
  ([] :: s.sections).flatMap fun name => (s.keysIn name).map fun key => s.entry? key name

/-! ### Writing -/

def equalsSign : UInt8 := '='.toUInt8

/-- A line for each value. -/
def Entry.render (e : Entry) : Bytes :=
  e.values.flatMap fun v => e.key ++ equalsSign :: v ++ "\n"

def renderSection (s : Settings) (name : Bytes) : Bytes := (s.entriesIn name).flatMap Entry.render

/-- The header of a section, after an empty line. -/
def renderHeader (name : Bytes) : Bytes := "\n[" ++ name ++ "]\n"

/-- The text of the settings: the keys outside all sections, then the sections one after another. -/
def render (s : Settings) : Bytes :=
  s.renderSection [] ++ s.sections.flatMap fun name => renderHeader name ++ s.renderSection name

end Settings

end StakeQuorum
