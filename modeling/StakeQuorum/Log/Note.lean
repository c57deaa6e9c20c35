import StakeQuorum.Bytes

/-! # Log notes

An operation leaves notes: a level, a category and a message. Notes do not influence what an
operation does, so they are carried beside its value.
-/

namespace StakeQuorum

namespace Log

/-- How serious a note is, the least serious first. `off` admits nothing, and other numbers have no
name. -/
inductive Level
  | trace | debug | info | warn | error | fatal | off
  | other (number : Int)
  deriving DecidableEq, Repr

namespace Level

def all : List Level := [trace, debug, info, warn, error, fatal, off]

def number : Level → Int
  | trace => 0
  | debug => 1
  | info => 2
  | warn => 3
  | error => 4
  | fatal => 5
  | off => 6
  | other n => n

instance : LE Level := ⟨fun a b => a.number ≤ b.number⟩

instance (a b : Level) : Decidable (a ≤ b) := inferInstanceAs (Decidable (a.number ≤ b.number))

def ofNumber (n : Int) : Level := (all.find? fun l => l.number == n).getD (other n)

def name : Level → Bytes
  | trace => "TRACE"
  | debug => "DEBUG"
  | info => "INFO"
  | warn => "WARN"
  | error => "ERROR"
  | fatal => "FATAL"
  | off => "OFF"
  | other _ => "UNKNOWN"

/-- The level with a name in any case; `WARNING` is a second name of `warn`. -/
def parse? (s : Bytes) : Option Level :=
  let upper := s.map Bytes.toUpper
  if upper = ("WARNING" : Bytes) then some warn else all.find? fun l => l.name == upper

end Level

namespace Category

def default : Bytes := "default"
def consensus : Bytes := "consensus"
def stake : Bytes := "stake"
def address : Bytes := "address"
def config : Bytes := "config"
def db : Bytes := "db"

def known : List Bytes := [default, consensus, stake, address, config, db]

end Category

structure Note where
  level : Level
  category : Bytes
  message : Bytes
  deriving DecidableEq, Repr

end Log

/-- A value together with what was noted on the way to it. -/
structure Traced (ω : Type) (α : Type) where
  value : α
  trace : List ω

namespace Traced

variable {ω ω' α β : Type}

protected def pure (a : α) : Traced ω α := ⟨a, []⟩

protected def bind (x : Traced ω α) (f : α → Traced ω β) : Traced ω β :=
  let y := f x.value
  ⟨y.value, x.trace ++ y.trace⟩

instance : Monad (Traced ω) where
  pure := Traced.pure
  bind := Traced.bind

def tell (w : ω) : Traced ω Unit := ⟨(), [w]⟩

def rename (f : ω → ω') (x : Traced ω α) : Traced ω' α := ⟨x.value, x.trace.map f⟩

@[simp] theorem value_pure (a : α) : (pure a : Traced ω α).value = a := rfl

@[simp] theorem value_bind (x : Traced ω α) (f : α → Traced ω β) :
    (x >>= f).value = (f x.value).value := rfl

@[simp] theorem value_rename (f : ω → ω') (x : Traced ω α) : (x.rename f).value = x.value := rfl

end Traced

/-- A value together with log notes. -/
abbrev Logged := Traced Log.Note

namespace Log

def note (level : Level) (category message : Bytes) : Logged Unit :=
  Traced.tell ⟨level, category, message⟩

end Log

end StakeQuorum
