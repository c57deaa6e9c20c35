import StakeQuorum.Validator.Set

/-! # Clocks

A clock is a sequence of readings in Unix milliseconds, some of which may fail. The wall clock can
be frozen at a mock time.
-/

namespace StakeQuorum

/-- A clock and how often it has been read. -/
structure Clock where
  reading : Nat → Except Failure Int64
  used : Nat := 0

namespace Clock

def constant (ms : Int64) : Clock := ⟨fun _ => .ok ms, 0⟩

/-- Shows the same time for `n` readings and then fails. -/
def failingAfter (n : Nat) (ms : Int64) (f : Failure) : Clock :=
  ⟨fun i => if i < n then .ok ms else .error f, 0⟩

def read (c : Clock) : Except Failure Int64 × Clock :=
  (c.reading c.used, { c with used := c.used + 1 })

end Clock

structure WallClock where
  mocked : Bool := false
  mockTime : Int64 := 0
  deriving DecidableEq, Repr

namespace WallClock

def millis (c : WallClock) (real : Int64) : Int64 := if c.mocked then c.mockTime else real

/-- The time in seconds, cut toward zero. -/
def seconds (c : WallClock) (real : Int64) : Int64 := c.millis real / 1000

/-- Freezes the clock, at the real time if no mock time is set. -/
def enable (c : WallClock) (real : Int64) : WallClock :=
  { mocked := true, mockTime := if c.mockTime = 0 then real else c.mockTime }

def disable (_ : WallClock) : WallClock := {}

def set (c : WallClock) (ms : Int64) : WallClock := { c with mockTime := ms }

def advance (c : WallClock) (ms : Int64) : WallClock := { c with mockTime := c.mockTime + ms }

end WallClock

end StakeQuorum
