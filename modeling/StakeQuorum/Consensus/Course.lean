import StakeQuorum.Consensus.Round
import StakeQuorum.Interleaving

/-! # The course of a round

The answers of a round come in any order, each validator's once or never. The round closes when the
collector finds that it is decided, or at the deadline. Answers that come later do not count.
-/

namespace StakeQuorum.Round

inductive Closing
  | decided
  | deadline
  deriving DecidableEq, Repr

structure Course where
  /-- The answers that count. -/
  round : Round
  /-- All answers by validator, the latest first. -/
  answers : List (Nat × Bool) := []
  closing : Option Closing := none
  deriving DecidableEq, Repr

namespace Course

def start (size : UInt64) : Course := { round := { size } }

inductive Move
  /-- A validator confirms or refuses. -/
  | answer (validator : Nat) (confirms : Bool)
  /-- The collector finds the round decided. -/
  | close
  | expire
  deriving DecidableEq, Repr

def isOpen (c : Course) : Bool := c.closing.isNone

def hasAnswered (c : Course) (validator : Nat) : Bool := c.answers.any (·.1 == validator)

def step (c : Course) : Move → Option Course
  | .answer v confirms =>
    if v < c.round.size.toNat && !c.hasAnswered v then
      some { c with
        round := if c.isOpen then c.round.answer confirms else c.round
        answers := (v, confirms) :: c.answers }
    else none
  | .close =>
    if c.isOpen && c.round.isDecided then some { c with closing := some .decided } else none
  | .expire => if c.isOpen then some { c with closing := some .deadline } else none

/-- The count that the collector takes from the round. -/
def result (c : Course) : UInt64 := c.round.confirmations

/-- The number of validators that have confirmed, in time or not. -/
def confirming (c : Course) : Nat := c.answers.countP (·.2)

def isComplete (c : Course) : Bool := c.answers.length == c.round.size.toNat

end Course

end StakeQuorum.Round
