import StakeQuorum.Bytes

/-! # Durations and deadlines

Durations are signed milliseconds and deadlines are signed nanoseconds of a steady clock; both are
64-bit words that wrap.
-/

namespace StakeQuorum

def Bytes.paddedDecimal (width n : Nat) : Bytes :=
  List.replicate (width - (decimal n).length) '0'.toUInt8 ++ decimal n

namespace Duration

/-- The text of a duration that is not negative: milliseconds, or seconds with three decimals after
the full minutes. -/
def magnitudeText (total : Int64) : Bytes :=
  if total < 1000 then Bytes.ofSignedWord total ++ "ms"
  else
    let n := total.toInt.toNat
    let minutes := if 60000 ≤ n then Bytes.decimal (n / 60000) ++ "m " else []
    minutes ++ Bytes.decimal (n / 1000 % 60) ++ "." ++ Bytes.paddedDecimal 3 (n % 1000) ++ "s"

/-- The text of a duration. The least duration has no positive counterpart, so its sign is written
twice. -/
def text (ms : Int64) : Bytes := if ms < 0 then "-" ++ magnitudeText (-ms) else magnitudeText ms

end Duration

/-- A point of the steady clock, in nanoseconds. -/
structure Deadline where
  time : Int64
  deriving DecidableEq, Repr

namespace Deadline

def nanosPerMilli : Int64 := 1000000

def after (now timeout : Int64) : Deadline := ⟨now + timeout * nanosPerMilli⟩

def isExpired (d : Deadline) (now : Int64) : Bool := d.time ≤ now

/-- The milliseconds that are left, zero once the deadline has passed. -/
def remaining (d : Deadline) (now : Int64) : Int64 :=
  if d.isExpired now then 0 else (d.time - now) / nanosPerMilli

end Deadline

end StakeQuorum
