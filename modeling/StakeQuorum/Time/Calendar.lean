import StakeQuorum.Time.Duration

/-! # The calendar

Days are counted from 1970-01-01 in the Gregorian calendar, and times of day are in coordinated
universal time.
-/

namespace StakeQuorum.Calendar

structure Date where
  year : Int
  month : Nat
  day : Nat
  deriving DecidableEq, Repr

/-- The length of 400 years, after which the calendar repeats. -/
def daysPerCycle : Int := 146097

/-- The days from the first of March of year zero to 1970-01-01. Years that start in March have
their leap day at the end. -/
def daysBeforeEpoch : Int := 719468

def dateOfDay (day : Int) : Date :=
  let fromMarch := day + daysBeforeEpoch
  let cycle := fromMarch.fdiv daysPerCycle
  let dayOfCycle := (fromMarch.fmod daysPerCycle).toNat
  let yearOfCycle :=
    (dayOfCycle - dayOfCycle / 1460 + dayOfCycle / 36524 - dayOfCycle / 146096) / 365
  let dayOfYear := dayOfCycle - (365 * yearOfCycle + yearOfCycle / 4 - yearOfCycle / 100)
  let monthFromMarch := (5 * dayOfYear + 2) / 153
  let month := if monthFromMarch < 10 then monthFromMarch + 3 else monthFromMarch - 9
  let year := yearOfCycle + 400 * cycle
  { year := if month ≤ 2 then year + 1 else year
    month
    day := dayOfYear - (153 * monthFromMarch + 2) / 5 + 1 }

def secondsPerDay : Int := 86400

def secondsText (seconds : Int) : Bytes :=
  let date := dateOfDay (seconds.fdiv secondsPerDay)
  let time := (seconds.fmod secondsPerDay).toNat
  let two (n : Nat) : Bytes := Bytes.paddedDecimal 2 n
  Bytes.signedDecimal date.year ++ "-" ++ two date.month ++ "-" ++ two date.day ++ " " ++
    two (time / 3600) ++ ":" ++ two (time / 60 % 60) ++ ":" ++ two (time % 60)

/-- At least three characters, filled up with zeros on the left, also before a sign. -/
def threePlaces (n : Int) : Bytes :=
  let digits := Bytes.signedDecimal n
  List.replicate (3 - digits.length) '0'.toUInt8 ++ digits

/-- The text of a time in milliseconds. Times are kept in nanoseconds that wrap. Seconds and
milliseconds are both cut toward zero, so before 1970 the milliseconds have a sign. -/
def text (ms : Int64) : Bytes :=
  let nanos := (ms * Deadline.nanosPerMilli).toInt
  secondsText (nanos.tdiv 1000000000) ++ "." ++ threePlaces ((nanos.tdiv 1000000).tmod 1000)

end StakeQuorum.Calendar
