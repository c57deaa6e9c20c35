import StakeQuorum.Hex
import StakeQuorum.Settings.Value

/-! # Hosts and endpoints

A host is a name of dotted labels or an internet address, and an endpoint is a host with a port.
Addresses of version four are four decimal octets. Addresses of version six are sixteen bytes
written in groups of two, where a double colon stands for one or more zero groups and the last four
bytes may have the form of version four.
-/

namespace StakeQuorum.Node

open Bytes (pieces cut? untilNul isDigit isAlphanumeric)

def dot : UInt8 := '.'.toUInt8
def colon : UInt8 := ':'.toUInt8
def hyphen : UInt8 := '-'.toUInt8

/-! ### Addresses -/

/-- A decimal number up to 255 without leading zeros. -/
def isOctet (s : Bytes) : Bool :=
  !s.isEmpty && s.all isDigit && (s.length == 1 || s.head? != some '0'.toUInt8) &&
    decide (Settings.ofDigits s ≤ 255)

def isAddress4 (s : Bytes) : Bool :=
  let octets := pieces dot s
  octets.length == 4 && octets.all isOctet

/-- One to four hexadecimal digits. -/
def isGroup (s : Bytes) : Bool := !s.isEmpty && decide (s.length ≤ 4) && s.all Hex.isDigit

/-- How many bytes groups stand for. An address of version four stands for the last four bytes. -/
def groupsWidth? : List Bytes → Option Nat
  | [] => some 0
  | [g] => if isGroup g then some 2 else if isAddress4 g then some 4 else none
  | g :: gs => if isGroup g then (groupsWidth? gs).map (2 + ·) else none

/-- What stands before and after the first double colon. -/
def cutGap? : Bytes → Option (Bytes × Bytes)
  | c :: d :: s =>
    if c = colon ∧ d = colon then some ([], s)
    else (cutGap? (d :: s)).map fun (before, rest) => (c :: before, rest)
  | _ => none

def groups (s : Bytes) : List Bytes := if s.isEmpty then [] else pieces colon s

def isAddress6 (s : Bytes) : Bool :=
  match cutGap? s with
  | none => groupsWidth? (groups s) == some 16
  | some (before, rest) =>
    (groups before).all isGroup &&
      (groupsWidth? (groups rest)).any fun width => 2 * (groups before).length + width < 16

/-! ### Hosts -/

/-- Letters, digits and hyphens, with no hyphen at either end. -/
def isLabel (s : Bytes) : Bool :=
  !s.isEmpty && decide (s.length ≤ 63) && s.head? != some hyphen && s.getLast? != some hyphen &&
    s.all fun c => isAlphanumeric c || c == hyphen

def isHostName (s : Bytes) : Bool := decide (s.length ≤ 253) && (pieces dot s).all isLabel

/-- A name or an address. Whether a text is an address is decided by what stands before its first
zero byte. -/
def isHost (s : Bytes) : Bool :=
  isAddress4 (untilNul s) || isAddress6 (untilNul s) || isHostName s

/-! ### Endpoints -/

structure Endpoint where
  host : Bytes
  port : UInt16
  deriving DecidableEq, Repr

/-- A port is one to five decimal digits and not zero. -/
def port? (s : Bytes) : Option UInt16 :=
  let n := Settings.ofDigits s
  if !s.isEmpty && decide (s.length ≤ 5) && s.all isDigit && n != 0 && decide (n ≤ 65535)
  then some (UInt16.ofNat n) else none

/-- The host in brackets, which is an address of version six, and the text of the port. -/
def cutBracketed? (s : Bytes) : Option (Bytes × Bytes) := do
  let (host, rest) ← cut? ']'.toUInt8 s
  if rest.head? = some colon ∧ isAddress6 (untilNul host) then some (host, rest.tail) else none

/-- The host before the only colon, and the text of the port. -/
def cutPlain? (s : Bytes) : Option (Bytes × Bytes) := do
  let (host, port) ← cut? colon s
  if colon ∉ port ∧ isHost host then some (host, port) else none

def Endpoint.parse? (s : Bytes) : Option Endpoint := do
  let (host, port) ←
    if s.head? = some '['.toUInt8 then cutBracketed? s.tail else cutPlain? s
  return ⟨host, ← port? port⟩

/-- Reads an endpoint in place of another one, and says whether there was one to read. -/
def Endpoint.readInto (old : Endpoint) (s : Bytes) : Bool × Endpoint :=
  match parse? s with
  | some e => (true, e)
  | none => (false, old)

end StakeQuorum.Node
