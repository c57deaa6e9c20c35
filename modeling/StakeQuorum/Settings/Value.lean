import StakeQuorum.Bytes.Pieces

/-! # Written values

How the text of a setting is read: quotes around it, and truth values, integers and lists in it.
-/

namespace StakeQuorum.Settings

/-! ### Quotes -/

def backslash : UInt8 := '\\'.toUInt8
def doubleQuote : UInt8 := '\x22'.toUInt8
def singleQuote : UInt8 := '\''.toUInt8

/-- What a character after a backslash stands for. -/
def escaped? (c : UInt8) : Option UInt8 :=
  if c = 'n'.toUInt8 then some '\n'.toUInt8
  else if c = 't'.toUInt8 then some '\t'.toUInt8
  else if c = backslash ∨ c = doubleQuote then some c
  else none

/-- Resolves the escapes; a backslash before any other character stands for itself. -/
def unescape : Bytes → Bytes
  | [] => []
  | [c] => [c]
  | c :: d :: s =>
    match if c = backslash then escaped? d else none with
    | some e => e :: unescape s
    | none => c :: unescape (d :: s)

/-- Takes off a pair of equal quotes. Only double quotes have escapes inside. -/
def unquote (s : Bytes) : Bytes :=
  if s.length < 2 ∨ s.head? ≠ s.getLast? then s
  else
    let inner := s.tail.dropLast
    if s.head? = some doubleQuote then unescape inner
    else if s.head? = some singleQuote then inner
    else s

/-! ### Values -/

def trueNames : List Bytes := ["true", "yes", "on", "1"]
def falseNames : List Bytes := ["false", "no", "off", "0"]

def bool? (s : Bytes) : Option Bool :=
  let s := s.map Bytes.toLower
  if s ∈ trueNames then some true else if s ∈ falseNames then some false else none

/-- Blank, and the control characters that move to another column or line. -/
def isSpace (c : UInt8) : Bool := c == ' '.toUInt8 || ('\t'.toUInt8 ≤ c && c ≤ '\r'.toUInt8)

def ofDigits (ds : Bytes) : Nat := ds.foldl (fun n d => 10 * n + (d - '0'.toUInt8).toNat) 0

/-- A minus or plus sign, and the text after it. -/
def sign (s : Bytes) : Bool × Bytes :=
  if s.head? = some '-'.toUInt8 then (true, s.tail)
  else if s.head? = some '+'.toUInt8 then (false, s.tail)
  else (false, s)

/-- A decimal integer of 64 bits. Space before it is skipped, and the text ends at its first zero
byte. -/
def int? (s : Bytes) : Option Int64 :=
  let (negative, digits) := sign ((Bytes.untilNul s).dropWhile isSpace)
  if digits = [] ∨ !digits.all Bytes.isDigit then none
  else
    let n : Int := if negative then -(ofDigits digits : Int) else ofDigits digits
    if Int64.minValue.toInt ≤ n ∧ n ≤ Int64.maxValue.toInt then some (Int64.ofInt n) else none

/-- The items between commas that are not blank. -/
def items (s : Bytes) : List Bytes :=
  ((Bytes.pieces ','.toUInt8 s).map Bytes.trim).filter (· ≠ [])

end StakeQuorum.Settings
