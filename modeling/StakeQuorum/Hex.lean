import StakeQuorum.Bytes

/-! # Hexadecimal text

Each byte is two digits, the high half first. Writing uses lower case and reading accepts both
cases. A 64-bit word is written as sixteen digits, the most significant first.
-/

namespace StakeQuorum.Hex

inductive HexError
  | oddLength
  | badDigit
  deriving DecidableEq, Repr

def HexError.message : HexError → Bytes
  | .oddLength => "Hex string must have even length"
  | .badDigit => "Invalid hex character"

/-- The lower case digit of a value below sixteen. -/
def digit (n : UInt8) : UInt8 := if n < 10 then '0'.toUInt8 + n else 'a'.toUInt8 + (n - 10)

/-- The value of a digit of either case. -/
def digitValue? (c : UInt8) : Option UInt8 :=
  if Bytes.isDigit c then some (c - '0'.toUInt8)
  else if 'a'.toUInt8 ≤ c && c ≤ 'f'.toUInt8 then some (c - 'a'.toUInt8 + 10)
  else if 'A'.toUInt8 ≤ c && c ≤ 'F'.toUInt8 then some (c - 'A'.toUInt8 + 10)
  else none

def isDigit (c : UInt8) : Bool := (digitValue? c).isSome

def encodeByte (b : UInt8) : Bytes := [digit (b / 16), digit (b % 16)]

def encode (bs : Bytes) : Bytes := bs.flatMap encodeByte

/-- Reads pairs of digits; `none` at a character that is no digit, or at a digit left alone. -/
def decodePairs : Bytes → Option Bytes
  | [] => some []
  | [_] => none
  | c :: d :: rest => do
    let high ← digitValue? c
    let low ← digitValue? d
    let bytes ← decodePairs rest
    return (16 * high + low) :: bytes

def decode (s : Bytes) : Except HexError Bytes :=
  if s.length % 2 ≠ 0 then .error .oddLength
  else match decodePairs s with
    | some bs => .ok bs
    | none => .error .badDigit

/-- A non-empty byte string in hexadecimal of either case. -/
def isValid (s : Bytes) : Bool := !s.isEmpty && s.length % 2 == 0 && s.all isDigit

/-- Only lower case digits, in any number. -/
def isLowerDigits (s : Bytes) : Bool :=
  s.all fun c => Bytes.isDigit c || ('a'.toUInt8 ≤ c && c ≤ 'f'.toUInt8)

/-- The low `k` hexadecimal digits of a number, the most significant first. -/
def digits : Nat → Nat → Bytes
  | 0, _ => []
  | k + 1, n => digits k (n / 16) ++ [digit (UInt8.ofNat (n % 16))]

def word (n : UInt64) : Bytes := digits 16 n.toNat

@[simp] theorem length_encode (bs : Bytes) : (encode bs).length = 2 * bs.length := by
  induction bs with
  | nil => rfl
  | cons b bs ih => simp only [encode, List.flatMap_cons, encodeByte] at *; simp [ih]; omega

@[simp] theorem length_digits (k n : Nat) : (digits k n).length = k := by
  induction k generalizing n with
  | zero => rfl
  | succ k ih => simp [digits, ih]

theorem isLowerDigits_digit {n : Nat} (h : n < 16) :
    isLowerDigits [digit (UInt8.ofNat n)] = true := by
  revert h
  revert n
  decide

@[simp] theorem isLowerDigits_digits (k n : Nat) : isLowerDigits (digits k n) = true := by
  induction k generalizing n with
  | zero => rfl
  | succ k ih =>
    have h : isLowerDigits [digit (UInt8.ofNat (n % 16))] = true :=
      isLowerDigits_digit (Nat.mod_lt n (by decide))
    simp only [isLowerDigits] at *
    simp [digits, ih] at *
    exact h

end StakeQuorum.Hex
