import StakeQuorum.Bytes

/-! # Base58 text

A byte string is read as a number and written with fifty-eight digits; each leading zero byte is
written as the digit `1`. Both directions multiply a buffer of digits by the old base and add the
next input digit. The buffer is sized from the length of the input before the conversion starts.
-/

namespace StakeQuorum.Base58

/-- The digits in the order of their values: no `0`, `O`, `I` or `l`. -/
def alphabet : Bytes := "123456789ABCDEFGHJKLMNPQRSTUVWXYZabcdefghijkmnopqrstuvwxyz"

def digitValue? (c : UInt8) : Option Nat := alphabet.idxOf? c

def digit (n : Nat) : UInt8 := alphabet.getD n 0

def isBase58 (s : Bytes) : Bool := s.all fun c => (digitValue? c).isSome

/-- Multiplies a buffer of digits, the lowest first, and adds `carry`. Answers the buffer and what
no longer fits. -/
def mulAdd (base factor : Nat) : List Nat → Nat → List Nat × Nat
  | [], carry => ([], carry)
  | d :: ds, carry =>
    let t := factor * d + carry
    let (ds', out) := mulAdd base factor ds (t / base)
    (t % base :: ds', out)

/-- Converts digits in base `factor`, the highest first, into a buffer of `size` digits in
`base`, the lowest first. What does not fit the buffer is lost. -/
def convert (base factor size : Nat) (ds : List Nat) : List Nat :=
  ds.foldl (fun buffer d => (mulAdd base factor buffer d).1) (List.replicate size 0)

/-- Room for the Base58 digits of `n` bytes: log 256 / log 58 is less than 1.38. -/
def digitRoom (n : Nat) : Nat := n * 138 / 100 + 1

/-- Room for the bytes of `n` Base58 digits: log 58 / log 256 is less than 0.733. -/
def byteRoom (n : Nat) : Nat := n * 733 / 1000 + 1

/-- The digits of a buffer, the highest first, without leading zeros. -/
def significant (buffer : List Nat) : List Nat := buffer.reverse.dropWhile (· == 0)

def encode (bs : Bytes) : Bytes :=
  let zeros := bs.takeWhile (· == 0)
  let rest := bs.dropWhile (· == 0)
  let digits := convert 58 256 (digitRoom rest.length) (rest.map UInt8.toNat)
  List.replicate zeros.length '1'.toUInt8 ++ (significant digits).map digit

/-- The bytes that a text stands for; `none` at a character outside the alphabet. -/
def decode? (s : Bytes) : Option Bytes := do
  let ones := s.takeWhile (· == '1'.toUInt8)
  let rest := s.dropWhile (· == '1'.toUInt8)
  let values ← rest.mapM digitValue?
  let bytes := convert 256 58 (byteRoom rest.length) values
  return List.replicate ones.length 0 ++ (significant bytes).map UInt8.ofNat

end StakeQuorum.Base58
