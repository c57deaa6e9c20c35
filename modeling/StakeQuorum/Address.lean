import StakeQuorum.Hex

/-! # Addresses

An identity on the external chain is a text of forty-four letters and digits. Its internal address
is an alias: the name of the system and sixty-four hexadecimal digits from four chained rounds of a
64-bit string hash. The alias is for display and name spaces; two identities may share one.
-/

namespace StakeQuorum.Address

inductive AddressError
  | badExternalLength (length : Nat)
  | badExternalCharacter
  | missingMark
  | badDigitCount (count : Nat)
  | badDigit
  deriving DecidableEq, Repr

/-- What every internal address starts with. -/
def mark : Bytes := "dadbs"

def digitCount : Nat := 64

def externalLength : Nat := 44

namespace AddressError

def reason : AddressError → Bytes
  | .badExternalLength n =>
    "external address must be " ++ Bytes.decimal externalLength ++ " characters, got " ++
      Bytes.decimal n
  | .badExternalCharacter => "external address must be ASCII alphanumeric"
  | .missingMark => "missing '" ++ mark ++ "' prefix"
  | .badDigitCount n =>
    "expected " ++ Bytes.decimal digitCount ++ " hex digits after prefix, got " ++ Bytes.decimal n
  | .badDigit => "non-hex or uppercase character after prefix"

def message (e : AddressError) : Bytes := "address format error: " ++ e.reason

end AddressError

/-- Exactly forty-four ASCII letters and digits. -/
def isExternal (s : Bytes) : Bool := s.length == externalLength && s.all Bytes.isAlphanumeric

/-- The 64-bit string hash: multiply by 33, add the next byte. -/
def djb2 (s : Bytes) : UInt64 := s.foldl (fun acc c => acc * 33 + c.toUInt64) 5381

/-- An internal address: sixty-four lower case hexadecimal digits. -/
@[ext] structure Internal where
  digits : Bytes
  length_eq : digits.length = digitCount
  lower : Hex.isLowerDigits digits = true

namespace Internal

instance : DecidableEq Internal := fun a b =>
  decidable_of_iff (a.digits = b.digits) Internal.ext_iff.symm

def text (a : Internal) : Bytes := mark ++ a.digits

/-- Addresses compare as their texts. -/
instance : LT Internal := ⟨fun a b => a.text < b.text⟩

instance (a b : Internal) : Decidable (a < b) := inferInstanceAs (Decidable (a.text < b.text))

end Internal

/-- The digits of `rounds` chained rounds, the first of which has the number `i`. Each round hashes
the digits of the one before it, followed by its own number in decimal. -/
def chain : Nat → Nat → Bytes → Bytes
  | 0, _, _ => []
  | rounds + 1, i, input =>
    let digits := Hex.word (djb2 input)
    digits ++ chain rounds (i + 1) (digits ++ Bytes.decimal (i + 1))

@[simp] theorem length_chain (rounds i : Nat) (input : Bytes) :
    (chain rounds i input).length = 16 * rounds := by
  induction rounds generalizing i input with
  | zero => rfl
  | succ rounds ih =>
    simp only [chain, List.length_append, ih, Hex.word, Hex.length_digits]
    omega

theorem isLowerDigits_append (a b : Bytes) :
    Hex.isLowerDigits (a ++ b) = (Hex.isLowerDigits a && Hex.isLowerDigits b) := by
  simp [Hex.isLowerDigits]

@[simp] theorem isLowerDigits_chain (rounds i : Nat) (input : Bytes) :
    Hex.isLowerDigits (chain rounds i input) = true := by
  induction rounds generalizing i input with
  | zero => rfl
  | succ rounds ih => simp [chain, isLowerDigits_append, ih, Hex.word]

def derive (external : Bytes) : Except AddressError Internal :=
  if external.length ≠ externalLength then .error (.badExternalLength external.length)
  else if !isExternal external then .error .badExternalCharacter
  else .ok ⟨chain 4 0 external, by simp [digitCount], by simp⟩

def parse (s : Bytes) : Except AddressError Internal :=
  if s.take mark.length ≠ mark then .error .missingMark
  else
    let digits := s.drop mark.length
    if hl : digits.length = digitCount then
      if hd : Hex.isLowerDigits digits = true then .ok ⟨digits, hl, hd⟩ else .error .badDigit
    else .error (.badDigitCount digits.length)

/-- The internal address with a text, if there is one. -/
def parse? (s : Bytes) : Option Internal := (parse s).toOption

end StakeQuorum.Address
