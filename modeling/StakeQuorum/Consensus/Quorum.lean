/-! # Quorum

A quorum is strictly more than two thirds of the validators. Counts are 64-bit words.
-/

namespace StakeQuorum.Quorum

/-- The number of confirmations that has to be exceeded. -/
def threshold (validators : UInt64) : UInt64 := validators * 2 / 3

def reached (confirmations validators : UInt64) : Bool := threshold validators < confirmations

end StakeQuorum.Quorum
