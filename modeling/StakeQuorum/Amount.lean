/-! # Amounts

Balances are unsigned 64-bit words that wrap, so whoever adds them asks first whether the sum fits.
-/

namespace StakeQuorum

abbrev Amount := UInt64

namespace Amount

/-- The base units of one token. -/
def perToken : Amount := 1000000000

def max : Amount := UInt64.ofNat (UInt64.size - 1)

/-- The sum of two amounts does not fit a word. -/
def addOverflows (a b : Amount) : Bool := max - b < a

theorem addOverflows_iff (a b : Amount) :
    addOverflows a b = true ↔ UInt64.size ≤ a.toNat + b.toNat := by
  have hb : b.toNat < UInt64.size := b.toNat_lt
  have hmax : max.toNat = UInt64.size - 1 := by decide
  have hle : b ≤ max := by rw [UInt64.le_iff_toNat_le]; omega
  rw [addOverflows, decide_eq_true_iff, UInt64.lt_iff_toNat_lt, UInt64.toNat_sub_of_le _ _ hle]
  omega

/-- The sum of two amounts, or the greatest amount if that does not fit. -/
def saturatingAdd (a b : Amount) : Amount := if addOverflows a b then max else a + b

end Amount

end StakeQuorum
