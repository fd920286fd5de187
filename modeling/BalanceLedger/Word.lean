/-
# `Word` — machine words and their arithmetic

Amounts, balances and versions are signed 64-bit words.  Their sums and
differences wrap; where a sum must not wrap it is taken with `checkedAdd`, which
answers `none` instead.  The bounds of the other words are those of numbers that
come in from outside.
-/

namespace BalanceLedger.Word

def maxInt64 : Int := 9223372036854775807

def minInt64 : Int := -9223372036854775808

def maxInt32 : Int := 2147483647

def minInt32 : Int := -2147483648

def maxNat64 : Nat := 18446744073709551615

def maxNat32 : Nat := 4294967295

/-- Does the number fit a signed 64-bit word? -/
def FitsInt64 (n : Int) : Prop :=
  minInt64 ≤ n ∧ n ≤ maxInt64

instance (n : Int) : Decidable (FitsInt64 n) :=
  inferInstanceAs (Decidable (_ ∧ _))

/-- The sum, unless it does not fit. -/
def checkedAdd (a b : Int64) : Option Int64 :=
  if FitsInt64 (a.toInt + b.toInt) then some (a + b) else none

/-- The magnitude, unless it does not fit: the least number has none. -/
def checkedAbs (a : Int64) : Option Int64 :=
  if FitsInt64 a.toInt.natAbs then some (Int64.ofInt a.toInt.natAbs) else none

/-- The text of a number, digits with a minus sign in front of a negative one. -/
def render (n : Int64) : String :=
  toString n.toInt

end BalanceLedger.Word
