/-
# `Json.Double` — doubles, and decimal numbers read as doubles

A number of the wire format that is no integer is kept as a double.  Doubles are
taken as integers times powers of two and all arithmetic on them is exact up to
one last rounding to the nearest double, of two equally near ones to the one with
an even mantissa.

A decimal number is read in two steps, each of which rounds: the leading digits
that fit a 64-bit word become a double, which is then multiplied or divided by
the power of ten that is left.  The result can therefore lie next to the double
nearest to the number; it is exact as long as the digits stay below 2^53 and the
power is at most 10^22.
-/
import BalanceLedger.Word

namespace BalanceLedger

/-- A double `mantissa · 2 ^ exponent` with its sign; the mantissa is below 2^53. -/
structure Double where
  negative : Bool := false
  mantissa : Nat
  exponent : Int
deriving DecidableEq, Repr

/-- A quotient rounded to the nearest integer; a half goes to the even one. -/
def roundHalfEven (num den : Nat) : Nat :=
  let q := num / den
  let r := 2 * (num % den)
  if r < den then q else if den < r then q + 1 else q + q % 2

/-- The quotient `num / den · base ^ exponent`, as a numerator and a denominator. -/
def scale (base num den : Nat) (exponent : Int) : Nat × Nat :=
  if 0 ≤ exponent then (num * Nat.pow base exponent.toNat, den)
  else (num, den * Nat.pow base (-exponent).toNat)

namespace Double

def leastExponent : Int := -1074

def greatestExponent : Int := 971

/-- The first number that is no mantissa: 2^53. -/
def mantissaEnd : Nat := 9007199254740992

/-- The least mantissa of a double above the least exponent: 2^52. -/
def leastMantissa : Nat := 4503599627370496

def zero : Double where
  mantissa := 0
  exponent := leastExponent

/-- The double nearest to a quotient that is not negative, whose exponent has no upper bound. -/
def nearest (num den : Nat) : Double :=
  let guess : Int := max leastExponent ((Nat.log2 num : Int) - Nat.log2 den - 53)
  let (n, d) := scale 2 num den (-guess)
  let exponent := if n / d < mantissaEnd then guess else guess + 1
  let (n, d) := scale 2 num den (-exponent)
  let mantissa := roundHalfEven n d
  if mantissa = 0 then zero
  else if mantissa < mantissaEnd then { mantissa, exponent }
  else { mantissa := leastMantissa, exponent := exponent + 1 }

/-- The double nearest to a power of ten. -/
def tenTo (k : Nat) : Double :=
  nearest (Nat.pow 10 k) 1

/-- The double nearest to the product of two that are not negative. -/
def mul (x y : Double) : Double :=
  let (n, d) := scale 2 (x.mantissa * y.mantissa) 1 (x.exponent + y.exponent)
  nearest n d

/-- The double nearest to the quotient of two that are not negative. -/
def div (x y : Double) : Double :=
  let (n, d) := scale 2 x.mantissa y.mantissa (x.exponent - y.exponent)
  nearest n d

/-- The greatest power of ten that is a finite double. -/
def greatestTen : Nat := 308

/-- A double that is not negative times a power of ten, unless the product is infinite. A quotient
is taken by `greatestTen` first where the power is greater still. -/
def timesTen? (x : Double) (power : Int) : Option Double :=
  let rest := power + greatestTen
  if x.mantissa = 0 then some zero
  else if (greatestTen : Int) < power then none
  else if 0 ≤ power then
    let product := x.mul (tenTo power.toNat)
    if product.exponent ≤ greatestExponent then some product else none
  else if 0 ≤ rest then some (x.div (tenTo (-power).toNat))
  else if -(greatestTen : Int) ≤ rest then
    some ((x.div (tenTo greatestTen)).div (tenTo (-rest).toNat))
  else some zero

/-- How many of the last digits of a number are dropped so that the rest fits a 64-bit word. -/
def excess (digits : Nat) : Nat :=
  let count := (Nat.toDigits 10 digits).length - 20
  if digits / Nat.pow 10 count ≤ Word.maxNat64 then count else count + 1

/-- The double as which `digits · 10 ^ exponent` is read, unless it is infinite. -/
def ofDecimal? (digits : Nat) (exponent : Int) : Option Double :=
  let dropped := excess digits
  (nearest (digits / Nat.pow 10 dropped) 1).timesTen? (exponent + dropped)

end Double

end BalanceLedger
