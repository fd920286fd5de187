/-
# `Json.Shortest` — the fewest digits that name a double

A double is written with the fewest digits that name it: those of a decimal number
to which it is the nearest double.  All arithmetic is exact: the reals that round
to a double are an interval around it, and the grids of one, two, three digits and
so on are searched for a point of that interval.
-/
import BalanceLedger.Json.Double

namespace BalanceLedger

namespace Double

/-- Does `digits · 10 ^ place` round to the double? -/
def isNamedBy (x : Double) (digits : Nat) (place : Int) : Bool :=
  let (n, d) := scale 10 digits 1 place
  let (n, d) := scale 2 n d (2 - x.exponent)
  let below := if x.mantissa = leastMantissa ∧ leastExponent < x.exponent then 1 else 2
  let low := (4 * x.mantissa - below) * d
  let high := (4 * x.mantissa + 2) * d
  if x.mantissa % 2 = 0 then low ≤ n && n ≤ high else low < n && n < high

/-- The position of the point behind the leading digit of a positive quotient: the `p` with
`10 ^ (p - 1) ≤ num / den < 10 ^ p`. -/
def magnitude (num den : Nat) : Int :=
  if den ≤ num then (Nat.toDigits 10 (num / den)).length
  else
    let count := (Nat.toDigits 10 (den / num)).length
    (if den = num * Nat.pow 10 (count - 1) then 2 else 1) - (count : Int)

/-- Of the two neighbours on the grid of `count` digits, the nearer one that names the double. -/
def onGrid? (x : Double) (count : Nat) : Option (Nat × Int) :=
  let (num, den) := scale 2 x.mantissa 1 x.exponent
  let place := magnitude num den - count
  let (n, d) := scale 10 num den (-place)
  let near := roundHalfEven n d
  let far := if near = n / d then near + 1 else n / d
  if x.isNamedBy near place then some (near, place)
  else if x.isNamedBy far place then some (far, place)
  else none

/-- The fewest digits that name the double, and the place of the last of them. -/
def shortest (x : Double) : Nat × Int :=
  ((List.range 17).findSome? fun i => x.onGrid? (i + 1)).getD (0, 0)

end Double

/-- Digits without the zeros at their end, and the place of the last one left. -/
def stripZeros (ds : List Char) (place : Int) : List Char × Int :=
  let zeros := (ds.reverse.takeWhile (· = '0')).length
  (ds.take (ds.length - zeros), place + zeros)

/-- How digits are laid out: with a point where it falls within or near them, else with an
exponent, which always has a sign. -/
def layOut (ds : List Char) (place : Int) : List Char :=
  let point : Int := ds.length + place
  if 0 ≤ place ∧ point ≤ 16 then
    ds ++ List.replicate place.toNat '0' ++ ['.', '0']
  else if 0 < point ∧ point ≤ 16 then
    ds.take point.toNat ++ '.' :: ds.drop point.toNat
  else if -5 < point ∧ point ≤ 0 then
    ['0', '.'] ++ List.replicate (-point).toNat '0' ++ ds
  else
    let exponent := (if 0 < point then ['e', '+'] else ['e']) ++ (toString (point - 1)).toList
    if ds.length = 1 then ds ++ exponent else ds.take 1 ++ '.' :: ds.drop 1 ++ exponent

def Double.render (x : Double) : String :=
  let ds :=
    if x.mantissa = 0 then ['0', '.', '0']
    else
      let (digits, place) := x.shortest
      let (ds, place) := stripZeros (Nat.toDigits 10 digits) place
      layOut ds place
  String.ofList (if x.negative then '-' :: ds else ds)

end BalanceLedger
