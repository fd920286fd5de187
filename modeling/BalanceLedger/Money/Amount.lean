/-
# `Money.Amount` — amounts of a movement

An amount is a positive number of minor units of at most 10^15.  Balances and
changes, which can be zero or negative, are plain words.
-/
import BalanceLedger.Json.Decode
import BalanceLedger.Money.Error

namespace BalanceLedger

/-- A positive number of minor units, at most `maxAmount`. -/
structure Amount where
  val : Int64
  pos : 0 < val
  le_max : val ≤ maxAmount
deriving DecidableEq, Repr

namespace Amount

/-- The amount a number stands for. -/
def ofInt64 (n : Int64) : Except MoneyError Amount :=
  if hpos : 0 < n then
    if hmax : n ≤ maxAmount then .ok ⟨n, hpos, hmax⟩ else .error .overMaximum
  else .error (.notPositive n)

def render (a : Amount) : String :=
  Word.render a.val

def toJson (a : Amount) : Json :=
  .int64 a.val

def ofJson (v : Json) : Decode.Result Amount :=
  (Decode.int64 v).bind fun n => (ofInt64 n).mapError fun e => .refused e.message

end Amount

end BalanceLedger
