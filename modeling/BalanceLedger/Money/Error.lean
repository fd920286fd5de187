/-
# `Money.Error` — values that are no money

Why a number is no amount, or a text no currency.
-/
import BalanceLedger.Text.Quoted
import BalanceLedger.Word

namespace BalanceLedger

/-- The largest amount of a single movement, in minor units. -/
def maxAmount : Int64 := 1000000000000000

/-- Why a number is no amount, or a text no currency. -/
inductive MoneyError where
  | notPositive (n : Int64)
  | overMaximum
  /-- The code, without the white space around it. -/
  | badCurrency (code : String)
deriving DecidableEq, Repr

def MoneyError.code : MoneyError → String
  | .notPositive _ => "not_positive"
  | .overMaximum => "overflow"
  | .badCurrency _ => "invalid_currency"

def MoneyError.message : MoneyError → String
  | .notPositive n => "Amount must be positive (got " ++ Word.render n ++ ")"
  | .overMaximum =>
    "Amount exceeds maximum allowed value (" ++ Word.render maxAmount ++ ")"
  | .badCurrency code => "Invalid currency code: " ++ Text.quote code

end BalanceLedger
