/-
# `Money.Currency` — currencies and their minor units

A currency is an alphabetic code of three letters, kept in upper case.  Which
power of ten divides a unit of it is the standard's: most have two decimal
places, some none and some three.  The amount in major units is for display
only.
-/
import BalanceLedger.Json.Decode
import BalanceLedger.Money.Error
import BalanceLedger.Text.Blank
import BalanceLedger.Time.Rfc3339

namespace BalanceLedger

/-- Three upper-case letters. -/
def isCurrencyCode (code : String) : Bool :=
  code.toList.length == 3 && code.toList.all Char.isUpper

/-- A currency. -/
structure Currency where
  code : String
  valid : isCurrencyCode code = true
deriving DecidableEq, Repr

namespace Currency

/-- The currency a text names, in either case and with white space around it. -/
def parse (s : String) : Except MoneyError Currency :=
  let code := Text.trim s
  let upper := String.ofList (code.toList.map Char.toUpper)
  if h : isCurrencyCode upper = true then .ok ⟨upper, h⟩ else .error (.badCurrency code)

/-- Currencies without minor units. -/
def undivided : List String :=
  ["BIF", "CLP", "DJF", "GNF", "ISK", "JPY", "KMF", "KRW", "PYG", "RWF", "UGX", "VND", "VUV",
    "XAF", "XOF", "XPF"]

/-- Currencies whose unit has a thousand parts. -/
def thousandths : List String :=
  ["BHD", "IQD", "JOD", "KWD", "LYD", "OMR", "TND"]

/-- How many decimal places the minor unit has. -/
def places (c : Currency) : Nat :=
  if undivided.contains c.code then 0
  else if thousandths.contains c.code then 3
  else 2

/-- Currencies are ordered by code. -/
def le (a b : Currency) : Bool :=
  a.code ≤ b.code

/-- A number with a fixed number of decimal places. -/
def renderFixed (places : Nat) (n : Int) : String :=
  let sign := if n < 0 then "-" else ""
  let size := n.natAbs
  if places = 0 then sign ++ toString size
  else
    let unit := Nat.pow 10 places
    sign ++ toString (size / unit) ++ "." ++ Time.padded places (size % unit)

/-- A number of minor units in major units, with all decimal places of the currency. -/
def majorUnits (c : Currency) (minor : Int64) : String :=
  renderFixed c.places minor.toInt

def toJson (c : Currency) : Json :=
  .str c.code

/-- From a JSON text, in any form that names a currency. -/
def ofJson (v : Json) : Decode.Result Currency :=
  Decode.parsed (fun s => (parse s).mapError MoneyError.message) v

end Currency

end BalanceLedger
