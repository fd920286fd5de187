/-
# `Side` — debit and credit

The direction of a posting: a credit adds to the balance, a debit takes from it.
-/
import BalanceLedger.Error
import BalanceLedger.Text.Blank

namespace BalanceLedger

/-- The direction of a posting. -/
inductive Side where
  | debit
  | credit
deriving DecidableEq, Repr

namespace Side

def name : Side → String
  | debit => "Debit"
  | credit => "Credit"

def opposite : Side → Side
  | debit => credit
  | credit => debit

/-- The side a text names, in any case and with white space around it. -/
def parse (s : String) : Except DomainError Side :=
  match String.ofList ((Text.trim s).toList.map Char.toLower) with
  | "debit" => .ok debit
  | "credit" => .ok credit
  | _ => .error (.invalidEntryType s)

def toJson (s : Side) : Json :=
  .str s.name

def ofJson : Json → Decode.Result Side :=
  Decode.named [("Debit", debit), ("Credit", credit)]

end Side

end BalanceLedger
