/-
# `IdempotencyKey` — keys that make a posting unique

A key is a text without white space around it, not empty and of at most a
hundred characters.  The ledger holds at most one entry per key, so a command
that is sent twice under one key takes effect once.
-/
import BalanceLedger.Error
import BalanceLedger.Text.Blank

namespace BalanceLedger

def maxKeyLength : Nat := 100

/-- A validated key. -/
structure IdempotencyKey where
  text : String
  trimmed : Text.trim text = text
  nonempty : text.isEmpty = false
  short : text.length ≤ maxKeyLength
deriving DecidableEq, Repr

namespace IdempotencyKey

/-- The key a text stands for. -/
def parse (s : String) : Except DomainError IdempotencyKey :=
  if hempty : (Text.trim s).isEmpty = true then .error .emptyKey
  else if hlong : maxKeyLength < (Text.trim s).length then .error (.longKey maxKeyLength)
  else
    .ok
      { text := Text.trim s
        trimmed := Text.trim_trim s
        nonempty := by simpa using hempty
        short := Nat.le_of_not_lt hlong }

def toJson (k : IdempotencyKey) : Json :=
  .str k.text

def ofJson (v : Json) : Decode.Result IdempotencyKey :=
  Decode.parsed (fun s => (parse s).mapError DomainError.message) v

end IdempotencyKey

end BalanceLedger
