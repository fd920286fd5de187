/-
# `Log` — lines for operators

What the ledger reports while it works.  A line has a fixed message and named
fields; integers are fields as numbers, everything else as text.
-/
import BalanceLedger.Json.Equality

namespace BalanceLedger.Log

/-- How urgent a line is. -/
inductive Level where
  | info
  | warn
  | error
deriving DecidableEq, Repr

def Level.name : Level → String
  | info => "INFO"
  | warn => "WARN"
  | error => "ERROR"

/-- A line of the log. -/
structure Line where
  level : Level
  message : String
  fields : List (String × Json) := []
deriving DecidableEq

/-- The line without its fields. -/
def Line.toBriefJson (l : Line) : Json :=
  .obj [("level", .str l.level.name), ("message", .str l.message)]

def Line.toJson (l : Line) : Json :=
  .obj [("level", .str l.level.name), ("message", .str l.message), ("fields", .obj l.fields)]

/-- An optional text as a field: a dash where there is none. -/
def textOrDash (s : Option String) : Json :=
  .str (s.getD "-")

end BalanceLedger.Log
