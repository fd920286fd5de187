/-
# `Sql.Wire` — talking to a database

A conversation with a database: statements with the values that are bound to
them, and the marks of a transaction between them.  A script is a text of several
statements without values.
-/
import BalanceLedger.Program
import BalanceLedger.Sql.Value

namespace BalanceLedger.Sql

/-- What is sent to a database. -/
inductive Wire.Request where
  /-- Start a transaction. -/
  | start
  | commit
  | rollback
  | statement (sql : String) (values : List Value)
  | script (sql : String)
deriving DecidableEq

/-- What the database answers. -/
abbrev Wire.Reply : Wire.Request → Type
  | .start => Except DatabaseError Unit
  | .commit => Except DatabaseError Unit
  | .rollback => Unit
  | .statement .. => Except DatabaseError Outcome
  | .script _ => Except DatabaseError Unit

/-- A conversation with a database. -/
abbrev Wire : Interface where
  Request := Wire.Request
  Reply := Wire.Reply

namespace Wire

def Request.sql : Request → String
  | .start => "BEGIN"
  | .commit => "COMMIT"
  | .rollback => "ROLLBACK"
  | .statement sql _ => sql
  | .script sql => sql

def execute (sql : String) (values : List Value) : Program Wire (Except DatabaseError Outcome) :=
  Program.call (I := Wire) (.statement sql values)

/-- Send a statement and read its result. -/
def query {α : Type} (sql : String) (values : List Value) (read : Outcome → Reading α) :
    Program Wire (Reading α) := do
  return (← execute sql values).bind read

end Wire

end BalanceLedger.Sql
