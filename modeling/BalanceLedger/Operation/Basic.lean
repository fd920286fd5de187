/-
# `Operation.Basic` — operations on the ledger

An operation is a program that can fail with a `LedgerError`.  It plans first:
it reads what it needs and works out a change set, and is cancelled if shutdown
comes meanwhile.  Then it commits, and from there on it sees its business
through.
-/
import BalanceLedger.World

namespace BalanceLedger

/-- A program that can fail. -/
abbrev Operation (α : Type) := ExceptT LedgerError (Program World) α

namespace Operation

/-- A reading or a write whose outcome is waited for. -/
def ask (request : Store.Request) : Operation request.Answer := do
  match ← World.store request with
  | .ok answer => return answer
  | .error e => throw (.store e)

def read (request : Store.Request) : Operation request.Answer := do
  match ← (Program.call (I := World) (.plan request) : Program World _) with
  | some (.ok answer) => return answer
  | some (.error e) => throw (.store e)
  | none => throw .cancelled

/-- Work out a plan, unless shutdown has come already. -/
def planning {α : Type} (plan : Operation α) : Operation α := do
  if ← (Program.call (I := World) .stopping : Program World Bool) then throw .cancelled
  plan

/-- The value, unless a business rule is broken, which is a `DomainError`. -/
def lawful {α : Type} : Except DomainError α → Operation α
  | .ok a => return a
  | .error e => throw (.domain e)

/-- The value, unless it is no money, which is a `MoneyError`. -/
def money {α : Type} : Except MoneyError α → Operation α
  | .ok a => return a
  | .error e => throw (.ofMoney e)

end Operation

end BalanceLedger
