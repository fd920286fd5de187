/-
# `Operation.Reservation` — setting funds aside

Reserving takes an amount out of what is available without moving the balance,
and releasing gives it back.  Neither adds an entry to the log.
-/
import BalanceLedger.Command
import BalanceLedger.Operation.Retry

namespace BalanceLedger

/-- What is done to the reserved part of a slot. -/
inductive Earmark where
  | reserve
  | release
deriving DecidableEq, Repr

namespace Earmark

def operation : Earmark → String
  | reserve => "reserve_funds"
  | release => "release_reservation"

def status : Earmark → PostingStatus
  | reserve => .reserved
  | release => .released

/-- Why it cannot be done to a slot that was never stored. -/
def missing (k : Earmark) (account : Uuid) (currency : Currency) (amount : Amount) : DomainError :=
  match k with
  | reserve => .insufficientBalance amount.val 0
  | release => .noSlot currency.code account

def change (k : Earmark) (slot : Slot) (amount : Amount) (now : Time.Instant) :
    Except DomainError (Slot × Event) :=
  match k with
  | reserve => (slot.reserve amount now).map fun (s, e) => (s, .fundsReserved e)
  | release => (slot.release amount now).map fun (s, e) => (s, .reservationReleased e)

/-- What is answered, by the slot after the change. -/
def result (k : Earmark) (slot : Slot) : ReservationResult :=
  { account := slot.account, currency := slot.currency.code, status := k.status,
    reserved := slot.reserved, available := slot.available }

def plan (k : Earmark) (account : Uuid) (currency : Currency) (amount : Amount)
    (origin : Origin) : Operation (Store.ChangeSet × ReservationResult) := do
  let some slot ← Operation.read (.loadSlot account currency)
    | throw (.domain (k.missing account currency amount))
  let (changed, event) ← Operation.lawful (k.change slot amount (← World.clock))
  let outbox ← World.stage origin [event]
  return ({ slot := changed, expected := slot.version, entry := none, outbox }, k.result changed)

def once (k : Earmark) (account : Uuid) (currency : Currency) (amount : Amount)
    (origin : Origin) : Operation ReservationResult := do
  let (changes, result) ← Operation.planning (k.plan account currency amount origin)
  Operation.ask (.commit changes)
  World.log .info "Reservation updated"
    [("account_id", account.toJson), ("currency", currency.toJson), ("amount", amount.toJson),
      ("reserved", .int64 result.reserved), ("available", .int64 result.available),
      ("status", result.status.toJson)]
  return result

end Earmark

namespace ReserveCommand

/-- Execute the command, as a reservation or as a release. -/
def execute (c : ReserveCommand) (k : Earmark) (policy : RetryPolicy) (origin : Origin) :
    Operation ReservationResult := do
  let amount ← Operation.money (Amount.ofInt64 c.amount)
  let currency ← Operation.money (Currency.parse c.currency)
  Operation.retrying policy k.operation (k.once c.account currency amount origin)

end ReserveCommand

end BalanceLedger
