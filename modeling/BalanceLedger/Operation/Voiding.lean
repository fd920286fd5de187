/-
# `Operation.Voiding` — reversing entries

A void moves the slot of an entry by the same amount to the opposite side and
adds an entry that names the voided one, which stays as it is.  An entry is voided
at most once, and a void cannot be voided.  The store has the last word: when
another void of the entry is committed in between, this one is refused.
-/
import BalanceLedger.Command
import BalanceLedger.Operation.Retry

namespace BalanceLedger

/-- What an attempt to void an entry is going to write. -/
structure VoidPlan where
  target : Entry
  changes : Store.ChangeSet
  result : VoidResult

namespace VoidCommand

def plan (c : VoidCommand) (origin : Origin) : Operation VoidPlan := do
  let some target ← Operation.read (.findEntry c.target)
    | throw (.domain (.entryNotFound c.target))
  if target.isVoid then throw (.domain (.voidOfVoid target.id))
  if (← Operation.read (.findVoidOf target.id)).isSome then
    throw (.domain (.alreadyVoided target.id))
  let some slot ← Operation.read (.loadSlot target.account target.currency)
    | throw (.domain (.noSlot target.currency.code target.account))
  let amount ← Operation.money (Amount.ofInt64 target.amount)
  let (moved, updated) ←
    Operation.lawful (slot.move target.side.opposite amount (← World.clock))
  let id ← World.freshId
  let (entry, voided) ←
    Operation.lawful (target.void c.reason moved id (← World.clock))
  let outbox ← World.stage origin
    [.balanceUpdated updated, .entryCreated entry.created, .entryVoided voided]
  return {
    target
    changes := { slot := moved, expected := slot.version, entry := some entry, outbox }
    result := {
      voidEntry := id, target := target.id, status := .voided,
      balance := entry.runningBalance } }

def once (c : VoidCommand) (origin : Origin) : Operation VoidResult := do
  let ⟨target, changes, result⟩ ← Operation.planning (c.plan origin)
  match ← World.store (.commit changes) with
  | .ok () =>
    World.log .info "Ledger entry voided"
      [("void_entry_id", result.voidEntry.toJson), ("original_entry_id", target.id.toJson),
        ("account_id", target.account.toJson), ("currency", target.currency.toJson),
        ("amount", .int64 target.amount), ("new_balance", .int64 result.balance)]
    return result
  | .error (.duplicateVoid id) => throw (.domain (.alreadyVoided id))
  | .error e => throw (.store e)

def execute (c : VoidCommand) (policy : RetryPolicy) (origin : Origin) : Operation VoidResult := do
  if Text.isBlankText c.reason then throw (.domain (.required "void reason"))
  Operation.retrying policy "void_transaction" (c.once origin)

end VoidCommand

end BalanceLedger
