/-
# `Operation.Posting` — credits and debits

A posting moves a slot, adds an entry to the log and announces both.  A posting
with an idempotency key takes effect once: when the key already has an entry,
that entry's outcome is the answer and nothing is written.  The key is looked up
before anything else, and again when the store refuses the change set because
the key has been used in between.
-/
import BalanceLedger.Command
import BalanceLedger.Operation.Retry

namespace BalanceLedger

/-- A posting that has been checked. -/
structure Posting where
  account : Uuid
  currency : Currency
  draft : EntryDraft
  /-- What is answered when the posting is written. -/
  status : PostingStatus
deriving DecidableEq, Repr

/-- What an attempt is going to do. -/
inductive PostingPlan where
  /-- The key has an entry already. -/
  | replay (winner : Entry)
  | commit (changes : Store.ChangeSet) (result : PostingResult)

namespace Posting

/-- Check a command: the amount, the currency, the key and the description, in this order. -/
def ofCommand (c : PostCommand) : Except DomainError Posting := do
  let amount ← (Amount.ofInt64 c.amount).mapError .ofMoney
  let currency ← (Currency.parse c.currency).mapError .ofMoney
  let key ← c.key.mapM IdempotencyKey.parse
  if Text.isBlankText c.description then throw (.required "description")
  return {
    account := c.account, currency, status := .posted
    draft := {
      side := c.side, amount, description := c.description, reference := c.reference,
      transaction := c.transaction, key } }

/-- Is the entry what this posting asks for? -/
def agrees (p : Posting) (e : Entry) : Bool :=
  e.account = p.account && e.currency = p.currency && e.amount = p.draft.amount.val &&
    e.side = p.draft.side

/-- A key as it is written to the log. -/
def describeKey : Option IdempotencyKey → String
  | none => "None"
  | some key => "Some(IdempotencyKey(" ++ Text.quote key.text ++ "))"

/-- The answer of the entry that holds the key. -/
def replay (p : Posting) (winner : Entry) : Program World PostingResult := do
  if !p.agrees winner then
    World.log .warn
      "Idempotency key reused with a different request; returning the original outcome"
      [("entry_id", winner.id.toJson), ("idempotency_key", .str (describeKey winner.key))]
  return { entry := winner.id, status := .alreadyProcessed, balance := winner.runningBalance }

/-- The entry that holds the key of a posting. -/
def earlier (p : Posting) : Operation (Option Entry) :=
  match p.draft.key with
  | none => return none
  | some key => Operation.read (.findByKey key)

def plan (p : Posting) (origin : Origin) : Operation PostingPlan := do
  if let some winner ← p.earlier then return .replay winner
  let stored ← Operation.read (.loadSlot p.account p.currency)
  let now ← World.clock
  let slot := stored.getD (.opened p.account p.currency now)
  let (moved, updated) ← Operation.lawful (slot.move p.draft.side p.draft.amount now)
  let id ← World.freshId
  let entry ← Operation.lawful (Entry.post moved p.draft id (← World.clock))
  let outbox ← World.stage origin [.balanceUpdated updated, .entryCreated entry.created]
  return .commit
    { slot := moved, expected := slot.version, entry := some entry, outbox }
    { entry := id, status := p.status, balance := entry.runningBalance }

def once (p : Posting) (origin : Origin) : Operation PostingResult := do
  match ← Operation.planning (p.plan origin) with
  | .replay winner => p.replay winner
  | .commit changes result =>
    match ← World.store (.commit changes) with
    | .ok () =>
      World.log .info "Ledger entry posted"
        [("entry_id", result.entry.toJson), ("account_id", p.account.toJson),
          ("currency", p.currency.toJson), ("entry_type", p.draft.side.toJson),
          ("amount", p.draft.amount.toJson), ("new_balance", .int64 result.balance),
          ("status", result.status.toJson)]
      return result
    | .error (.duplicateKey text) =>
      let key ← Operation.lawful (IdempotencyKey.parse text)
      match ← Operation.ask (.findByKey key) with
      | some winner => p.replay winner
      | none => throw (.orphanKey key.text)
    | .error e => throw (.store e)

/-- Apply a checked posting. -/
def apply (p : Posting) (policy : RetryPolicy) (origin : Origin) : Operation PostingResult :=
  Operation.retrying policy "post_transaction" (p.once origin)

end Posting

namespace PostCommand

def execute (c : PostCommand) (policy : RetryPolicy) (origin : Origin) :
    Operation PostingResult := do
  let posting ← Operation.lawful (Posting.ofCommand c)
  posting.apply policy origin

end PostCommand

end BalanceLedger
