/-
# `Entry` — entries of the log

An entry records one posting on a slot and the balance right after it.  Entries
are never changed: a posting is reversed by a void, an entry of the opposite side
that names it.  A void cannot be voided.
-/
import BalanceLedger.IdempotencyKey
import BalanceLedger.Slot

namespace BalanceLedger

open Time (Instant)

/-- An entry of the log. -/
structure Entry where
  id : Uuid
  account : Uuid
  currency : Currency
  side : Side
  amount : Int64
  description : String
  reference : Option String
  transaction : Option Uuid
  /-- The entry that this one voids. -/
  target : Option Uuid
  date : Instant
  /-- The balance of the slot right after this entry. -/
  runningBalance : Int64
  key : Option IdempotencyKey
deriving DecidableEq, Repr

/-- What a regular posting records. -/
structure EntryDraft where
  side : Side
  amount : Amount
  description : String
  reference : Option String
  transaction : Option Uuid
  key : Option IdempotencyKey
deriving DecidableEq, Repr

namespace Entry

def maxDescription : Nat := 500

def maxReference : Nat := 100

/-- Refuse a text that is longer than its field. -/
def checkLength (field text : String) (limit : Nat) : Except DomainError Unit :=
  if limit < text.length then .error (.tooLong field limit) else .ok ()

def slotKey (e : Entry) : Slot.Key :=
  (e.account, e.currency)

def isVoid (e : Entry) : Bool :=
  e.target.isSome

/-- The effect of the entry on its balance. -/
def signedAmount (e : Entry) : Int64 :=
  match e.side with
  | .credit => e.amount
  | .debit => -e.amount

def created (e : Entry) : EntryCreated :=
  { entry := e.id, account := e.account, currency := e.currency.code, amount := e.amount,
    side := e.side.name, runningBalance := e.runningBalance, reference := e.reference }

/-- Record a posting that has already moved the slot; only the texts of the `EntryDraft` can be
refused. -/
def post (slot : Slot) (draft : EntryDraft) (id : Uuid) (now : Instant) :
    Except DomainError Entry := do
  checkLength "description" draft.description maxDescription
  match draft.reference with
  | some reference => checkLength "reference" reference maxReference
  | none => pure ()
  return {
    id, account := slot.account, currency := slot.currency, side := draft.side,
    amount := draft.amount.val, description := draft.description, reference := draft.reference,
    transaction := draft.transaction, target := none, date := now,
    runningBalance := slot.balance, key := draft.key }

def voidDescription (reason : String) : String :=
  "VOID: " ++ Text.trim reason

/-- Record the void of an entry, which has already moved the slot. -/
def void (target : Entry) (reason : String) (slot : Slot) (id : Uuid) (now : Instant) :
    Except DomainError (Entry × EntryVoided) := do
  if target.isVoid then throw (.voidOfVoid target.id)
  checkLength "description" (voidDescription reason) maxDescription
  let entry : Entry := {
    id, account := target.account, currency := target.currency,
    side := target.side.opposite, amount := target.amount,
    description := voidDescription reason,
    reference := some ("VOID-" ++ target.id.render), transaction := target.transaction,
    target := some target.id, date := now, runningBalance := slot.balance, key := none }
  let voided : EntryVoided := {
    target := target.id, voidEntry := id, account := target.account,
    reason := Text.trim reason }
  return (entry, voided)

def toJson (e : Entry) : Json :=
  .obj
    [("id", e.id.toJson), ("account_id", e.account.toJson),
      ("currency_code", e.currency.toJson), ("entry_type", e.side.toJson),
      ("amount_minor_units", .int64 e.amount), ("description", .str e.description),
      ("reference", .text? e.reference),
      ("transaction_id", .text? (e.transaction.map Uuid.render)),
      ("original_entry_id", .text? (e.target.map Uuid.render)),
      ("entry_date", e.date.toJson), ("running_balance", .int64 e.runningBalance),
      ("idempotency_key", .text? (e.key.map IdempotencyKey.text))]

open Decode Decode.Fields in
def fields : Decode.Fields Entry :=
  Entry.mk <$> required "id" Uuid.ofJson <*> required "account_id" Uuid.ofJson <*>
    required "currency_code" Currency.ofJson <*> required "entry_type" Side.ofJson <*>
    required "amount_minor_units" int64 <*> required "description" text <*>
    optional "reference" text <*> optional "transaction_id" Uuid.ofJson <*>
    optional "original_entry_id" Uuid.ofJson <*> required "entry_date" Instant.ofJson <*>
    required "running_balance" int64 <*> optional "idempotency_key" IdempotencyKey.ofJson

def ofJson : Json → Decode.Result Entry :=
  fields.decode "LedgerEntry"

end Entry

end BalanceLedger
