/-
# `Sql.Table` — rows of the three tables

How slots, entries and messages are written into rows and read back.  A row can
have values of the right types that still make no slot, entry or message, such as
a currency that is none; such a row is corrupt, and it is refused and not left
out.
-/
import BalanceLedger.Sql.Value
import BalanceLedger.Store.Basic

namespace BalanceLedger.Sql

open Outbox (Message Status)
open Time (Instant)

/-- A value, unless the row is `corrupt`. -/
abbrev Mapped (α : Type) := Except StoreError α

/-! ## Slots -/

/-- A row of the table of slots. -/
structure SlotRow where
  account : Uuid
  currency : String
  balance : Int64
  reserved : Int64
  version : Int64
  updatedAt : Instant
deriving DecidableEq, Repr

namespace SlotRow

def columns : List String :=
  ["account_id", "currency_code", "balance_minor_units", "reserved_minor_units", "version",
    "last_updated_at"]

def read (row : Row) : Reading SlotRow := do
  return {
    account := ← row.named "account_id" .uuid
    currency := ← row.named "currency_code" .text
    balance := ← row.named "balance_minor_units" .int8
    reserved := ← row.named "reserved_minor_units" .int8
    version := ← row.named "version" .int8
    updatedAt := ← row.named "last_updated_at" .time }

def toSlot (r : SlotRow) : Mapped Slot := do
  let currency ← (Currency.parse r.currency).mapError fun e => .corrupt e.message
  return {
    account := r.account, currency, balance := r.balance, reserved := r.reserved,
    version := r.version, updatedAt := r.updatedAt }

end SlotRow

/-- The values of a slot, in the order of the columns. -/
def slotValues (s : Slot) : List Value :=
  [.uuid s.account, .text s.currency.code, .int8 s.balance, .int8 s.reserved, .int8 s.version,
    .time s.updatedAt]

/-! ## Entries -/

/-- A row of the table of entries. -/
structure EntryRow where
  id : Uuid
  account : Uuid
  currency : String
  side : String
  amount : Int64
  description : String
  reference : Option String
  transaction : Option Uuid
  target : Option Uuid
  date : Instant
  runningBalance : Int64
  key : Option String
deriving DecidableEq, Repr

namespace EntryRow

def columns : List String :=
  ["id", "account_id", "currency_code", "entry_type", "amount_minor_units", "description",
    "reference", "transaction_id", "original_entry_id", "entry_date", "running_balance",
    "idempotency_key"]

def read (row : Row) : Reading EntryRow := do
  return {
    id := ← row.named "id" .uuid
    account := ← row.named "account_id" .uuid
    currency := ← row.named "currency_code" .text
    side := ← row.named "entry_type" .text
    amount := ← row.named "amount_minor_units" .int8
    description := ← row.named "description" .text
    reference := ← row.named "reference" Column.text.optional
    transaction := ← row.named "transaction_id" Column.uuid.optional
    target := ← row.named "original_entry_id" Column.uuid.optional
    date := ← row.named "entry_date" .time
    runningBalance := ← row.named "running_balance" .int8
    key := ← row.named "idempotency_key" Column.text.optional }

/-- Why the row of an entry is corrupt. -/
def corrupt (r : EntryRow) (reason : String) : StoreError :=
  .corrupt ("entry " ++ r.id.render ++ ": " ++ reason)

def toEntry (r : EntryRow) : Mapped Entry := do
  let currency ← (Currency.parse r.currency).mapError fun e => r.corrupt e.message
  let side ← (Side.parse r.side).mapError fun e => r.corrupt e.message
  let key ← (r.key.mapM IdempotencyKey.parse).mapError fun e => r.corrupt e.message
  return {
    id := r.id, account := r.account, currency, side, amount := r.amount,
    description := r.description, reference := r.reference, transaction := r.transaction,
    target := r.target, date := r.date, runningBalance := r.runningBalance, key }

end EntryRow

/-- The values of an entry, in the order of the columns. -/
def entryValues (e : Entry) : List Value :=
  [.uuid e.id, .uuid e.account, .text e.currency.code, .text e.side.name, .int8 e.amount,
    .text e.description, .ofOption .text e.reference, .ofOption .uuid e.transaction,
    .ofOption .uuid e.target, .time e.date, .int8 e.runningBalance,
    .ofOption .text (e.key.map IdempotencyKey.text)]

/-! ## Messages -/

/-- A row of the table of messages. -/
structure MessageRow where
  id : Uuid
  eventType : String
  payload : Json
  occurredAt : Instant
  processedAt : Option Instant
  claimedAt : Option Instant
  status : String
  retryCount : Int32
  error : Option String
  correlationId : Option String
  initiatedBy : Option String
deriving DecidableEq

namespace MessageRow

def columns : List String :=
  ["id", "event_type", "payload", "occurred_at", "processed_at", "claimed_at", "status",
    "retry_count", "error", "correlation_id", "initiated_by"]

/-- The columns that are written when a message is added. -/
def added : List String :=
  ["id", "event_type", "payload", "occurred_at", "status", "retry_count", "correlation_id",
    "initiated_by"]

def read (row : Row) : Reading MessageRow := do
  return {
    id := ← row.named "id" .uuid
    eventType := ← row.named "event_type" .text
    payload := ← row.named "payload" .json
    occurredAt := ← row.named "occurred_at" .time
    processedAt := ← row.named "processed_at" Column.time.optional
    claimedAt := ← row.named "claimed_at" Column.time.optional
    status := ← row.named "status" .text
    retryCount := ← row.named "retry_count" .int4
    error := ← row.named "error" Column.text.optional
    correlationId := ← row.named "correlation_id" Column.text.optional
    initiatedBy := ← row.named "initiated_by" Column.text.optional }

def toMessage (r : MessageRow) : Mapped Message := do
  let status ← (Status.parse r.status).mapError fun reason =>
    .corrupt ("outbox message " ++ r.id.render ++ ": " ++ reason)
  return {
    id := r.id, eventType := r.eventType, payload := r.payload, occurredAt := r.occurredAt,
    processedAt := r.processedAt, claimedAt := r.claimedAt, status, retryCount := r.retryCount,
    error := r.error, correlationId := r.correlationId, initiatedBy := r.initiatedBy }

end MessageRow

/-- The values that are written when a message is added, in the order of the columns. -/
def messageValues (m : Message) : List Value :=
  [.uuid m.id, .text m.eventType, .json m.payload, .time m.occurredAt, .text m.status.name,
    .int4 m.retryCount, .ofOption .text m.correlationId, .ofOption .text m.initiatedBy]

end BalanceLedger.Sql
