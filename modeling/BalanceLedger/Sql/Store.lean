/-
# `Sql.Store` — a store in a database

Each request to a store as a conversation with a database.  A change set is one
transaction: the slot, guarded by its version, then the entry, then the messages.
The slot is written first, and when no row is written, another operation has
moved it.  That a key or a void is unique is left to constraints of the table of
entries, and a violated constraint is told by its name.  A transaction that is
not committed ends with a rollback.
-/
import BalanceLedger.Sql.Table
import BalanceLedger.Sql.Wire

namespace BalanceLedger.Sql

open Outbox (Message Status StatusCounts)
open Time (Instant)
open Store (ChangeSet Request)

/-- Names of columns in a statement. -/
def listed (columns : List String) : String :=
  ", ".intercalate columns

/-- A failure of the database as a failure of the store. -/
def storeError (e : DatabaseError) : StoreError :=
  .database e.message

/-! ## Statements -/

namespace Statement

def selectSlots : String :=
  "SELECT " ++ listed SlotRow.columns ++ " FROM account_balances"

def slot : String :=
  selectSlots ++ " WHERE account_id = $1 AND currency_code = $2"

def slots : String :=
  selectSlots ++ " WHERE account_id = $1 ORDER BY currency_code"

def insertSlot : String :=
  "INSERT INTO account_balances ( " ++ listed SlotRow.columns ++
    " ) VALUES ($1, $2, $3, $4, $5, $6) ON CONFLICT (account_id, currency_code) DO NOTHING"

def updateSlot : String :=
  "UPDATE account_balances SET balance_minor_units = $3, reserved_minor_units = $4, " ++
    "version = $5, last_updated_at = $6 " ++
    "WHERE account_id = $1 AND currency_code = $2 AND version = $7"

def selectEntries : String :=
  "SELECT " ++ listed EntryRow.columns ++ " FROM ledger_entries"

/-- The entry with a value in a column. -/
def entryBy (column : String) : String :=
  selectEntries ++ " WHERE " ++ column ++ " = $1"

def insertEntry : String :=
  "INSERT INTO ledger_entries ( " ++ listed EntryRow.columns ++
    " ) VALUES ($1, $2, $3, $4, $5, $6, $7, $8, $9, $10, $11, $12)"

/-- Which entries a query of the history selects. -/
def historyFilter : String :=
  "WHERE account_id = $1 AND ($2::varchar IS NULL OR currency_code = $2) " ++
    "AND ($3::varchar IS NULL OR entry_type = $3) " ++
    "AND ($4::timestamptz IS NULL OR entry_date >= $4) " ++
    "AND ($5::timestamptz IS NULL OR entry_date <= $5)"

/-- How many entries a query of the history selects. -/
def historyCount : String :=
  "SELECT COUNT(*) FROM ledger_entries " ++ historyFilter

def historyPage : String :=
  selectEntries ++ " " ++ historyFilter ++ " ORDER BY entry_date DESC, seq DESC OFFSET $6 LIMIT $7"

def insertMessage : String :=
  "INSERT INTO outbox_messages ( " ++ listed MessageRow.added ++
    " ) VALUES ($1, $2, $3, $4, $5, $6, $7, $8)"

def selectMessages : String :=
  "SELECT " ++ listed MessageRow.columns ++ " FROM outbox_messages"

def message : String :=
  selectMessages ++ " WHERE id = $1"

def failed : String :=
  selectMessages ++ " WHERE status = 'failed' ORDER BY occurred_at, seq LIMIT $1"

/-- Take claims on the oldest messages that can be claimed. -/
def claim : String :=
  "WITH claimed AS ( UPDATE outbox_messages SET status = 'processing', " ++
    "claimed_at = GREATEST(clock_timestamp(), claimed_at + INTERVAL '1 microsecond') " ++
    "WHERE id IN ( SELECT id FROM outbox_messages WHERE status = 'pending' " ++
    "OR (status = 'processing' AND claimed_at < $2) " ++
    "ORDER BY occurred_at, seq LIMIT $1 FOR UPDATE SKIP LOCKED ) RETURNING seq, " ++
    listed MessageRow.columns ++ " ) SELECT " ++ listed MessageRow.columns ++
    " FROM claimed ORDER BY occurred_at, seq"

/-- Complete a message that is held under a claim. -/
def complete : String :=
  "UPDATE outbox_messages " ++
    "SET status = 'completed', processed_at = NOW(), claimed_at = NULL, error = NULL " ++
    "WHERE id = $1 AND status = 'processing' AND claimed_at = $2"

/-- Count a failed delivery of a message that is held under a claim. -/
def recordFailure : String :=
  "UPDATE outbox_messages SET retry_count = retry_count + 1, " ++
    "status = CASE WHEN retry_count + 1 >= $3 THEN 'failed' ELSE 'pending' END, " ++
    "error = $2, claimed_at = NULL " ++
    "WHERE id = $1 AND status = 'processing' AND claimed_at = $4 RETURNING status"

/-- Give up a message that is held under a claim. -/
def markFailed : String :=
  "UPDATE outbox_messages SET status = 'failed', error = $2, claimed_at = NULL " ++
    "WHERE id = $1 AND status = 'processing' AND claimed_at = $3"

/-- Count the messages of each status. -/
def counts : String :=
  "SELECT status, COUNT(*) FROM outbox_messages GROUP BY status"

def purge : String :=
  "DELETE FROM outbox_messages WHERE status = 'completed' AND processed_at < $1"

end Statement

/-! ## Transactions -/

def keyConstraint : String := "uq_ledger_entries_idempotency_key"

def voidConstraint : String := "uq_ledger_entries_original_entry_id"

/-- A step of a transaction. -/
abbrev Step := ExceptT StoreError (Program Wire) Unit

/-- Send a statement of a transaction. -/
def send (fault : DatabaseError → StoreError) (sql : String) (values : List Value) :
    ExceptT StoreError (Program Wire) Outcome := do
  match ← (Wire.execute sql values : Program Wire _) with
  | .ok outcome => return outcome
  | .error e => throw (fault e)

/-- Write the slot, unless another operation has moved it. -/
def writeSlot (s : Slot) (expected : Int64) : Step := do
  let outcome ←
    if expected = 0 then send storeError Statement.insertSlot (slotValues s)
    else send storeError Statement.updateSlot (slotValues s ++ [.int8 expected])
  if outcome.affected = 0 then throw (.versionConflict s.account s.currency.code expected)

/-- Why an entry was not added, by the constraint that it violates: `keyConstraint`,
`voidConstraint` or another one. -/
def entryFault (entry : Entry) (e : DatabaseError) : StoreError :=
  if e.violated? = some keyConstraint then
    .duplicateKey ((entry.key.map IdempotencyKey.text).getD "")
  else if e.violated? = some voidConstraint then .duplicateVoid (entry.target.getD entry.id)
  else storeError e

def addEntry (entry : Entry) : Step := do
  let _ ← send (entryFault entry) Statement.insertEntry (entryValues entry)

def addMessages : List Message → Step
  | [] => return ()
  | m :: rest => do
    let _ ← send storeError Statement.insertMessage (messageValues m)
    addMessages rest

def startTransaction : Step := do
  match ← (Program.call (I := Wire) .start : Program Wire _) with
  | .ok () => return ()
  | .error e => throw (storeError e)

def endTransaction : Step := do
  match ← (Program.call (I := Wire) .commit : Program Wire _) with
  | .ok () => return ()
  | .error e => throw (storeError e)

/-- Write a change set, up to the first step that fails. -/
def writeChanges (c : ChangeSet) : Step := do
  startTransaction
  writeSlot c.slot c.expected
  match c.entry with
  | some entry => addEntry entry
  | none => pure ()
  addMessages c.outbox
  endTransaction

def commit (c : ChangeSet) : Program Wire (Except StoreError Unit) := do
  match ← (writeChanges c).run with
  | .ok () => return .ok ()
  | .error e =>
    Program.call (I := Wire) .rollback
    return .error e

/-! ## Requests -/

/-- Ask for rows and turn them into values. -/
def fetch {α β : Type} (sql : String) (values : List Value) (read : Outcome → Reading α)
    (map : α → Mapped β) : Program Wire (Except StoreError β) := do
  match ← Wire.query sql values read with
  | .error e => return .error (storeError e)
  | .ok a => return map a

/-- Change a message that is held under a claim. -/
def changeHeld (id : Uuid) (sql : String) (values : List Value) :
    Program Wire (Except StoreError Unit) := do
  match ← Wire.execute sql values with
  | .error e => return .error (storeError e)
  | .ok outcome => return if outcome.affected = 0 then .error (.notClaimed id) else .ok ()

/-- The one entry with a value in a column. -/
def entryBy (column : String) (value : Value) : Program Wire (Except StoreError (Option Entry)) :=
  fetch (Statement.entryBy column) [value] (·.first? EntryRow.read) (·.mapM EntryRow.toEntry)

/-- A page of the history and the number of entries on all pages. -/
def history (q : HistoryQuery) : Program Wire (Except StoreError HistoryPage) := do
  let filter : List Value :=
    [.uuid q.account, .ofOption .text (q.currency.map Currency.code),
      .ofOption .text (q.side.map Side.name), .ofOption .time q.since, .ofOption .time q.upTo]
  match ← Wire.query Statement.historyCount filter (·.first (·.placed 0 .int8)) with
  | .error e => return .error (storeError e)
  | .ok total =>
    let page : List Value := [.int8 (.ofNat q.page.skip), .int8 (.ofNat q.page.take)]
    fetch Statement.historyPage (filter ++ page) (·.all EntryRow.read) fun rows => do
      return { entries := ← rows.mapM EntryRow.toEntry, total }

/-- The status a failed delivery leaves a message in. -/
def recordFailure (id : Uuid) (claim : Instant) (error : String) (maxRetries : Int32) :
    Program Wire (Except StoreError Status) :=
  fetch Statement.recordFailure [.uuid id, .text error, .int4 maxRetries, .time claim]
    (·.first? (·.placed 0 .text)) fun
    | none => .error (.notClaimed id)
    | some status => (Status.parse status).mapError .corrupt

/-- Add up the rows of the count of messages. -/
def addCounts (counts : StatusCounts) : List (String × Int64) → Mapped StatusCounts
  | [] => .ok counts
  | (name, n) :: rest => do
    let status ← (Status.parse name).mapError .corrupt
    addCounts (counts.add status n) rest

/-- Read a row of the count of messages. -/
def readCount (row : Row) : Reading (String × Int64) := do
  return (← row.placed 0 .text, ← row.placed 1 .int8)

/-- Answer a request to a store. -/
def answer : (request : Request) → Program Wire request.Reply
  | .loadSlot account currency =>
    fetch Statement.slot [.uuid account, .text currency.code] (·.first? SlotRow.read)
      (·.mapM SlotRow.toSlot)
  | .slots account =>
    fetch Statement.slots [.uuid account] (·.all SlotRow.read) (·.mapM SlotRow.toSlot)
  | .findEntry id => entryBy "id" (.uuid id)
  | .findByKey key => entryBy "idempotency_key" (.text key.text)
  | .findVoidOf target => entryBy "original_entry_id" (.uuid target)
  | .history query => history query
  | .commit changes => commit changes
  | .claim batch staleBefore =>
    fetch Statement.claim [.int8 (.ofNat batch), .time staleBefore] (·.all MessageRow.read)
      (·.mapM MessageRow.toMessage)
  | .complete id claim => changeHeld id Statement.complete [.uuid id, .time claim]
  | .recordFailure id claim error maxRetries => recordFailure id claim error maxRetries
  | .markFailed id claim error =>
    changeHeld id Statement.markFailed [.uuid id, .text error, .time claim]
  | .message id =>
    fetch Statement.message [.uuid id] (·.first? MessageRow.read) (·.mapM MessageRow.toMessage)
  | .failed limit =>
    fetch Statement.failed [.int8 (if limit < 0 then 0 else limit)] (·.all MessageRow.read)
      (·.mapM MessageRow.toMessage)
  | .counts => fetch Statement.counts [] (·.all readCount) (addCounts {})
  | .purge cutoff => do
    match ← Wire.execute Statement.purge [.time cutoff] with
    | .error e => return .error (storeError e)
    | .ok outcome => return .ok outcome.affected

end BalanceLedger.Sql
