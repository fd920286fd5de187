/-
# `Store.Basic` — what a store answers

A store holds slots, the log of entries and the outbox.  An operation writes one
change set: the moved slot, at most one entry and the messages that announce the
change, all of them or none.  A store accepts it only if the slot is still at the
version that the operation read, the key of the entry is new, and the entry it
voids is not voided yet.

Deliverers claim messages of the outbox.  A claim is named by the instant at
which it was taken, and only who holds the current claim of a message can say
what became of it.
-/
import BalanceLedger.History
import BalanceLedger.Outbox.Message
import BalanceLedger.Program

namespace BalanceLedger.Store

open Outbox (Message Status StatusCounts)
open Time (Instant)

/-- Everything one operation writes. -/
structure ChangeSet where
  /-- The slot after the change. -/
  slot : Slot
  /-- The version that was read; 0 for a slot that was not there. -/
  expected : Int64
  entry : Option Entry
  outbox : List Message
deriving DecidableEq

open Decode Decode.Fields in
def ChangeSet.ofJson : Json → Decode.Result ChangeSet :=
  decode
    (ChangeSet.mk <$> required "balance" Slot.ofJson <*> required "expected_version" int64 <*>
      optional "entry" Entry.ofJson <*>
      ((Option.getD · []) <$> optional "outbox" (list Message.ofJson)))
    "ChangeSet"

/-- A request to a store. -/
inductive Request where
  | loadSlot (account : Uuid) (currency : Currency)
  /-- All slots of an account, by currency. -/
  | slots (account : Uuid)
  | findEntry (id : Uuid)
  | findByKey (key : IdempotencyKey)
  /-- The entry that voids an entry. -/
  | findVoidOf (target : Uuid)
  | history (query : HistoryQuery)
  | commit (changes : ChangeSet)
  /-- Take the oldest pending messages, and those whose claim is older than `staleBefore`. -/
  | claim (batch : Nat) (staleBefore : Instant)
  | complete (id : Uuid) (claim : Instant)
  /-- Count a failed delivery; at `maxRetries` of them the message fails. -/
  | recordFailure (id : Uuid) (claim : Instant) (error : String) (maxRetries : Int32)
  | markFailed (id : Uuid) (claim : Instant) (error : String)
  | message (id : Uuid)
  /-- Failed messages, oldest first. -/
  | failed (limit : Int64)
  | counts
  /-- Delete completed messages that were delivered before `cutoff`. -/
  | purge (cutoff : Instant)
deriving DecidableEq

def Request.name : Request → String
  | loadSlot .. => "load_balance"
  | slots _ => "balances"
  | findEntry _ => "find_entry"
  | findByKey _ => "find_key"
  | findVoidOf _ => "find_void"
  | history _ => "history"
  | commit _ => "commit"
  | claim .. => "claim"
  | complete .. => "complete"
  | recordFailure .. => "record"
  | markFailed .. => "mark_failed"
  | message _ => "message"
  | failed _ => "failed"
  | counts => "counts"
  | purge _ => "purge"

/-- What a request that does not fail is answered with. -/
abbrev Request.Answer : Request → Type
  | loadSlot .. => Option Slot
  | slots _ => List Slot
  | findEntry _ => Option Entry
  | findByKey _ => Option Entry
  | findVoidOf _ => Option Entry
  | history _ => HistoryPage
  | commit _ => Unit
  | claim .. => List Message
  | complete .. => Unit
  | recordFailure .. => Status
  | markFailed .. => Unit
  | message _ => Option Message
  | failed _ => List Message
  | counts => StatusCounts
  | purge _ => Nat

/-- What a request is answered with. -/
abbrev Request.Reply (request : Request) : Type :=
  Except StoreError request.Answer

end BalanceLedger.Store
