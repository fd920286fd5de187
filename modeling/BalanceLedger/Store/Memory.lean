/-
# `Store.Memory` — a store in memory

The slots, the log of entries in the order in which they were committed, the
outbox in the same order, and three tables into the log: by id, by idempotency
key, and by the entry that is voided.  Each request is one step: it sees the
whole store and leaves a whole store, and a request that is refused leaves the
store as it was.
-/
import BalanceLedger.Index
import BalanceLedger.Store.Basic

namespace BalanceLedger.Store

open Outbox (Message Status StatusCounts)
open Time (Instant)

/-- A store in memory. -/
structure Memory where
  slots : Index Slot.Key Slot := {}
  entries : List Entry := []
  /-- Where in the log the entry of an id stands. -/
  positions : Index Uuid Nat := {}
  keys : Index IdempotencyKey Uuid := {}
  /-- The void of each voided entry. -/
  voids : Index Uuid Uuid := {}
  outbox : List Message := []
deriving DecidableEq

namespace Memory

def empty : Memory := {}

/-! ## Slots and entries -/

/-- The entry of an id. -/
def entry? (m : Memory) (id : Uuid) : Option Entry :=
  (m.positions.get? id).bind fun i => m.entries[i]?

/-- The entry that holds a key. -/
def entryByKey? (m : Memory) (key : IdempotencyKey) : Option Entry :=
  (m.keys.get? key).bind m.entry?

/-- The entry that voids an entry. -/
def voidOf? (m : Memory) (target : Uuid) : Option Entry :=
  (m.voids.get? target).bind m.entry?

/-- All slots of an account, by currency. -/
def slotsOf (m : Memory) (account : Uuid) : List Slot :=
  (m.slots.values.filter fun s => s.account = account).mergeSort fun a b => a.currency.le b.currency

/-- The selected entries, newest first; of entries of one date the last committed comes first. -/
def selected (m : Memory) (query : HistoryQuery) : List Entry :=
  (m.entries.filter query.selects).reverse.mergeSort fun a b => b.date ≤ a.date

def history (m : Memory) (query : HistoryQuery) : HistoryPage where
  entries := query.page.cut (m.selected query)
  total := Int64.ofNat (m.selected query).length

/-- The stored version of a slot, 0 where there is none. -/
def versionOf (m : Memory) (key : Slot.Key) : Int64 :=
  ((m.slots.get? key).map Slot.version).getD 0

/-- Why an entry cannot be added to the log. -/
def entryFault? (m : Memory) (e : Entry) : Option StoreError :=
  match e.key.filter m.keys.contains, e.target.filter m.voids.contains with
  | some key, _ => some (.duplicateKey key.text)
  | none, some target => some (.duplicateVoid target)
  | none, none => none

/-- Why a change set is refused: its slot is not at the version it expects, or `entryFault?` has
something against its entry. -/
def fault? (m : Memory) (c : ChangeSet) : Option StoreError :=
  if m.versionOf c.slot.key = c.expected then c.entry.bind m.entryFault?
  else some (.versionConflict c.slot.account c.slot.currency.code c.expected)

/-- Add an entry at the end of the log. -/
def append (m : Memory) (e : Entry) : Memory :=
  { m with
    entries := m.entries ++ [e]
    positions := m.positions.insert e.id m.entries.length
    keys := e.key.elim m.keys fun key => m.keys.insert key e.id
    voids := e.target.elim m.voids fun target => m.voids.insert target e.id }

def write (m : Memory) (c : ChangeSet) : Memory :=
  let m := { m with slots := m.slots.insert c.slot.key c.slot }
  let m := c.entry.elim m m.append
  { m with outbox := m.outbox ++ c.outbox }

/-- Write a change set, unless there is a `fault?` in it. -/
def commit (m : Memory) (c : ChangeSet) : Except StoreError Memory :=
  match m.fault? c with
  | some e => .error e
  | none => .ok (m.write c)

/-! ## The outbox -/

/-- Can the message be claimed? One that is held can be if its claim has grown old. -/
def isEligible (staleBefore : Instant) (m : Message) : Bool :=
  match m.status with
  | .pending => true
  | .processing => m.claimedAt.all fun t => decide (t < staleBefore)
  | _ => false

/-- When a claim that is taken now is dated: after the previous claim in any case. -/
def claimTime (previous : Option Instant) (now : Instant) : Instant :=
  match previous with
  | some t => if now ≤ t then t.nextMicro else now
  | none => now

/-- Take a claim on a message, as of its `claimTime`. -/
def take (now : Instant) (m : Message) : Message :=
  { m with status := .processing, claimedAt := some (claimTime m.claimedAt now) }

/-- The messages that can be claimed (`isEligible`) with their places, oldest first. -/
def eligible (m : Memory) (staleBefore : Instant) : List (Message × Nat) :=
  (m.outbox.zipIdx.filter fun p => isEligible staleBefore p.1).mergeSort
    fun p q => p.1.occurredAt ≤ q.1.occurredAt

/-- Take claims on the oldest `eligible` messages, and hand them out as they are then. -/
def claim (m : Memory) (batch : Nat) (staleBefore now : Instant) : List Message × Memory :=
  let chosen := (m.eligible staleBefore).take batch
  let places := chosen.map Prod.snd
  (chosen.map fun p => take now p.1,
    { m with outbox := m.outbox.zipIdx.map fun p =>
        if places.contains p.2 then take now p.1 else p.1 })

/-- Is the message held under that claim? -/
def isHeld (claim : Instant) (m : Message) : Bool :=
  m.status = .processing && m.claimedAt = some claim

/-- Change the message of an id, which has to be held under a claim (`isHeld`). -/
def changeHeld (id : Uuid) (claim : Instant) (change : Message → Message) :
    List Message → Except StoreError (Message × List Message)
  | [] => .error (.notClaimed id)
  | m :: rest =>
    if m.id = id then
      if isHeld claim m then .ok (change m, change m :: rest) else .error (.notClaimed id)
    else (changeHeld id claim change rest).map fun (changed, rest) => (changed, m :: rest)

/-- A delivered message. -/
def delivered (now : Instant) (m : Message) : Message :=
  { m with status := .completed, processedAt := some now, claimedAt := none, error := none }

/-- A message whose delivery failed: it waits again, unless `maxRetries` deliveries have failed by
now. -/
def undelivered (error : String) (maxRetries : Int32) (m : Message) : Message :=
  let retryCount := m.retryCount + 1
  { m with
    retryCount
    status := if maxRetries ≤ retryCount then .failed else .pending
    error := some error
    claimedAt := none }

/-- A message that is given up. -/
def parked (error : String) (m : Message) : Message :=
  { m with status := .failed, error := some error, claimedAt := none }

/-- Say what became of a message that is held under a claim. -/
def finish (m : Memory) (id : Uuid) (claim : Instant) (change : Message → Message) :
    Except StoreError (Message × Memory) :=
  (changeHeld id claim change m.outbox).map fun (changed, outbox) => (changed, { m with outbox })

def failed (m : Memory) (limit : Int64) : List Message :=
  ((m.outbox.filter fun x => x.status = .failed).mergeSort
    fun a b => a.occurredAt ≤ b.occurredAt).take limit.toInt.toNat

/-- How many messages stand where. -/
def counts (m : Memory) : StatusCounts :=
  m.outbox.foldl (fun c x => c.add x.status 1) {}

/-- Was the message delivered before an instant? -/
def isExpired (cutoff : Instant) (m : Message) : Bool :=
  m.status = .completed && m.processedAt.any fun t => decide (t < cutoff)

/-- Delete the messages that are `isExpired` at an instant, and count them. -/
def purge (m : Memory) (cutoff : Instant) : Nat × Memory :=
  let kept := m.outbox.filter fun x => !isExpired cutoff x
  (m.outbox.length - kept.length, { m with outbox := kept })

/-! ## Requests -/

/-- The outcome of a write, with the store that is left. -/
def settle {α : Type} (m : Memory) (outcome : Except StoreError (α × Memory)) :
    Except StoreError α × Memory :=
  match outcome with
  | .ok (a, next) => (.ok a, next)
  | .error e => (.error e, m)

/-- Answer a request at a reading of the clock. -/
def answer (m : Memory) (now : Instant) : (request : Request) → request.Reply × Memory
  | .loadSlot account currency => (.ok (m.slots.get? (account, currency)), m)
  | .slots account => (.ok (m.slotsOf account), m)
  | .findEntry id => (.ok (m.entry? id), m)
  | .findByKey key => (.ok (m.entryByKey? key), m)
  | .findVoidOf target => (.ok (m.voidOf? target), m)
  | .history query => (.ok (m.history query), m)
  | .commit changes => m.settle ((m.commit changes).map fun next => ((), next))
  | .claim batch staleBefore =>
    let (claimed, next) := m.claim batch staleBefore now
    (.ok claimed, next)
  | .complete id claim =>
    m.settle ((m.finish id claim (delivered now)).map fun (_, next) => ((), next))
  | .recordFailure id claim error maxRetries =>
    m.settle ((m.finish id claim (undelivered error maxRetries)).map
      fun (changed, next) => (changed.status, next))
  | .markFailed id claim error =>
    m.settle ((m.finish id claim (parked error)).map fun (_, next) => ((), next))
  | .message id => (.ok (m.outbox.find? fun x => x.id = id), m)
  | .failed limit => (.ok (m.failed limit), m)
  | .counts => (.ok m.counts, m)
  | .purge cutoff =>
    let (deleted, next) := m.purge cutoff
    (.ok deleted, next)

end Memory

end BalanceLedger.Store
