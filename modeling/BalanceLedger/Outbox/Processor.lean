/-
# `Outbox.Processor` — delivering the outbox

A processor claims a batch of messages, reads each of them back into its event
and publishes it.  A message is completed only after it was published; a failed
delivery is counted and tried again in a later cycle, and a message that cannot
be read is given up.  What became of a message is written under the claim of this
cycle: when that claim is no longer the current one, somebody else has the
message, and this cycle leaves it alone.
-/
import BalanceLedger.Outbox.Registry
import BalanceLedger.Time.Ticker
import BalanceLedger.World

namespace BalanceLedger.Outbox

open Time (Instant Span Ticker)

/-- How a processor works. -/
structure ProcessorConfig where
  pollInterval : Span := .ofSeconds 10
  /-- How many messages a cycle claims at most. -/
  batchSize : Nat := 50
  /-- How many failed deliveries a message has before it is given up. -/
  maxRetries : Int32 := 3
  /-- The age at which a claim can be taken over. -/
  claimLease : Span := .ofSeconds 300
  startupDelay : Span := .ofSeconds 5
deriving DecidableEq, Repr

def ProcessorConfig.toJson (c : ProcessorConfig) : Json :=
  .obj
    [("poll_interval_ms", .nat c.pollInterval.millis), ("batch_size", .nat c.batchSize),
      ("max_retries", .int32 c.maxRetries), ("claim_lease_secs", .nat c.claimLease.seconds),
      ("startup_delay_ms", .nat c.startupDelay.millis)]

/-- A processor. -/
structure Processor where
  config : ProcessorConfig := {}
  registry : Registry := .ledgerEvents

/-- What became of a claimed message. -/
inductive Outcome where
  | completed
  /-- The delivery failed and will be tried again. -/
  | retried
  | failed
  /-- The store did not take the outcome. -/
  | abandoned
deriving DecidableEq, Repr

/-- What a cycle did. -/
structure Report where
  claimed : Nat := 0
  completed : Nat := 0
  retried : Nat := 0
  failed : Nat := 0
deriving DecidableEq, Repr

/-- Count a message in. -/
def Report.add (r : Report) : Outcome → Report
  | .completed => { r with completed := r.completed + 1 }
  | .retried => { r with retried := r.retried + 1 }
  | .failed => { r with failed := r.failed + 1 }
  | .abandoned => r

def Report.toJson (r : Report) : Json :=
  .obj
    [("claimed", .nat r.claimed), ("completed", .nat r.completed), ("retried", .nat r.retried),
      ("failed", .nat r.failed)]

/-- Claims that are older than this have outlived the lease. Where the calendar does not reach back
so far, it is the `epoch`. -/
def staleBefore (now : Instant) (lease : Span) : Instant :=
  (now.sub? lease).getD .epoch

namespace Processor

/-- Leave a message alone whose outcome could not be written. -/
def abandon (id : Uuid) (e : StoreError) : Program World Outcome := do
  World.log .error
    "Could not update outbox message status; it will be reclaimed after the lease"
    [("message_id", id.toJson), ("error", .str e.message)]
  return .abandoned

/-- Give up a message that cannot be read. -/
def park (m : Message) (claim : Instant) (e : OutboxError) : Program World Outcome := do
  World.log .error "Outbox message cannot be decoded, marking failed"
    [("message_id", m.id.toJson), ("event_type", .str m.eventType), ("error", .str e.message)]
  match ← World.store (.markFailed m.id claim e.message) with
  | .ok () => return .failed
  | .error e => abandon m.id e

/-- Write down that a message was published. -/
def complete (m : Message) (claim : Instant) : Program World Outcome := do
  match ← World.store (.complete m.id claim) with
  | .ok () => return .completed
  | .error e => abandon m.id e

/-- Count a failed delivery; after `maxRetries` of them the message is given up. -/
def countFailure (p : Processor) (m : Message) (claim : Instant) (reason : String) :
    Program World Outcome := do
  match ← World.store (.recordFailure m.id claim reason p.config.maxRetries) with
  | .ok .failed =>
    World.log .error "Outbox message exhausted retries, marking failed"
      [("message_id", m.id.toJson), ("event_type", .str m.eventType),
        ("attempts", .int32 (m.retryCount + 1)), ("error", .str reason)]
    return .failed
  | .ok _ =>
    World.log .warn "Outbox publish failed, will retry"
      [("message_id", m.id.toJson), ("event_type", .str m.eventType),
        ("attempt", .int32 (m.retryCount + 1)), ("max_retries", .int32 p.config.maxRetries),
        ("error", .str reason)]
    return .retried
  | .error e => abandon m.id e

def deliver (p : Processor) (m : Message) : Program World Outcome := do
  match m.claimedAt with
  | none => abandon m.id (.notClaimed m.id)
  | some claim =>
    match p.registry.decode m.eventType m.payload with
    | .error e => park m claim e
    | .ok event =>
      match ← World.publish (.ofMessage m event) with
      | .ok () => complete m claim
      | .error e => p.countFailure m claim e.message

/-- Deliver claimed messages one after the other, and count what became of them in the `Report`. -/
def deliverAll (p : Processor) (r : Report) : List Message → Program World Report
  | [] => return r
  | m :: rest => do
    let outcome ← p.deliver m
    p.deliverAll (r.add outcome) rest

/-- Claim one batch, of at most `batchSize` messages, and deliver it. -/
def cycle (p : Processor) : Program World (Except OutboxError Report) := do
  let now ← World.clock
  match ← World.store (.claim p.config.batchSize (staleBefore now p.config.claimLease)) with
  | .error e => return .error (.store e)
  | .ok batch => return .ok (← p.deliverAll { claimed := batch.length } batch)

/-- Report what a cycle of the loop did. -/
def logCycle : Except OutboxError Report → Program World Unit
  | .error e => World.log .error "Outbox cycle failed" [("error", .str e.message)]
  | .ok r =>
    if r.claimed = 0 then return ()
    else
      World.log .info "Outbox cycle finished"
        [("claimed", .nat r.claimed), ("completed", .nat r.completed),
          ("retried", .nat r.retried), ("failed", .nat r.failed)]

/-- Run a cycle at every tick until shutdown, but at most `cycles` of them. -/
def loop (p : Processor) : (cycles : Nat) → Ticker → Program World Unit
  | 0, _ => return ()
  | cycles + 1, ticker => do
    if ← World.waitUntil ticker.due then return ()
    let ticker := ticker.tick (← World.timer)
    logCycle (← p.cycle)
    p.loop cycles ticker

/-- Deliver in the background until shutdown, in at most `cycles` cycles.  A cycle that has
started is finished. -/
def run (p : Processor) (cycles : Nat) : Program World Unit := do
  World.log .info "Outbox processor starting"
    [("poll_interval_secs", .nat p.config.pollInterval.seconds),
      ("batch_size", .nat p.config.batchSize), ("max_retries", .int32 p.config.maxRetries)]
  let started ← World.timer
  if ← World.waitUntil ⟨started.nanos + p.config.startupDelay.nanos⟩ then
    World.log .info "Outbox processor stopped before first cycle" []
  else
    p.loop cycles (.start p.config.pollInterval (← World.timer))
    World.log .info "Outbox processor stopped" []

end Processor

end BalanceLedger.Outbox
