/-
# `Outbox.Maintenance` — keeping the outbox tidy

Two jobs: delivered messages are deleted when their retention is over, and the
messages that were given up are reported, a few of them one by one.  They run
once on demand, or each at its own rhythm until shutdown.
-/
import BalanceLedger.Time.Ticker
import BalanceLedger.World

namespace BalanceLedger.Outbox

open Time (Instant Span Ticker)

/-- Why a job fails. -/
inductive JobError where
  | store (e : StoreError)
  /-- No clock reading can be moved by this retention. -/
  | retention (length : Span)
deriving DecidableEq, Repr

def JobError.message : JobError → String
  | store e => "Store error: " ++ e.message
  | retention length => "Retention " ++ length.render ++ " is out of range"

/-- The jobs cannot go on: a date that they need lies outside the calendar. -/
structure DateOverflow where
deriving DecidableEq, Repr

/-- A program that can break off with a `DateOverflow`. -/
abbrev Job (α : Type) := ExceptT DateOverflow (Program World) α

/-- How maintenance works. -/
structure MaintenanceConfig where
  cleanupInterval : Span := .ofSeconds 3600
  reportInterval : Span := .ofSeconds 300
  /-- The age at which a delivered message is deleted. -/
  retention : Span := .ofDays 7
deriving DecidableEq, Repr

/-- What a run of all jobs did. -/
structure MaintenanceReport where
  purged : Nat := 0
  failed : Int64 := 0
  errors : List String := []
deriving DecidableEq, Repr

def MaintenanceReport.toJson (r : MaintenanceReport) : Json :=
  .obj
    [("purged", .nat r.purged), ("failed", .int64 r.failed),
      ("errors", .arr (r.errors.map Json.str))]

namespace Maintenance

/-- How many failed messages a `report` lists. -/
def sampleSize : Int64 := 10

/-- Delete the messages that were delivered longer ago than the retention. -/
def purge (retention : Span) : Job (Except JobError Nat) := do
  if Span.longestShift.nanos < retention.nanos then return .error (.retention retention)
  match (← World.clock).sub? retention with
  | none => throw {}
  | some cutoff =>
    match ← World.store (.purge cutoff) with
    | .error e => return .error (.store e)
    | .ok deleted =>
      if 0 < deleted then
        World.log .info "Purged completed outbox messages" [("rows_deleted", .nat deleted)]
      return .ok deleted

/-- List failed messages in the log. -/
def logFailed : List Message → Program World Unit
  | [] => return ()
  | m :: rest => do
    World.log .warn "Outbox message parked as failed"
      [("message_id", m.id.toJson), ("event_type", .str m.eventType),
        ("retry_count", .int32 m.retryCount), ("error", Log.textOrDash m.error)]
    logFailed rest

/-- Report the failed messages; answers how many there are. -/
def report : Program World (Except JobError Int64) := do
  match ← World.store .counts with
  | .error e => return .error (.store e)
  | .ok counts =>
    if counts.failed ≤ 0 then return .ok counts.failed
    match ← World.store (.failed sampleSize) with
    | .error e => return .error (.store e)
    | .ok sample =>
      logFailed sample
      World.log .warn "Outbox has failed messages awaiting manual intervention"
        [("failed", .int64 counts.failed), ("pending", .int64 counts.pending),
          ("processing", .int64 counts.processing)]
      return .ok counts.failed

/-- Run all jobs once; one that fails does not keep the other from running. -/
def runAll (config : MaintenanceConfig) : Job MaintenanceReport := do
  let cleaned : MaintenanceReport :=
    match ← purge config.retention with
    | .ok purged => { purged }
    | .error e => { errors := ["Outbox cleanup: " ++ e.message] }
  match ← report with
  | .ok failed => return { cleaned with failed }
  | .error e =>
    return { cleaned with errors := cleaned.errors ++ ["Failed outbox report: " ++ e.message] }

/-- What `purge` does as a job of the loop: a failure is logged. -/
def cleanUp (config : MaintenanceConfig) : Job Unit := do
  match ← purge config.retention with
  | .ok _ => return ()
  | .error e => World.log .error "Outbox cleanup failed" [("error", .str e.message)]

/-- What `report` does as a job of the loop: a failure is logged. -/
def reportFailed : Program World Unit := do
  match ← report with
  | .ok _ => return ()
  | .error e => World.log .error "Failed outbox report failed" [("error", .str e.message)]

/-- Run each job at its ticks until shutdown, but at most `rounds` jobs in all. -/
def loop (config : MaintenanceConfig) : (rounds : Nat) → (cleanup reporting : Ticker) → Job Unit
  | 0, _, _ => return ()
  | rounds + 1, cleanup, reporting => do
    if ← World.waitUntil (cleanup.firstDue reporting) then return ()
    let now ← World.timer
    if cleanup.due.nanos ≤ now.nanos then
      cleanUp config
      loop config rounds (cleanup.tick now) reporting
    else
      reportFailed
      loop config rounds cleanup (reporting.tick now)

/-- Keep the outbox tidy in the background until shutdown, with at most `rounds` jobs. -/
def run (config : MaintenanceConfig) (rounds : Nat) : Job Unit := do
  World.log .info "Job scheduler started" []
  let now ← World.timer
  loop config rounds (.start config.cleanupInterval now) (.start config.reportInterval now)
  World.log .info "Job scheduler stopped" []

end Maintenance

end BalanceLedger.Outbox
