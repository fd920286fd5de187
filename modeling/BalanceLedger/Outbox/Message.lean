/-
# `Outbox.Message` — events waiting for delivery

A message is an event as it is stored until it has been delivered.  It is written
together with the change it announces, and keeps its kind, payload, time and
origin for good; only its delivery state moves.
-/
import BalanceLedger.Event
import BalanceLedger.Json.Equality
import BalanceLedger.Origin
import BalanceLedger.Outbox.Status
import BalanceLedger.Time.Rfc3339

namespace BalanceLedger.Outbox

open Time (Instant)

/-- A stored event and the state of its delivery. -/
structure Message where
  /-- Also the id of the published event. -/
  id : Uuid
  eventType : String
  payload : Json
  occurredAt : Instant
  processedAt : Option Instant
  /-- When the current claim was taken. -/
  claimedAt : Option Instant
  status : Status
  retryCount : Int32
  error : Option String
  correlationId : Option String
  initiatedBy : Option String
deriving DecidableEq

namespace Message

/-- A pending message for an event. -/
def ofEvent (event : Event) (origin : Origin) (id : Uuid) (now : Instant) : Message :=
  { id, eventType := event.kind.name, payload := event.toJson, occurredAt := now,
    processedAt := none, claimedAt := none, status := .pending, retryCount := 0, error := none,
    correlationId := origin.correlationId, initiatedBy := origin.initiatedBy }

/-- An instant, or `null`. -/
def instant? (t : Option Instant) : Json :=
  .text? (t.map Instant.render)

def toJson (m : Message) : Json :=
  .obj
    [("id", m.id.toJson), ("event_type", .str m.eventType), ("payload", m.payload),
      ("occurred_at", m.occurredAt.toJson), ("processed_at", instant? m.processedAt),
      ("claimed_at", instant? m.claimedAt), ("status", m.status.toJson),
      ("retry_count", .int32 m.retryCount), ("error", .text? m.error),
      ("correlation_id", .text? m.correlationId), ("initiated_by", .text? m.initiatedBy)]

/-- What a deliverer is told of a message that it claimed. -/
def toClaimJson (m : Message) : Json :=
  .obj
    [("id", m.id.toJson), ("event_type", .str m.eventType), ("status", m.status.toJson),
      ("claimed_at", instant? m.claimedAt), ("occurred_at", m.occurredAt.toJson),
      ("retry_count", .int32 m.retryCount)]

open Decode Decode.Fields in
def fields : Decode.Fields Message :=
  Message.mk <$> required "id" Uuid.ofJson <*> required "event_type" text <*>
    required "payload" (fun v => .ok v) <*> required "occurred_at" Instant.ofJson <*>
    optional "processed_at" Instant.ofJson <*> optional "claimed_at" Instant.ofJson <*>
    required "status" Status.ofJson <*> required "retry_count" int32 <*>
    optional "error" text <*> optional "correlation_id" text <*> optional "initiated_by" text

def ofJson : Json → Decode.Result Message :=
  fields.decode "OutboxMessage"

end Message

end BalanceLedger.Outbox
