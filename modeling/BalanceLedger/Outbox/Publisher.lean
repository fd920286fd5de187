/-
# `Outbox.Publisher` — handing events to subscribers

A published event is the event of a message with the message's id, time and
origin.  Subscribers inside the process get it one after the other in the order
of their registration, those that want it; the first that fails ends the
delivery, and those after it do not see the event this time.
-/
import BalanceLedger.Log
import BalanceLedger.Outbox.Message
import BalanceLedger.Program

namespace BalanceLedger.Outbox

open Time (Instant)

/-- An event on its way to subscribers. -/
structure PublishedEvent where
  /-- The id of the message. -/
  id : Uuid
  eventType : String
  occurredAt : Instant
  correlationId : Option String
  initiatedBy : Option String
  payload : Event
deriving DecidableEq, Repr

/-- Why an event was not delivered. -/
inductive PublishError where
  | transport (detail : String)
  | subscriber (name reason : String)
deriving DecidableEq, Repr

def PublishError.message : PublishError → String
  | transport detail => "Transport unavailable: " ++ detail
  | subscriber name reason => "Handler '" ++ name ++ "' failed: " ++ reason

namespace PublishedEvent

/-- The event of a message. -/
def ofMessage (m : Message) (event : Event) : PublishedEvent :=
  { id := m.id, eventType := m.eventType, occurredAt := m.occurredAt,
    correlationId := m.correlationId, initiatedBy := m.initiatedBy, payload := event }

def toJson (e : PublishedEvent) : Json :=
  .obj
    [("event_id", e.id.toJson), ("event_type", .str e.eventType),
      ("occurred_at", e.occurredAt.toJson), ("correlation_id", .text? e.correlationId),
      ("initiated_by", .text? e.initiatedBy), ("payload", e.payload.toJson)]

/-- The line of a publisher that only writes to the log. -/
def logLine (e : PublishedEvent) : Log.Line where
  level := .info
  message := "Published ledger event"
  fields :=
    [("event_id", e.id.toJson), ("event_type", .str e.eventType),
      ("account_id", e.payload.account.toJson),
      ("correlation_id", Log.textOrDash e.correlationId),
      ("initiated_by", Log.textOrDash e.initiatedBy), ("occurred_at", .str e.occurredAt.display)]

end PublishedEvent

/-! ## Subscribers -/

/-- A subscriber and the events it wants. -/
structure Subscriber where
  name : String
  wants : PublishedEvent → Bool

/-- Handing an event to the subscriber at a place of the registration order. -/
def Delivery : Interface where
  Request := Nat × PublishedEvent
  Reply _ := Except String Unit

/-- Hand an event to the subscribers registered from a place on. -/
def dispatchFrom (event : PublishedEvent) :
    (place : Nat) → List Subscriber → Program Delivery (Except PublishError Unit)
  | _, [] => return .ok ()
  | place, s :: rest => do
    if s.wants event then
      match ← Program.call (I := Delivery) (place, event) with
      | .ok () => dispatchFrom event (place + 1) rest
      | .error reason => return .error (.subscriber s.name reason)
    else dispatchFrom event (place + 1) rest

/-- Hand an event to every subscriber that `wants` it, up to the first that fails. -/
def dispatch (subscribers : List Subscriber) (event : PublishedEvent) :
    Program Delivery (Except PublishError Unit) :=
  dispatchFrom event 0 subscribers

end BalanceLedger.Outbox
