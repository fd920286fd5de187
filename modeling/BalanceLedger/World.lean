/-
# `World` — the surroundings of an operation

Operations ask a store, read a clock, draw identifiers, wait, publish and write
log lines.  A store is asked in one of two ways.  A reading that serves a plan
is given up when shutdown comes; every other request is carried through and its
outcome is reported, so that nobody is told that a write was cancelled when it
landed.

Two clocks are read: the calendar, which dates what is written and may stand
still or step back, and a timer, which paces the loops and only runs forward.
-/
import BalanceLedger.Log
import BalanceLedger.Outbox.Publisher
import BalanceLedger.Store.Basic

namespace BalanceLedger

open Time (Instant Span)

/-- A request of an operation to its surroundings. -/
inductive World.Request where
  /-- Ask the store, and wait for the outcome. -/
  | store (request : Store.Request)
  /-- Ask the store, unless shutdown comes first. -/
  | plan (request : Store.Request)
  /-- Has shutdown come? -/
  | stopping
  | clock
  | freshId
  /-- A random number up to a limit. -/
  | jitter (limit : Nat)
  | pause (length : Span)
  /-- The time since the start. -/
  | timer
  /-- Wait for a time of the timer; answers whether shutdown came first. -/
  | waitUntil (deadline : Span)
  | publish (event : Outbox.PublishedEvent)
  | log (line : Log.Line)

/-- What a request is answered with. -/
abbrev World.Reply : World.Request → Type
  | .store request => request.Reply
  | .plan request => Option request.Reply
  | .stopping => Bool
  | .clock => Instant
  | .freshId => Uuid
  | .jitter limit => Fin (limit + 1)
  | .pause _ => Unit
  | .timer => Span
  | .waitUntil _ => Bool
  | .publish _ => Except Outbox.PublishError Unit
  | .log _ => Unit

/-- The surroundings of an operation. -/
abbrev World : Interface where
  Request := World.Request
  Reply := World.Reply

/-- Every request has an answer: time stands still, nothing is stored and everything succeeds
that can. -/
instance (request : World.Request) : Inhabited (World.Reply request) where
  default :=
    match request with
    | .store _ => .error (.corrupt "")
    | .plan _ => none
    | .stopping => false
    | .clock => .epoch
    | .freshId => .nil
    | .jitter _ => 0
    | .pause _ => ()
    | .timer => ⟨0⟩
    | .waitUntil _ => false
    | .publish _ => .ok ()
    | .log _ => ()

namespace World

/-- Ask the store, and wait for the outcome. -/
def store (request : Store.Request) : Program World request.Reply :=
  Program.call (I := World) (.store request)

def clock : Program World Instant :=
  Program.call (I := World) .clock

def freshId : Program World Uuid :=
  Program.call (I := World) .freshId

def timer : Program World Span :=
  Program.call (I := World) .timer

/-- Wait for a time of the timer; answers whether shutdown came first. -/
def waitUntil (deadline : Span) : Program World Bool :=
  Program.call (I := World) (.waitUntil deadline)

def publish (event : Outbox.PublishedEvent) : Program World (Except Outbox.PublishError Unit) :=
  Program.call (I := World) (.publish event)

/-- Write a line to the log. -/
def log (level : Log.Level) (message : String) (fields : List (String × Json)) :
    Program World Unit :=
  Program.call (I := World) (.log { level, message, fields })

/-- Pending messages for events, in order. -/
def stage (origin : Origin) : List Event → Program World (List Outbox.Message)
  | [] => return []
  | event :: rest => do
    let id ← freshId
    let now ← clock
    return .ofEvent event origin id now :: (← stage origin rest)

end World

end BalanceLedger
