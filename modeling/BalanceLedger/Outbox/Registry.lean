/-
# `Outbox.Registry` — which events can be read back

A stored message names the kind of its event, and its payload is bare.  A
registry is a table of decoders by such names: what is stored under a name is
read by its decoder, and under a name that is not in the table nothing is read.

Any type of payloads can be registered, under any name.  `Registry.ledgerEvents`
knows the events that the ledger itself announces; a deliverer can know fewer of
them, can know others besides, or can read some of them in a way of its own.
-/
import BalanceLedger.Error
import BalanceLedger.Event
import BalanceLedger.Index

namespace BalanceLedger.Outbox

/-- Why messages of the outbox cannot be worked on. -/
inductive OutboxError where
  | unknownEventType (name : String)
  /-- A payload that is no event of the kind it is stored under. -/
  | undecodable (name : String) (cause : DecodeError)
  | store (e : StoreError)
deriving DecidableEq, Repr

def OutboxError.message : OutboxError → String
  | unknownEventType name => "No decoder registered for event type '" ++ name ++ "'"
  | undecodable name cause =>
    "Payload of '" ++ name ++ "' cannot be decoded: " ++ cause.message
  | store e => e.message

def OutboxError.code : OutboxError → String
  | unknownEventType _ => "unknown_event_type"
  | undecodable .. => "decode"
  | store e => e.code

def OutboxError.toJson (e : OutboxError) : Json :=
  failureJson e.code e.message

/-- How a stored payload is read. -/
abbrev Decoder := Json → Decode.Result Event

/-- A type of payloads: the name that its messages are stored under, and how they are read. -/
structure PayloadType where
  name : String
  decode : Decoder

/-- The payloads of a kind of event of the ledger, as `Event.ofJson` reads them. -/
def PayloadType.ofKind (kind : EventKind) : PayloadType where
  name := kind.name
  decode := Event.ofJson kind

/-- The decoders that a deliverer knows, by the names of what they read. -/
structure Registry where
  decoders : Index String Decoder := {}

namespace Registry

def empty : Registry := {}

/-- Learn a type of payloads.  If its name is known, it is read in the new way from now on. -/
def register (r : Registry) (type : PayloadType) : Registry :=
  ⟨r.decoders.insert type.name type.decode⟩

/-- The registry that has learned types of payloads one after the other, so that the last of a name
is the one that counts. -/
def ofTypes (types : List PayloadType) : Registry :=
  types.foldl register empty

/-- The registry that knows the kinds of those names; other names are left out. -/
def ofNames (names : List String) : Registry :=
  ofTypes ((names.filterMap EventKind.ofName?).map PayloadType.ofKind)

/-- The registry that knows every event of the ledger. -/
def ledgerEvents : Registry :=
  ofTypes (EventKind.all.map PayloadType.ofKind)

def contains (r : Registry) (name : String) : Bool :=
  r.decoders.contains name

def size (r : Registry) : Nat :=
  r.decoders.size

def isEmpty (r : Registry) : Bool :=
  r.size == 0

/-- Read a stored payload with the decoder of its name. Without one it is an `unknownEventType`. -/
def decode (r : Registry) (name : String) (payload : Json) : Except OutboxError Event :=
  match r.decoders.get? name with
  | none => .error (.unknownEventType name)
  | some read => (read payload).mapError (.undecodable name)

end Registry

end BalanceLedger.Outbox
