/-
# `WireFormat` — the wire format by the name of a type

The types that go over the wire, by name.  A value of the wire is brought into
the form in which the library writes it by reading it and writing it again.
-/
import BalanceLedger.Command
import BalanceLedger.Entry
import BalanceLedger.Outbox.Message

namespace BalanceLedger.WireFormat

/-- Read a value and write it again. -/
def again {α : Type} (read : Json → Decode.Result α) (write : α → Json) (v : Json) :
    Decode.Result Json :=
  (read v).map write

/-- The form in which a value of a type is written, for every type of the wire. -/
def types : List (String × (Json → Decode.Result Json)) :=
  [("MinorUnits", again Amount.ofJson Amount.toJson),
    ("CurrencyCode", again Currency.ofJson Currency.toJson),
    ("IdempotencyKey", again IdempotencyKey.ofJson IdempotencyKey.toJson),
    ("EntryType", again Side.ofJson Side.toJson),
    ("AdjustmentType", again AdjustmentKind.ofJson AdjustmentKind.toJson),
    ("PostingStatus", again PostingStatus.ofJson PostingStatus.toJson),
    ("OutboxStatus", again Outbox.Status.ofJson Outbox.Status.toJson),
    ("OperationContext", again Origin.ofJson Origin.toJson),
    ("PostTransactionCommand", again PostCommand.ofJson PostCommand.toJson),
    ("VoidTransactionCommand", again VoidCommand.ofJson VoidCommand.toJson),
    ("AdjustmentCommand", again AdjustCommand.ofJson AdjustCommand.toJson),
    ("ReservationCommand", again ReserveCommand.ofJson ReserveCommand.toJson),
    ("PostingResult", again PostingResult.ofJson PostingResult.toJson),
    ("VoidResult", again VoidResult.ofJson VoidResult.toJson),
    ("ReservationResult", again ReservationResult.ofJson ReservationResult.toJson),
    ("AccountBalance", again Slot.ofJson Slot.toJson),
    ("LedgerEntry", again Entry.ofJson Entry.toJson),
    ("OutboxMessage", again Outbox.Message.ofJson Outbox.Message.toJson),
    ("EntryCreated", again EntryCreated.ofJson EntryCreated.toJson),
    ("BalanceUpdated", again BalanceUpdated.ofJson BalanceUpdated.toJson),
    ("EntryVoided", again EntryVoided.ofJson EntryVoided.toJson),
    ("FundsReserved", again (ReservationChange.ofJson .fundsReserved) ReservationChange.toJson),
    ("ReservationReleased",
      again (ReservationChange.ofJson .reservationReleased) ReservationChange.toJson)]

/-- The form in which a value of the type of that name is written. -/
def normalise? (type : String) (v : Json) : Option (Decode.Result Json) :=
  (types.lookup type).map fun form => form v

end BalanceLedger.WireFormat
