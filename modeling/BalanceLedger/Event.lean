/-
# `Event` — what the ledger announces

Every change of the ledger is announced by events: a balance moved, an entry was
added, an entry was voided, funds were reserved or a reservation was released.
An event goes on the wire as its bare payload, and its kind travels beside it;
an event is therefore read as one given kind.
-/
import BalanceLedger.Json.Decode
import BalanceLedger.Uuid

namespace BalanceLedger

/-- An entry was added to the log. -/
structure EntryCreated where
  entry : Uuid
  account : Uuid
  currency : String
  amount : Int64
  side : String
  runningBalance : Int64
  reference : Option String
deriving DecidableEq, Repr

/-- A balance was credited or debited. -/
structure BalanceUpdated where
  account : Uuid
  currency : String
  previous : Int64
  balance : Int64
  /-- Positive for a credit, negative for a debit. -/
  change : Int64
  version : Int64
deriving DecidableEq, Repr

/-- An entry was reversed by a void entry. -/
structure EntryVoided where
  target : Uuid
  voidEntry : Uuid
  account : Uuid
  reason : String
deriving DecidableEq, Repr

/-- The reserved part of a balance changed by an amount, up or down. -/
structure ReservationChange where
  account : Uuid
  currency : String
  amount : Int64
  reserved : Int64
  available : Int64
  version : Int64
deriving DecidableEq, Repr

/-- What the ledger announces. -/
inductive Event where
  | entryCreated (e : EntryCreated)
  | balanceUpdated (e : BalanceUpdated)
  | entryVoided (e : EntryVoided)
  | fundsReserved (e : ReservationChange)
  | reservationReleased (e : ReservationChange)
deriving DecidableEq, Repr

/-- The kinds of events. -/
inductive EventKind where
  | entryCreated
  | balanceUpdated
  | entryVoided
  | fundsReserved
  | reservationReleased
deriving DecidableEq, Repr

namespace EventKind

def all : List EventKind :=
  [entryCreated, balanceUpdated, entryVoided, fundsReserved, reservationReleased]

def name : EventKind → String
  | entryCreated => "EntryCreated"
  | balanceUpdated => "BalanceUpdated"
  | entryVoided => "EntryVoided"
  | fundsReserved => "FundsReserved"
  | reservationReleased => "ReservationReleased"

/-- The kind of that name. -/
def ofName? (s : String) : Option EventKind :=
  all.find? fun k => k.name == s

end EventKind

namespace EntryCreated

def toJson (e : EntryCreated) : Json :=
  .obj
    [("entry_id", e.entry.toJson), ("account_id", e.account.toJson),
      ("currency_code", .str e.currency), ("amount_minor_units", .int64 e.amount),
      ("entry_type", .str e.side), ("running_balance", .int64 e.runningBalance),
      ("reference", .text? e.reference)]

open Decode Decode.Fields in
def fields : Decode.Fields EntryCreated :=
  EntryCreated.mk <$> required "entry_id" Uuid.ofJson <*> required "account_id" Uuid.ofJson <*>
    required "currency_code" text <*> required "amount_minor_units" int64 <*>
    required "entry_type" text <*> required "running_balance" int64 <*>
    optional "reference" text

def ofJson : Json → Decode.Result EntryCreated :=
  fields.decode EventKind.entryCreated.name

end EntryCreated

namespace BalanceUpdated

def toJson (e : BalanceUpdated) : Json :=
  .obj
    [("account_id", e.account.toJson), ("currency_code", .str e.currency),
      ("previous_balance", .int64 e.previous), ("new_balance", .int64 e.balance),
      ("change_amount", .int64 e.change), ("version", .int64 e.version)]

open Decode Decode.Fields in
def fields : Decode.Fields BalanceUpdated :=
  BalanceUpdated.mk <$> required "account_id" Uuid.ofJson <*> required "currency_code" text <*>
    required "previous_balance" int64 <*> required "new_balance" int64 <*>
    required "change_amount" int64 <*> required "version" int64

def ofJson : Json → Decode.Result BalanceUpdated :=
  fields.decode EventKind.balanceUpdated.name

end BalanceUpdated

namespace EntryVoided

def toJson (e : EntryVoided) : Json :=
  .obj
    [("original_entry_id", e.target.toJson), ("void_entry_id", e.voidEntry.toJson),
      ("account_id", e.account.toJson), ("reason", .str e.reason)]

open Decode Decode.Fields in
def fields : Decode.Fields EntryVoided :=
  EntryVoided.mk <$> required "original_entry_id" Uuid.ofJson <*>
    required "void_entry_id" Uuid.ofJson <*> required "account_id" Uuid.ofJson <*>
    required "reason" text

def ofJson : Json → Decode.Result EntryVoided :=
  fields.decode EventKind.entryVoided.name

end EntryVoided

namespace ReservationChange

def toJson (e : ReservationChange) : Json :=
  .obj
    [("account_id", e.account.toJson), ("currency_code", .str e.currency),
      ("amount_minor_units", .int64 e.amount), ("reserved_total", .int64 e.reserved),
      ("available_balance", .int64 e.available), ("version", .int64 e.version)]

open Decode Decode.Fields in
def fields : Decode.Fields ReservationChange :=
  ReservationChange.mk <$> required "account_id" Uuid.ofJson <*> required "currency_code" text <*>
    required "amount_minor_units" int64 <*> required "reserved_total" int64 <*>
    required "available_balance" int64 <*> required "version" int64

/-- From the payload of an event of that kind. -/
def ofJson (kind : EventKind) : Json → Decode.Result ReservationChange :=
  fields.decode kind.name

end ReservationChange

namespace Event

def kind : Event → EventKind
  | entryCreated _ => .entryCreated
  | balanceUpdated _ => .balanceUpdated
  | entryVoided _ => .entryVoided
  | fundsReserved _ => .fundsReserved
  | reservationReleased _ => .reservationReleased

def account : Event → Uuid
  | entryCreated e => e.account
  | balanceUpdated e => e.account
  | entryVoided e => e.account
  | fundsReserved e => e.account
  | reservationReleased e => e.account

def toJson : Event → Json
  | entryCreated e => e.toJson
  | balanceUpdated e => e.toJson
  | entryVoided e => e.toJson
  | fundsReserved e => e.toJson
  | reservationReleased e => e.toJson

/-- An event of a given kind, from its payload. -/
def ofJson (kind : EventKind) (payload : Json) : Decode.Result Event :=
  match kind with
  | .entryCreated => (EntryCreated.ofJson payload).map entryCreated
  | .balanceUpdated => (BalanceUpdated.ofJson payload).map balanceUpdated
  | .entryVoided => (EntryVoided.ofJson payload).map entryVoided
  | .fundsReserved => (ReservationChange.ofJson kind payload).map fundsReserved
  | .reservationReleased => (ReservationChange.ofJson kind payload).map reservationReleased

end Event

end BalanceLedger
