/-
# `Slot` — one balance of one account

A slot is the balance an account has in a currency.  A part of it can be
reserved; what is not reserved is available.  Every change counts the version up
by one and states its new figures in an event.  A slot of version 0 has never
been stored.

The changes keep `0 ≤ reserved ≤ balance`: a debit and a reservation are checked
against what is available, a release against what is reserved, and a credit
against the largest balance.
-/
import BalanceLedger.Error
import BalanceLedger.Event
import BalanceLedger.Money.Amount
import BalanceLedger.Money.Currency
import BalanceLedger.Side

namespace BalanceLedger

open Time (Instant)

/-- The balance of an account in a currency. -/
structure Slot where
  account : Uuid
  currency : Currency
  balance : Int64
  reserved : Int64
  version : Int64
  updatedAt : Instant
deriving DecidableEq, Repr

namespace Slot

/-- What a slot is found by. -/
abbrev Key := Uuid × Currency

def key (s : Slot) : Key :=
  (s.account, s.currency)

/-- An empty slot that has not been stored: its version is 0, and `isNew` tells it by that. -/
def opened (account : Uuid) (currency : Currency) (now : Instant) : Slot :=
  { account, currency, balance := 0, reserved := 0, version := 0, updatedAt := now }

/-- What can be spent. -/
def available (s : Slot) : Int64 :=
  s.balance - s.reserved

/-- Has the slot never been stored? -/
def isNew (s : Slot) : Bool :=
  s.version == 0

/-- Does what is available cover the amount? -/
def covers (s : Slot) (amount : Int64) : Bool :=
  amount ≤ s.available

/-- Count a change in the `version`, and date it. -/
def touch (s : Slot) (now : Instant) : Slot :=
  { s with version := s.version + 1, updatedAt := now }

/-- The event that announces a moved balance. -/
def balanceUpdated (s : Slot) (previous change : Int64) : BalanceUpdated :=
  { account := s.account, currency := s.currency.code, previous, balance := s.balance, change,
    version := s.version }

/-- The event that announces a changed reservation. -/
def reservationChange (s : Slot) (amount : Amount) : ReservationChange :=
  { account := s.account, currency := s.currency.code, amount := amount.val,
    reserved := s.reserved, available := s.available, version := s.version }

/-- Add an amount to the balance. -/
def credit (s : Slot) (amount : Amount) (now : Instant) :
    Except DomainError (Slot × BalanceUpdated) :=
  match Word.checkedAdd s.balance amount.val with
  | none => .error .balanceOverflow
  | some balance =>
    let next := { s with balance }.touch now
    .ok (next, next.balanceUpdated s.balance amount.val)

/-- Take an amount from what is `available`. -/
def debit (s : Slot) (amount : Amount) (now : Instant) :
    Except DomainError (Slot × BalanceUpdated) :=
  if s.available < amount.val then .error (.insufficientBalance amount.val s.available)
  else
    let next := { s with balance := s.balance - amount.val }.touch now
    .ok (next, next.balanceUpdated s.balance (-amount.val))

/-- Add an amount to a side of the slot: `credit` or `debit` it. -/
def move (s : Slot) (side : Side) (amount : Amount) (now : Instant) :
    Except DomainError (Slot × BalanceUpdated) :=
  match side with
  | .credit => s.credit amount now
  | .debit => s.debit amount now

/-- Reserve an amount of what is `available`. -/
def reserve (s : Slot) (amount : Amount) (now : Instant) :
    Except DomainError (Slot × ReservationChange) :=
  if s.available < amount.val then .error (.insufficientBalance amount.val s.available)
  else
    let next := { s with reserved := s.reserved + amount.val }.touch now
    .ok (next, next.reservationChange amount)

/-- Release an amount of what is reserved. -/
def release (s : Slot) (amount : Amount) (now : Instant) :
    Except DomainError (Slot × ReservationChange) :=
  if s.reserved < amount.val then .error (.overRelease amount.val s.reserved)
  else
    let next := { s with reserved := s.reserved - amount.val }.touch now
    .ok (next, next.reservationChange amount)

def toJson (s : Slot) : Json :=
  .obj
    [("account_id", s.account.toJson), ("currency_code", s.currency.toJson),
      ("balance_minor_units", .int64 s.balance), ("reserved_minor_units", .int64 s.reserved),
      ("version", .int64 s.version), ("last_updated_at", s.updatedAt.toJson)]

open Decode Decode.Fields in
def fields : Decode.Fields Slot :=
  Slot.mk <$> required "account_id" Uuid.ofJson <*> required "currency_code" Currency.ofJson <*>
    required "balance_minor_units" int64 <*> required "reserved_minor_units" int64 <*>
    required "version" int64 <*> required "last_updated_at" Instant.ofJson

def ofJson : Json → Decode.Result Slot :=
  fields.decode "AccountBalance"

end Slot

end BalanceLedger
