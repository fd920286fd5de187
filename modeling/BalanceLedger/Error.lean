/-
# `Error` — why an operation fails

Three layers of causes.  A `DomainError` is a broken business rule, found before
anything is written.  A `StoreError` is a refusal or a failure of the store.  A
`LedgerError` is what an operation answers: one of these, or that it was
cancelled, or that it lost every race for the balance.  The wording of each
cause is in its `message`; nothing else in the library writes error texts.
-/
import BalanceLedger.Money.Error
import BalanceLedger.Time.Rfc3339
import BalanceLedger.Uuid

namespace BalanceLedger

open Time (Instant)

/-- A failure as callers are told it: a stable code, and the message where there is one. -/
def failureJson (code : String) (message : Option String) : Json :=
  .obj (("error", .str code) :: (message.map fun text => ("message", Json.str text)).toList)

/-- What callers are told of a value that is no money. -/
def MoneyError.toJson (e : MoneyError) : Json :=
  failureJson e.code e.message

/-! ## Business rules -/

/-- A broken business rule. -/
inductive DomainError where
  | insufficientBalance (required available : Int64)
  | invalidAmount (detail : String)
  | invalidState (detail : String)
  | invalidCurrency (code : String)
  | invalidEntryType (text : String)
  | invalidInput (detail : String)
  | invalidIdempotencyKey (detail : String)
  | entryNotFound (id : Uuid)
  | alreadyVoided (id : Uuid)
deriving DecidableEq, Repr

namespace DomainError

def message : DomainError → String
  | insufficientBalance required available =>
    "Insufficient balance: required " ++ Word.render required ++ ", available " ++
      Word.render available
  | invalidAmount detail => "Invalid amount: " ++ detail
  | invalidState detail => "Invalid state: " ++ detail
  | invalidCurrency code => "Invalid currency: " ++ code
  | invalidEntryType text => "Invalid entry type: " ++ text
  | invalidInput detail => "Invalid input: " ++ detail
  | invalidIdempotencyKey detail => "Invalid idempotency key: " ++ detail
  | entryNotFound id => "Ledger entry not found: " ++ id.render
  | alreadyVoided id => "Ledger entry " ++ id.render ++ " is already voided"

def code : DomainError → String
  | insufficientBalance .. => "insufficient_balance"
  | invalidAmount _ => "invalid_amount"
  | invalidState _ => "invalid_state"
  | invalidCurrency _ => "invalid_currency"
  | invalidEntryType _ => "invalid_entry_type"
  | invalidInput _ => "invalid_input"
  | invalidIdempotencyKey _ => "invalid_idempotency_key"
  | entryNotFound _ => "entry_not_found"
  | alreadyVoided _ => "already_voided"

/-- Does the rule say that something does not exist? -/
def isNotFound : DomainError → Bool
  | entryNotFound _ => true
  | _ => false

def toJson (e : DomainError) : Json :=
  failureJson e.code e.message

/-- A value that is no money, as a broken rule. -/
def ofMoney : MoneyError → DomainError
  | .badCurrency code => .invalidCurrency code
  | e => .invalidAmount e.message

/-- A credit would exceed the largest balance. -/
def balanceOverflow : DomainError :=
  .invalidAmount "balance overflow"

/-- An adjustment by nothing. -/
def zeroAdjustment : DomainError :=
  .invalidAmount "adjustment amount cannot be zero"

/-- An adjustment whose magnitude is no word. -/
def adjustmentOutOfRange : DomainError :=
  .invalidAmount "adjustment amount out of range"

/-- A question about an amount that is not positive. -/
def amountNotPositive (n : Int64) : DomainError :=
  .invalidAmount ("amount must be positive, got " ++ Word.render n)

/-- A release of more than is reserved. -/
def overRelease (amount reserved : Int64) : DomainError :=
  .invalidState
    ("cannot release " ++ Word.render amount ++ " with only " ++ Word.render reserved ++
      " reserved")

/-- A void of an entry that is itself a void. -/
def voidOfVoid (id : Uuid) : DomainError :=
  .invalidState ("entry " ++ id.render ++ " is itself a void and cannot be reversed")

/-- The account never held the currency. -/
def noSlot (currency : String) (account : Uuid) : DomainError :=
  .invalidState ("no " ++ currency ++ " balance for account " ++ account.render)

/-- A text that is longer than its field. -/
def tooLong (field : String) (limit : Nat) : DomainError :=
  .invalidInput (field ++ " exceeds " ++ toString limit ++ " characters")

/-- A text that must not be blank. -/
def required (field : String) : DomainError :=
  .invalidInput (field ++ " is required")

/-- A name of no kind of adjustment. -/
def unknownAdjustment (text : String) : DomainError :=
  .invalidInput ("unknown adjustment type '" ++ text ++ "'")

/-- A range of dates that ends before it starts. -/
def datesReversed (first last : Instant) : DomainError :=
  .invalidInput ("from_date " ++ first.display ++ " is after to_date " ++ last.display)

/-- A blank idempotency key. -/
def emptyKey : DomainError :=
  .invalidIdempotencyKey "key cannot be empty"

/-- An idempotency key over the limit. -/
def longKey (limit : Nat) : DomainError :=
  .invalidIdempotencyKey ("key exceeds " ++ toString limit ++ " characters")

end DomainError

/-! ## The store -/

/-- A refusal or failure of the store. -/
inductive StoreError where
  /-- The balance is no longer at the version that was read. -/
  | versionConflict (account : Uuid) (currency : String) (expected : Int64)
  | duplicateKey (key : String)
  | duplicateVoid (target : Uuid)
  /-- The outbox message is not held under the claim that was named. -/
  | notClaimed (message : Uuid)
  /-- A stored row does not make a value. -/
  | corrupt (detail : String)
  | database (detail : String)
deriving DecidableEq, Repr

namespace StoreError

def message : StoreError → String
  | versionConflict account currency expected =>
    "Concurrency conflict for balance " ++ account.render ++ "/" ++ currency ++
      ": expected version " ++ Word.render expected
  | duplicateKey key => "Idempotency key already used: " ++ key
  | duplicateVoid target => "Entry " ++ target.render ++ " already has a void entry"
  | notClaimed id => "Outbox message " ++ id.render ++ " is not claimed"
  | corrupt detail => "Corrupt row: " ++ detail
  | database detail => "Database error: " ++ detail

def code : StoreError → String
  | versionConflict .. => "version_conflict"
  | duplicateKey _ => "duplicate_idempotency_key"
  | duplicateVoid _ => "duplicate_void"
  | notClaimed _ => "message_not_claimed"
  | corrupt _ => "corrupt"
  | database _ => "database"

/-- The message, unless it is the database's own. -/
def ownMessage? : StoreError → Option String
  | database _ => none
  | e => some e.message

def toJson (e : StoreError) : Json :=
  failureJson e.code e.ownMessage?

/-- Did another writer move the balance first? -/
def isVersionConflict : StoreError → Bool
  | versionConflict .. => true
  | _ => false

/-- Can the same call succeed later? -/
def isRetryable : StoreError → Bool
  | versionConflict .. => true
  | database _ => true
  | _ => false

end StoreError

/-! ## Operations -/

/-- Why an operation on the ledger fails. -/
inductive LedgerError where
  | domain (e : DomainError)
  /-- Every attempt lost the race for the balance. -/
  | exhausted (attempts : Nat)
  /-- Shutdown came before the commit. -/
  | cancelled
  | store (e : StoreError)
  | serialization
  | internal (detail : String)
deriving DecidableEq, Repr

namespace LedgerError

def message : LedgerError → String
  | domain e => e.message
  | exhausted attempts =>
    "Concurrency conflict persisted after " ++ toString attempts ++ " attempts"
  | cancelled => "Operation cancelled before commit"
  | store e => e.message
  | serialization => "Event serialization failed"
  | internal detail => "Internal error: " ++ detail

def code : LedgerError → String
  | domain e => e.code
  | exhausted _ => "concurrency_conflict"
  | cancelled => "cancelled"
  | store (.versionConflict ..) => "version_conflict"
  | store _ => "store_error"
  | serialization => "serialization_error"
  | internal _ => "internal_error"

/-- The message, unless it is not the ledger's own. -/
def ownMessage? : LedgerError → Option String
  | store e => e.ownMessage?
  | serialization => none
  | e => some e.message

def toJson (e : LedgerError) : Json :=
  failureJson e.code e.ownMessage?

/-- A value that is no money. -/
def ofMoney (e : MoneyError) : LedgerError :=
  .domain (.ofMoney e)

/-- A key was refused as used, but no entry holds it. -/
def orphanKey (key : String) : LedgerError :=
  .internal ("idempotency key " ++ key ++ " rejected but no entry holds it")

/-- Is a business rule broken, so that trying again is of no use? -/
def isBusiness : LedgerError → Bool
  | domain _ => true
  | _ => false

/-- Can the same command succeed later? -/
def isRetryable : LedgerError → Bool
  | exhausted _ => true
  | store e => e.isRetryable
  | _ => false

/-- Did another writer move the balance first? -/
def isVersionConflict : LedgerError → Bool
  | store e => e.isVersionConflict
  | _ => false

/-- How a failure is classified, with its message and what is more to be said of its cause. -/
def traits (e : LedgerError) (more : List (String × Json)) : Json :=
  .obj
    ([("code", .str e.code), ("business", .bool e.isBusiness),
      ("retryable", .bool e.isRetryable)] ++
      (e.ownMessage?.map fun text => ("message", Json.str text)).toList ++ more)

end LedgerError

def DomainError.traits (e : DomainError) : Json :=
  (LedgerError.domain e).traits [("not_found", .bool e.isNotFound)]

def StoreError.traits (e : StoreError) : Json :=
  (LedgerError.store e).traits
    [("store_kind", .str e.code), ("store_retryable", .bool e.isRetryable),
      ("version_conflict", .bool e.isVersionConflict)]

end BalanceLedger
