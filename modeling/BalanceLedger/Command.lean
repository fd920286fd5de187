/-
# `Command` — what callers ask of the ledger

A command carries its fields as the caller gave them; the operation that executes
it checks them.  Each operation answers a small result that names what it wrote.
-/
import BalanceLedger.Error
import BalanceLedger.Side
import BalanceLedger.Text.Blank

namespace BalanceLedger

/-! ## Commands -/

/-- Credit or debit a slot. -/
structure PostCommand where
  account : Uuid
  currency : String
  amount : Int64
  side : Side
  description : String
  reference : Option String := none
  /-- Groups the entries of one business transaction. -/
  transaction : Option Uuid := none
  key : Option String := none
deriving DecidableEq, Repr

/-- Reverse an entry. -/
structure VoidCommand where
  target : Uuid
  reason : String
deriving DecidableEq, Repr

/-- The kinds of manual adjustments. -/
inductive AdjustmentKind where
  | correction
  | fee
  | interest
deriving DecidableEq, Repr

/-- Adjust a balance by hand: up by a positive amount, down by a negative one. -/
structure AdjustCommand where
  account : Uuid
  currency : String
  amount : Int64
  kind : AdjustmentKind
  reason : String
  approvedBy : Option String := none
deriving DecidableEq, Repr

/-- Reserve a part of a balance, or release it. -/
structure ReserveCommand where
  account : Uuid
  currency : String
  amount : Int64
deriving DecidableEq, Repr

namespace PostCommand

def credit (account : Uuid) (currency : String) (amount : Int64) (description : String) :
    PostCommand :=
  { account, currency, amount, side := .credit, description }

def debit (account : Uuid) (currency : String) (amount : Int64) (description : String) :
    PostCommand :=
  { account, currency, amount, side := .debit, description }

def toJson (c : PostCommand) : Json :=
  .obj
    [("account_id", c.account.toJson), ("currency_code", .str c.currency),
      ("amount_minor_units", .int64 c.amount), ("entry_type", c.side.toJson),
      ("description", .str c.description), ("reference", .text? c.reference),
      ("transaction_id", .text? (c.transaction.map Uuid.render)),
      ("idempotency_key", .text? c.key)]

open Decode Decode.Fields in
def fields : Decode.Fields PostCommand :=
  PostCommand.mk <$> required "account_id" Uuid.ofJson <*> required "currency_code" text <*>
    required "amount_minor_units" int64 <*> required "entry_type" Side.ofJson <*>
    required "description" text <*> optional "reference" text <*>
    optional "transaction_id" Uuid.ofJson <*> optional "idempotency_key" text

def ofJson : Json → Decode.Result PostCommand :=
  fields.decode "PostTransactionCommand"

end PostCommand

namespace VoidCommand

def toJson (c : VoidCommand) : Json :=
  .obj [("original_entry_id", c.target.toJson), ("reason", .str c.reason)]

open Decode Decode.Fields in
def fields : Decode.Fields VoidCommand :=
  VoidCommand.mk <$> required "original_entry_id" Uuid.ofJson <*> required "reason" text

def ofJson : Json → Decode.Result VoidCommand :=
  fields.decode "VoidTransactionCommand"

end VoidCommand

namespace AdjustmentKind

def name : AdjustmentKind → String
  | correction => "Correction"
  | fee => "Fee"
  | interest => "Interest"

/-- The kind a text names, in any case and with white space around it. -/
def parse (s : String) : Except DomainError AdjustmentKind :=
  match String.ofList ((Text.trim s).toList.map Char.toLower) with
  | "correction" => .ok correction
  | "fee" => .ok fee
  | "interest" => .ok interest
  | _ => .error (.unknownAdjustment s)

def toJson (k : AdjustmentKind) : Json :=
  .str k.name

def ofJson : Json → Decode.Result AdjustmentKind :=
  Decode.named [("Correction", correction), ("Fee", fee), ("Interest", interest)]

end AdjustmentKind

namespace AdjustCommand

def toJson (c : AdjustCommand) : Json :=
  .obj
    [("account_id", c.account.toJson), ("currency_code", .str c.currency),
      ("amount_minor_units", .int64 c.amount), ("adjustment_type", c.kind.toJson),
      ("reason", .str c.reason), ("approved_by", .text? c.approvedBy)]

open Decode Decode.Fields in
def fields : Decode.Fields AdjustCommand :=
  AdjustCommand.mk <$> required "account_id" Uuid.ofJson <*> required "currency_code" text <*>
    required "amount_minor_units" int64 <*> required "adjustment_type" AdjustmentKind.ofJson <*>
    required "reason" text <*> optional "approved_by" text

def ofJson : Json → Decode.Result AdjustCommand :=
  fields.decode "AdjustmentCommand"

end AdjustCommand

namespace ReserveCommand

def toJson (c : ReserveCommand) : Json :=
  .obj
    [("account_id", c.account.toJson), ("currency_code", .str c.currency),
      ("amount_minor_units", .int64 c.amount)]

open Decode Decode.Fields in
def fields : Decode.Fields ReserveCommand :=
  ReserveCommand.mk <$> required "account_id" Uuid.ofJson <*> required "currency_code" text <*>
    required "amount_minor_units" int64

def ofJson : Json → Decode.Result ReserveCommand :=
  fields.decode "ReservationCommand"

end ReserveCommand

/-! ## Results -/

/-- What became of a command. -/
inductive PostingStatus where
  | posted
  /-- The key was used before; nothing was written. -/
  | alreadyProcessed
  | voided
  | adjusted
  | reserved
  | released
deriving DecidableEq, Repr

/-- What a posting or an adjustment answers. -/
structure PostingResult where
  entry : Uuid
  status : PostingStatus
  balance : Int64
deriving DecidableEq, Repr

/-- What a void answers. -/
structure VoidResult where
  voidEntry : Uuid
  target : Uuid
  status : PostingStatus
  balance : Int64
deriving DecidableEq, Repr

/-- What a reservation or a release answers. -/
structure ReservationResult where
  account : Uuid
  currency : String
  status : PostingStatus
  reserved : Int64
  available : Int64
deriving DecidableEq, Repr

namespace PostingStatus

def name : PostingStatus → String
  | posted => "Posted"
  | alreadyProcessed => "AlreadyProcessed"
  | voided => "Voided"
  | adjusted => "AdjustmentApplied"
  | reserved => "Reserved"
  | released => "Released"

def names : List (String × PostingStatus) :=
  [posted, alreadyProcessed, voided, adjusted, reserved, released].map fun s => (s.name, s)

def toJson (s : PostingStatus) : Json :=
  .str s.name

def ofJson : Json → Decode.Result PostingStatus :=
  Decode.named names

end PostingStatus

namespace PostingResult

def toJson (r : PostingResult) : Json :=
  .obj
    [("entry_id", r.entry.toJson), ("status", r.status.toJson),
      ("new_balance_minor_units", .int64 r.balance)]

open Decode Decode.Fields in
def fields : Decode.Fields PostingResult :=
  PostingResult.mk <$> required "entry_id" Uuid.ofJson <*> required "status" PostingStatus.ofJson <*>
    required "new_balance_minor_units" int64

def ofJson : Json → Decode.Result PostingResult :=
  fields.decode "PostingResult"

end PostingResult

namespace VoidResult

def toJson (r : VoidResult) : Json :=
  .obj
    [("void_entry_id", r.voidEntry.toJson), ("original_entry_id", r.target.toJson),
      ("status", r.status.toJson), ("new_balance_minor_units", .int64 r.balance)]

open Decode Decode.Fields in
def fields : Decode.Fields VoidResult :=
  VoidResult.mk <$> required "void_entry_id" Uuid.ofJson <*>
    required "original_entry_id" Uuid.ofJson <*> required "status" PostingStatus.ofJson <*>
    required "new_balance_minor_units" int64

def ofJson : Json → Decode.Result VoidResult :=
  fields.decode "VoidResult"

end VoidResult

namespace ReservationResult

def toJson (r : ReservationResult) : Json :=
  .obj
    [("account_id", r.account.toJson), ("currency_code", .str r.currency),
      ("status", r.status.toJson), ("reserved_minor_units", .int64 r.reserved),
      ("available_minor_units", .int64 r.available)]

open Decode Decode.Fields in
def fields : Decode.Fields ReservationResult :=
  ReservationResult.mk <$> required "account_id" Uuid.ofJson <*>
    required "currency_code" text <*> required "status" PostingStatus.ofJson <*>
    required "reserved_minor_units" int64 <*> required "available_minor_units" int64

def ofJson : Json → Decode.Result ReservationResult :=
  fields.decode "ReservationResult"

end ReservationResult

end BalanceLedger
