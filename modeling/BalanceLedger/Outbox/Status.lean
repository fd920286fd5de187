/-
# `Outbox.Status` — the life of an outbox message

A message waits as pending, is claimed for delivery, and ends as completed or
failed.  A claimed message can go back to pending after a failed delivery, and
can be claimed again when its claim has grown old.
-/
import BalanceLedger.Json.Decode

namespace BalanceLedger.Outbox

/-- Where a message stands. -/
inductive Status where
  | pending
  | processing
  | completed
  | failed
deriving DecidableEq, Repr

namespace Status

def all : List Status := [pending, processing, completed, failed]

def name : Status → String
  | pending => "pending"
  | processing => "processing"
  | completed => "completed"
  | failed => "failed"

/-- Is the message never picked up again? -/
def isTerminal : Status → Bool
  | completed | failed => true
  | _ => false

/-- May a message move from the first status to the second? -/
def canBecome : Status → Status → Bool
  | pending, processing => true
  | processing, _ => true
  | _, _ => false

/-- Why a text names no status. -/
def unknown (text : String) : String :=
  "unknown outbox status '" ++ text ++ "'"

/-- The status of exactly that name. -/
def parse (s : String) : Except String Status :=
  match all.find? fun t => t.name == s with
  | some t => .ok t
  | none => .error (unknown s)

def toJson (s : Status) : Json :=
  .str s.name

def ofJson : Json → Decode.Result Status :=
  Decode.named (all.map fun s => (s.name, s))

end Status

/-- How many messages stand where. -/
structure StatusCounts where
  pending : Int64 := 0
  processing : Int64 := 0
  completed : Int64 := 0
  failed : Int64 := 0
deriving DecidableEq, Repr

namespace StatusCounts

/-- Count more messages of a status. -/
def add (c : StatusCounts) (status : Status) (n : Int64) : StatusCounts :=
  match status with
  | .pending => { c with pending := c.pending + n }
  | .processing => { c with processing := c.processing + n }
  | .completed => { c with completed := c.completed + n }
  | .failed => { c with failed := c.failed + n }

def total (c : StatusCounts) : Int64 :=
  c.pending + c.processing + c.completed + c.failed

def toJson (c : StatusCounts) : Json :=
  .obj
    [("pending", .int64 c.pending), ("processing", .int64 c.processing),
      ("completed", .int64 c.completed), ("failed", .int64 c.failed)]

def toTotalJson (c : StatusCounts) : Json :=
  .obj (c.toJson.members ++ [("total", .int64 c.total)])

end StatusCounts

end BalanceLedger.Outbox
