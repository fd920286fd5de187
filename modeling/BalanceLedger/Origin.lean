/-
# `Origin` — where an operation comes from

Callers may name the request an operation belongs to and the module or person
that issued it.  Both are copied onto every event the operation emits, and
nothing else depends on them.
-/
import BalanceLedger.Json.Decode

namespace BalanceLedger

/-- The request and the issuer of an operation, as far as they are known. -/
structure Origin where
  correlationId : Option String := none
  initiatedBy : Option String := none
deriving DecidableEq, Repr

namespace Origin

/-- As a JSON object; what is not known is left out. -/
def toJson (o : Origin) : Json :=
  .obj
    ((o.correlationId.map fun s => ("correlation_id", Json.str s)).toList ++
      (o.initiatedBy.map fun s => ("initiated_by", Json.str s)).toList)

open Decode.Fields in
def fields : Decode.Fields Origin :=
  Origin.mk <$> optional "correlation_id" Decode.text <*> optional "initiated_by" Decode.text

def ofJson : Json → Decode.Result Origin :=
  fields.decode "OperationContext"

end Origin

end BalanceLedger
