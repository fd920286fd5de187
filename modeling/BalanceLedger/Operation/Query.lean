/-
# `Operation.Query` — reading balances and history

Questions to the ledger.  They write nothing and are not cancelled.
-/
import BalanceLedger.Operation.Basic

namespace BalanceLedger

namespace Slot

/-- What readers see of a slot, with the balance also in major units. -/
def toViewJson (s : Slot) : Json :=
  .obj
    [("account_id", s.account.toJson), ("currency_code", s.currency.toJson),
      ("balance_minor_units", .int64 s.balance), ("reserved_minor_units", .int64 s.reserved),
      ("available_minor_units", .int64 s.available),
      ("amount_decimal", .str (s.currency.majorUnits s.balance)), ("version", .int64 s.version),
      ("last_updated_at", s.updatedAt.toJson)]

/-- What readers see of a slot, and whether it was ever stored. -/
def toStateJson (s : Slot) : Json :=
  .obj (s.toViewJson.members ++ [("is_new", .bool s.isNew)])

end Slot

namespace Query

def slots (account : Uuid) : Operation (List Slot) :=
  Operation.ask (.slots account)

def slot (account : Uuid) (currency : String) : Operation (Option Slot) := do
  let currency ← Operation.money (Currency.parse currency)
  Operation.ask (.loadSlot account currency)

/-- A page of entries; a range of dates that ends before it starts is refused. -/
def history (query : HistoryQuery) : Operation HistoryPage := do
  if let (some first, some last) := (query.since, query.upTo) then
    if last < first then throw (.domain (.datesReversed first last))
  Operation.ask (.history query)

/-- Does what is `available` cover an amount? A slot that is not there covers nothing. -/
def isCovered (account : Uuid) (currency : String) (amount : Int64) : Operation Bool := do
  if amount ≤ 0 then throw (.domain (.amountNotPositive amount))
  return (← slot account currency).any (·.covers amount)

end Query

end BalanceLedger
