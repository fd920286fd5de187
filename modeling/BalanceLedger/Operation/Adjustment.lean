/-
# `Operation.Adjustment` — corrections by hand

An adjustment is a posting without a key: a credit for a positive amount, a debit
for a negative one.  It gets a transaction of its own and says in its description
what kind of adjustment it is and why it was made.
-/
import BalanceLedger.Operation.Posting

namespace BalanceLedger.AdjustCommand

/-- Check the command; the `Posting` gets the transaction that is given. -/
def toPosting (c : AdjustCommand) (transaction : Uuid) : Except DomainError Posting := do
  if c.amount = 0 then throw .zeroAdjustment
  if Text.isBlankText c.reason then throw (.required "adjustment reason")
  let some size := Word.checkedAbs c.amount | throw .adjustmentOutOfRange
  let currency ← (Currency.parse c.currency).mapError .ofMoney
  let amount ← (Amount.ofInt64 size).mapError .ofMoney
  return {
    account := c.account, currency, status := .adjusted
    draft := {
      side := if 0 < c.amount then .credit else .debit
      amount
      description := "Adjustment (" ++ c.kind.name ++ "): " ++ Text.trim c.reason
      reference := some ("ADJ-" ++ c.kind.name)
      transaction := some transaction
      key := none } }

def execute (c : AdjustCommand) (policy : RetryPolicy) (origin : Origin) :
    Operation PostingResult := do
  let posting ← Operation.lawful (c.toPosting (← World.freshId))
  let result ← posting.apply policy origin
  World.log .info "Balance adjustment applied"
    [("entry_id", result.entry.toJson), ("account_id", posting.account.toJson),
      ("adjustment_type", c.kind.toJson), ("approved_by", Log.textOrDash c.approvedBy)]
  return result

end BalanceLedger.AdjustCommand
