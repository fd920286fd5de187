/-
# `Time.Ticker` — ticks at a fixed rhythm

A ticker is due for the first time when it starts and then once per period.  Who
comes late for a tick gets it at once; the ticks that were missed meanwhile are
skipped, and the next one is due where the rhythm goes on.
-/
import BalanceLedger.Time.Span

namespace BalanceLedger.Time

/-- A rhythm, and when the next tick is due. -/
structure Ticker where
  period : Span
  due : Span
deriving DecidableEq, Repr

namespace Ticker

/-- How late a tick can be taken without being late. -/
def slack : Span := .ofMillis 5

/-- A ticker that is due now. -/
def start (period now : Span) : Ticker :=
  { period, due := now }

/-- The ticker after the tick that was due has been taken. -/
def tick (t : Ticker) (now : Span) : Ticker :=
  if t.due.nanos + slack.nanos < now.nanos then
    { t with due := ⟨now.nanos + t.period.nanos - (now.nanos - t.due.nanos) % t.period.nanos⟩ }
  else { t with due := ⟨t.due.nanos + t.period.nanos⟩ }

/-- Which of two tickers is due first; the first one where both are. -/
def firstDue (a b : Ticker) : Span :=
  if b.due.nanos < a.due.nanos then b.due else a.due

end Ticker

end BalanceLedger.Time
