/-
# `Time.Instant` — points in time

An instant is a second, counted from the start of 1970 in UTC, and nanoseconds
into it.  A leap second has no number of its own: it is the second before it
with 10^9 nanoseconds or more.  Instants are ordered by second, then by
nanosecond.
-/
import BalanceLedger.Time.Calendar
import BalanceLedger.Time.Span

namespace BalanceLedger.Time

/-- A point in time. -/
structure Instant where
  seconds : Int
  nanos : Nat
  nanos_lt : nanos < 2000000000 := by decide
deriving DecidableEq, Repr

namespace Instant

def epoch : Instant := { seconds := 0, nanos := 0 }

/-- Earlier. -/
protected def Before (a b : Instant) : Prop :=
  a.seconds < b.seconds ∨ a.seconds = b.seconds ∧ a.nanos < b.nanos

instance : LT Instant := ⟨Instant.Before⟩

instance : LE Instant := ⟨fun a b => ¬ Instant.Before b a⟩

instance (a b : Instant) : Decidable (a < b) :=
  inferInstanceAs (Decidable (_ ∨ _ ∧ _))

instance (a b : Instant) : Decidable (a ≤ b) :=
  inferInstanceAs (Decidable (¬ (_ ∨ _ ∧ _)))

def toNanos (t : Instant) : Int :=
  t.seconds * 1000000000 + t.nanos

/-- The instant a number of nanoseconds after the epoch. -/
def ofNanos (n : Int) : Instant where
  seconds := n / 1000000000
  nanos := (n % 1000000000).toNat
  nanos_lt := by omega

/-- The second at which the first representable year, -262143, starts. -/
def firstSecond : Int := (Date.toDays ⟨-262143, 1, 1⟩) * 86400

/-- The second at which the last representable year, 262142, is over. -/
def endSecond : Int := (Date.toDays ⟨262143, 1, 1⟩) * 86400

/-- Does the instant lie in a representable year? -/
def inRange (t : Instant) : Bool :=
  firstSecond ≤ t.seconds && t.seconds < endSecond

/-- The instant a length of time earlier, if the length is at most `Span.longestShift` and the
instant is `inRange`. Within a leap second it stays there for as long as the length does not lead
out of it. -/
def sub? (t : Instant) (s : Span) : Option Instant :=
  if Span.longestShift.nanos < s.nanos then none
  else if t.inRange ∧ 1000000000 + s.nanos ≤ t.nanos then
    some { t with
      nanos := t.nanos - s.nanos
      nanos_lt := Nat.lt_of_le_of_lt (Nat.sub_le ..) t.nanos_lt }
  else
    let r := ofNanos (t.toNanos - s.nanos)
    if r.inRange then some r else none

/-- The next microsecond.  Within a leap second it ends where the leap second does. -/
def nextMicro (t : Instant) : Instant :=
  let limit := if t.nanos < 1000000000 then 1000000000 else 2000000000
  if h : t.nanos + 1000 < limit then
    { seconds := t.seconds, nanos := t.nanos + 1000,
      nanos_lt := by
        have : limit ≤ 2000000000 := by simp only [limit]; split <;> omega
        omega }
  else
    { seconds := t.seconds + 1, nanos := t.nanos + 1000 - limit,
      nanos_lt := by
        have := t.nanos_lt
        have : 1000000000 ≤ limit := by simp only [limit]; split <;> omega
        omega }

end Instant

end BalanceLedger.Time
