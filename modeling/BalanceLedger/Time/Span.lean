/-
# `Time.Span` — lengths of time

A length of time in nanoseconds.  In messages a length is written in the largest
of the units s, ms, µs and ns in which it is at least one, with as many decimal
places as it needs.
-/

namespace BalanceLedger.Time

/-- A length of time. -/
structure Span where
  nanos : Nat
deriving DecidableEq, Repr

namespace Span

def ofSeconds (n : Nat) : Span := ⟨n * 1000000000⟩

def ofMillis (n : Nat) : Span := ⟨n * 1000000⟩

def ofDays (n : Nat) : Span := ofSeconds (n * 86400)

def seconds (s : Span) : Nat := s.nanos / 1000000000

def millis (s : Span) : Nat := s.nanos / 1000000

/-- The longest length that a clock reading can be moved by: 2^63 - 1 milliseconds. -/
def longestShift : Span := ofMillis 9223372036854775807

/-- The decimal places of a remainder below `unit`, without trailing zeros. -/
def places (unit : Nat) (remainder : Nat) : List Char :=
  let width := (Nat.toDigits 10 unit).length - 1
  let ds := Nat.toDigits 10 remainder
  let padded := List.replicate (width - ds.length) '0' ++ ds
  (padded.reverse.dropWhile (· == '0')).reverse

/-- A number of nanoseconds in a unit. -/
def inUnit (unit nanos : Nat) (name : String) : String :=
  let whole := toString (nanos / unit)
  let fraction := if nanos % unit = 0 then [] else places unit (nanos % unit)
  if fraction.isEmpty then whole ++ name
  else whole ++ "." ++ String.ofList fraction ++ name

def render (s : Span) : String :=
  if 1000000000 ≤ s.nanos then inUnit 1000000000 s.nanos "s"
  else if 1000000 ≤ s.nanos then inUnit 1000000 s.nanos "ms"
  else if 1000 ≤ s.nanos then inUnit 1000 s.nanos "µs"
  else inUnit 1 s.nanos "ns"

end Span

end BalanceLedger.Time
