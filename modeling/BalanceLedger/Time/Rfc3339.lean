/-
# `Time.Rfc3339` — instants as text

An instant is written in UTC as `2024-01-31T23:59:59.250Z`, with as few of 0, 3,
6 or 9 decimal places as are exact; a year outside 0 to 9999 has a sign.  In
messages a space stands in place of the `T` and ` UTC` in place of the `Z`.

The reader takes any offset from UTC and is more lenient than the writer: blanks
may stand between the parts, a space or a small `t` may stand between date and
time, numbers may be written with fewer digits, digits beyond the ninth decimal
place are dropped, and the offset may be `UTC`.  Second 60 is a leap second.
-/
import BalanceLedger.Json.Decode
import BalanceLedger.Text.Blank
import BalanceLedger.Time.Instant

namespace BalanceLedger.Time

/-- A number with at least `width` digits. -/
def padded (width n : Nat) : String :=
  let ds := Nat.toDigits 10 n
  String.ofList (List.replicate (width - ds.length) '0' ++ ds)

/-- A year: four digits, or a sign and at least four digits. -/
def renderYear (year : Int) : String :=
  if 0 ≤ year ∧ year ≤ 9999 then padded 4 year.toNat
  else (if year < 0 then "-" else "+") ++ padded 4 year.natAbs

/-- The decimal places of a second, with the point, or nothing. -/
def renderFraction (nanos : Nat) : String :=
  if nanos = 0 then ""
  else if nanos % 1000000 = 0 then "." ++ padded 3 (nanos / 1000000)
  else if nanos % 1000 = 0 then "." ++ padded 6 (nanos / 1000)
  else "." ++ padded 9 nanos

namespace Instant

def date (t : Instant) : Date :=
  Date.ofDays (t.seconds / 86400)

def renderDate (t : Instant) : String :=
  let d := t.date
  renderYear d.year ++ "-" ++ padded 2 d.month ++ "-" ++ padded 2 d.day

def renderTime (t : Instant) : String :=
  let second := (t.seconds % 86400).toNat
  let leap := t.nanos / 1000000000
  padded 2 (second / 3600) ++ ":" ++ padded 2 (second / 60 % 60) ++ ":" ++
    padded 2 (second % 60 + leap) ++ renderFraction (t.nanos % 1000000000)

def render (t : Instant) : String :=
  t.renderDate ++ "T" ++ t.renderTime ++ "Z"

/-- The form of messages. -/
def display (t : Instant) : String :=
  t.renderDate ++ " " ++ t.renderTime ++ " UTC"

end Instant

namespace Rfc3339

/-- The text from its first character that is not white space. -/
def skip (cs : List Char) : List Char :=
  cs.dropWhile Text.isBlank

/-- A number of one to `width` digits. -/
def number? (width : Nat) (cs : List Char) : Option (Nat × List Char) :=
  let ds := (cs.take width).takeWhile Char.isDigit
  if ds.isEmpty then none
  else some (ds.foldl (fun n c => n * 10 + (c.toNat - 48)) 0, cs.drop ds.length)

/-- A year: up to four digits, or a sign and any number of digits. -/
def year? (cs : List Char) : Option (Int × List Char) :=
  match cs with
  | '-' :: rest => (number? rest.length rest).map fun (n, rest) => (-(n : Int), rest)
  | '+' :: rest => (number? rest.length rest).map fun (n, rest) => ((n : Int), rest)
  | cs => (number? 4 cs).map fun (n, rest) => ((n : Int), rest)

/-- The text after one character, with blanks before it. -/
def mark? (c : Char) (cs : List Char) : Option (List Char) :=
  match skip cs with
  | d :: rest => if d = c then some rest else none
  | [] => none

/-- A date. -/
def date? (cs : List Char) : Option (Date × List Char) := do
  let (year, cs) ← year? (skip cs)
  let cs ← mark? '-' cs
  let (month, cs) ← number? 2 (skip cs)
  let cs ← mark? '-' cs
  let (day, cs) ← number? 2 (skip cs)
  let date : Date := { year, month, day }
  if date.isValid then some (date, cs) else none

/-- The nanoseconds that up to nine decimal places stand for; later digits are dropped. -/
def fraction? (cs : List Char) : Option (Nat × List Char) :=
  match cs with
  | '.' :: rest =>
    let ds := (rest.takeWhile Char.isDigit).take 9
    if ds.isEmpty then none
    else
      let n := ds.foldl (fun n c => n * 10 + (c.toNat - 48)) 0
      some (n * Nat.pow 10 (9 - ds.length), rest.dropWhile Char.isDigit)
  | cs => some (0, cs)

/-- A time of day: its second, and nanoseconds from 10^9 on in a leap second. -/
def time? (cs : List Char) : Option ((Nat × Nat) × List Char) := do
  let (hour, cs) ← number? 2 (skip cs)
  let cs ← mark? ':' cs
  let (minute, cs) ← number? 2 (skip cs)
  let cs ← mark? ':' cs
  let (second, cs) ← number? 2 (skip cs)
  let (nanos, cs) ← fraction? cs
  if hour < 24 ∧ minute < 60 ∧ second ≤ 60 then
    if second = 60 then some ((hour * 3600 + minute * 60 + 59, 1000000000 + nanos), cs)
    else some ((hour * 3600 + minute * 60 + second, nanos), cs)
  else none

/-- A number of exactly two digits, the first of them at most `first`. -/
def twoDigits? (first : Char) (cs : List Char) : Option (Nat × List Char) :=
  match cs with
  | a :: b :: rest =>
    if a.isDigit ∧ a ≤ first ∧ b.isDigit then
      some ((a.toNat - 48) * 10 + (b.toNat - 48), rest)
    else none
  | _ => none

/-- Hours and minutes of an offset, in seconds. -/
def offsetSize? (cs : List Char) : Option (Nat × List Char) := do
  let (hours, cs) ← twoDigits? '9' cs
  let (minutes, cs) ← twoDigits? '5' (cs.dropWhile fun c => c == ':' || Text.isBlank c)
  if hours < 24 then some (hours * 3600 + minutes * 60, cs) else none

/-- An offset from UTC, in seconds. -/
def offset? (cs : List Char) : Option (Int × List Char) :=
  if (cs.take 3).map Char.toLower = ['u', 't', 'c'] then some (0, cs.drop 3)
  else
    match cs with
    | 'Z' :: rest => some (0, rest)
    | 'z' :: rest => some (0, rest)
    | '+' :: rest => (offsetSize? rest).map fun (n, rest) => ((n : Int), rest)
    | '-' :: rest => (offsetSize? rest).map fun (n, rest) => (-(n : Int), rest)
    | '\u2212' :: rest => (offsetSize? rest).map fun (n, rest) => (-(n : Int), rest)
    | _ => none

/-- Does the character stand between date and time? -/
def isSeparator (c : Char) : Bool :=
  c = 'T' || c = 't' || c = ' '

/-- Read an instant; nothing but blanks may follow it. -/
def parseChars? (cs : List Char) : Option Instant := do
  let (date, cs) ← date? cs
  let cs ←
    match cs with
    | c :: rest => if isSeparator c then some rest else none
    | [] => none
  let ((second, nanos), cs) ← time? cs
  let (offset, cs) ← offset? (skip cs)
  if (skip cs).isEmpty then
    if h : nanos < 2000000000 then
      let wall := date.toDays * 86400 + second
      let t : Instant := { seconds := wall - offset, nanos, nanos_lt := h }
      let here : Instant := { seconds := wall, nanos, nanos_lt := h }
      if t.inRange && here.inRange then some t else none
    else none
  else none

end Rfc3339

namespace Instant

/-- Read an instant in any of the forms the reader takes. -/
def parse? (s : String) : Option Instant :=
  Rfc3339.parseChars? s.toList

def toJson (t : Instant) : Json :=
  .str t.render

def ofJson : Json → Decode.Result Instant
  | .str s => (parse? s).elim (.error (.unreadable "no date and time")) .ok
  | v => .error (.mismatch v.describe "a date and time")

end Instant

end BalanceLedger.Time
