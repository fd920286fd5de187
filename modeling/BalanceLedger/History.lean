/-
# `History` — the entries of an account, page by page

A query selects the entries of an account, by currency, side and an inclusive
range of dates where these are given, and one page of them.  Pages have from 1 to
`maxPageSize` entries.
-/
import BalanceLedger.Entry

namespace BalanceLedger

open Time (Instant)

/-- How many entries a page has unless the caller says. -/
def defaultPageSize : Nat := 50

/-- The most entries a page can have. -/
def maxPageSize : Nat := 500

/-- A page: how many entries come before it, and how many it has at most. -/
structure Page where
  skip : Nat
  take : Nat
  take_pos : 1 ≤ take
  take_le : take ≤ maxPageSize
deriving DecidableEq, Repr

namespace Page

def first : Page where
  skip := 0
  take := defaultPageSize
  take_pos := by decide
  take_le := by decide

/-- The page nearest to what the caller asks. -/
def clamp (skip take : Int64) : Page where
  skip := skip.toInt.toNat
  take := max 1 (min take.toInt.toNat maxPageSize)
  take_pos := Nat.le_max_left ..
  take_le := Nat.max_le.mpr ⟨by decide, Nat.min_le_right ..⟩

/-- Cut the page out of a list. -/
def cut {α : Type} (p : Page) (xs : List α) : List α :=
  (xs.drop p.skip).take p.take

/-- The wire form: what is skipped, and what is taken. -/
def toJson (p : Page) : Json :=
  .arr [.nat p.skip, .nat p.take]

end Page

/-- Which entries of an account are asked for. -/
structure HistoryQuery where
  account : Uuid
  currency : Option Currency := none
  side : Option Side := none
  /-- The earliest date asked for. -/
  since : Option Instant := none
  /-- The latest date asked for. -/
  upTo : Option Instant := none
  page : Page := .first
deriving DecidableEq, Repr

namespace HistoryQuery

/-- Is the entry one of those asked for? -/
def selects (q : HistoryQuery) (e : Entry) : Bool :=
  e.account = q.account &&
    q.currency.all (· = e.currency) &&
    q.side.all (· = e.side) &&
    q.since.all (fun t => decide (t ≤ e.date)) &&
    q.upTo.all (fun t => decide (e.date ≤ t))

end HistoryQuery

/-- A page of entries, newest first. -/
structure HistoryPage where
  entries : List Entry
  /-- How many entries the query selects on all pages. -/
  total : Int64
deriving DecidableEq, Repr

namespace HistoryPage

def toJson (p : HistoryPage) : Json :=
  .obj [("entries", .arr (p.entries.map Entry.toJson)), ("total_count", .int64 p.total)]

/-- The page in brief: which entries it has, and their effect on balances. -/
def toBriefJson (p : HistoryPage) : Json :=
  .obj
    [("ids", .arr (p.entries.map fun e => e.id.toJson)),
      ("signed_sum", .int64 (p.entries.foldl (fun n e => n + e.signedAmount) 0)),
      ("total_count", .int64 p.total)]

end HistoryPage

end BalanceLedger
