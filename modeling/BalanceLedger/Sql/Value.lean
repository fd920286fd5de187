/-
# `Sql.Value` — values on the wire of a database

The values that are bound to statements and that come back in rows, each with its
type.  The database keeps times to the microsecond, so a time that is bound or
comes back loses what is finer, towards the start of the year 2000 from which the
database counts.

A result is a list of rows, and a row is a list of named values.  Values are taken
out of a row by name, or by place where a statement returns few of them; the
readers check the type and refuse an absent value unless it is asked for as
optional.
-/
import BalanceLedger.Json.Equality
import BalanceLedger.Json.Parser
import BalanceLedger.Json.Printer
import BalanceLedger.Time.Rfc3339
import BalanceLedger.Uuid

namespace BalanceLedger.Sql

open Time (Instant)

/-- The type of a column. -/
inductive Value.Kind where
  | uuid
  | text
  | int8
  | int4
  | bool
  | time
  | json
deriving DecidableEq, Repr

def Value.Kind.name : Value.Kind → String
  | uuid => "UUID"
  | text => "VARCHAR"
  | int8 => "INT8"
  | int4 => "INT4"
  | bool => "BOOL"
  | time => "TIMESTAMPTZ"
  | json => "JSONB"

/-- The type that a reader asks for; texts of every length are read as one type. -/
def Value.Kind.asked : Value.Kind → String
  | text => "TEXT"
  | kind => kind.name

/-- What holds a value of a type once it is read, as messages call it. -/
def Value.Kind.holder : Value.Kind → String
  | uuid => "Uuid"
  | text => "alloc::string::String"
  | int8 => "i64"
  | int4 => "i32"
  | bool => "bool"
  | time => "Instant"
  | json => "Json"

/-- Why a statement, or the reading of its result, fails. -/
inductive DatabaseError where
  /-- The database answers with an error. -/
  | server (code message : String) (constraint : Option String)
  | noRow
  | noColumn (name : String)
  | noPlace (place columns : Nat)
  /-- A value that has to be there is absent. -/
  | absent (column : String)
  /-- A value is of another type. -/
  | mismatch (column : String) (expected found : Value.Kind)
deriving DecidableEq, Repr

namespace DatabaseError

def message : DatabaseError → String
  | server _ message _ => "error returned from database: " ++ message
  | noRow => "no rows returned by a query that expected to return at least one row"
  | noColumn name => "no column found for name: " ++ name
  | noPlace place columns =>
    "column index out of bounds: the len is " ++ toString columns ++ ", but the index is " ++
      toString place
  | absent column =>
    "error occurred while decoding column " ++ column ++
      ": unexpected null; try decoding as an `Option`"
  | mismatch column expected found =>
    "error occurred while decoding column " ++ column ++ ": mismatched types; Rust type `" ++
      expected.holder ++ "` (as SQL type `" ++ expected.asked ++
      "`) is not compatible with SQL type `" ++ found.name ++ "`"

/-- The code of a row that would repeat a unique value. -/
def uniqueViolation : String := "23505"

/-- The unique constraint that is violated. -/
def violated? : DatabaseError → Option String
  | server code _ constraint => if code = uniqueViolation then constraint else none
  | _ => none

end DatabaseError

/-- A value of the database. -/
inductive Value where
  | null
  | uuid (u : Uuid)
  | text (s : String)
  | int8 (n : Int64)
  | int4 (n : Int32)
  | bool (b : Bool)
  | time (t : Instant)
  | json (v : Json)
deriving DecidableEq

namespace Value

def ofOption {α : Type} (value : α → Value) : Option α → Value
  | none => null
  | some a => value a

/-- The instant from which the database counts: the start of the year 2000. -/
def wireEpoch : Int := 946684800 * 1000000000

/-- An instant as the database keeps it: whole microseconds, counted from `wireEpoch`. -/
def wireTime (t : Instant) : Instant :=
  .ofNanos (wireEpoch + Int.tdiv (t.toNanos - wireEpoch) 1000 * 1000)

/-- A JSON value as it reaches the database or comes back from it: it travels as text, so a double
is written and read once more. -/
def wireJson (v : Json) : Json :=
  (Json.parse v.render).getD v

/-- The type of a value that is not absent. -/
def kind? : Value → Option Kind
  | null => none
  | uuid _ => some .uuid
  | text _ => some .text
  | int8 _ => some .int8
  | int4 _ => some .int4
  | bool _ => some .bool
  | time _ => some .time
  | json _ => some .json

/-- A value of a column, from JSON; `null` is absent, except in a column of JSON values. -/
def ofJson : Kind → Json → Decode.Result Value
  | .json, v => .ok (.json (wireJson v))
  | _, .null => .ok .null
  | .uuid, v => (Uuid.ofJson v).map .uuid
  | .text, v => (Decode.text v).map .text
  | .int8, v => (Decode.int64 v).map .int8
  | .int4, v => (Decode.int32 v).map .int4
  | .bool, v => (Decode.bool v).map .bool
  | .time, v => (Instant.ofJson v).map (.time <| wireTime ·)

/-- The form in which a bound value is shown. -/
def toJson : Value → Json
  | null => .null
  | uuid u => u.toJson
  | text s => .str s
  | int8 n => .int64 n
  | int4 n => .int32 n
  | bool b => .bool b
  | time t => (wireTime t).toJson
  | json v => wireJson v

end Value

/-! ## Rows -/

/-- A row of a result. -/
abbrev Row := List (String × Value)

/-- What a statement answers. -/
structure Outcome where
  rows : List Row := []
  affected : Nat
deriving DecidableEq

/-- Outcome of reading a result. -/
abbrev Reading (α : Type) := Except DatabaseError α

/-- A reader of values of one type. -/
structure Column (α : Type) where
  kind : Value.Kind
  read : Value → Option α

namespace Column

def uuid : Column Uuid where
  kind := .uuid
  read
    | .uuid u => some u
    | _ => none

def text : Column String where
  kind := .text
  read
    | .text s => some s
    | _ => none

def int8 : Column Int64 where
  kind := .int8
  read
    | .int8 n => some n
    | _ => none

def int4 : Column Int32 where
  kind := .int4
  read
    | .int4 n => some n
    | _ => none

def bool : Column Bool where
  kind := .bool
  read
    | .bool b => some b
    | _ => none

def time : Column Instant where
  kind := .time
  read
    | .time t => some t
    | _ => none

def json : Column Json where
  kind := .json
  read
    | .json v => some v
    | _ => none

def optional {α : Type} (column : Column α) : Column (Option α) where
  kind := column.kind
  read
    | .null => some none
    | v => (column.read v).map some

end Column

namespace Row

/-- Read a value of a column, which messages call by `label`. -/
def value {α : Type} (label : String) (column : Column α) (v : Value) : Reading α :=
  match column.read v, v.kind? with
  | some a, _ => .ok a
  | none, none => .error (.absent label)
  | none, some found => .error (.mismatch label column.kind found)

def named {α : Type} (row : Row) (name : String) (column : Column α) : Reading α :=
  match row.reverse.lookup name with
  | none => .error (.noColumn name)
  | some v => value (Text.quote name) column v

def placed {α : Type} (row : Row) (place : Nat) (column : Column α) : Reading α :=
  match row[place]? with
  | none => .error (.noPlace place row.length)
  | some (_, v) => value (toString place) column v

end Row

namespace Outcome

def all {α : Type} (o : Outcome) (read : Row → Reading α) : Reading (List α) :=
  o.rows.mapM read

/-- The first row, if there is one. -/
def first? {α : Type} (o : Outcome) (read : Row → Reading α) : Reading (Option α) :=
  match o.rows with
  | [] => .ok none
  | row :: _ => (read row).map some

def first {α : Type} (o : Outcome) (read : Row → Reading α) : Reading α :=
  match o.rows with
  | [] => .error .noRow
  | row :: _ => read row

end Outcome

end BalanceLedger.Sql
