/-
# `Json.Decode` — reading typed values out of JSON

A record is read from an object or from an array of exactly its fields in
declaration order.  Members with unknown names are ignored; an optional field
that is missing or `null` is absent; every other field is required.

Several fields of one record can be at fault at once.  In an object the fault of
the member with the least name is reported, and a missing member only when no
member that is there is at fault; in an array the first item at fault is.  A
reader of fields (`Fields`) therefore reads every field and keeps the fault of
the earliest place.

The message of a fault names what was found and what was expected; a text that
was found is quoted, and a number that is no integer is shown as a double.
-/
import BalanceLedger.Json.Basic
import BalanceLedger.Json.Shortest
import BalanceLedger.Text.Quoted
import BalanceLedger.Word

namespace BalanceLedger

/-- What a value is, in the words of a message. -/
def Json.describe : Json → String
  | .null => "null"
  | .bool b => "boolean `" ++ toString b ++ "`"
  | .int n => "integer `" ++ toString n ++ "`"
  | .double x => "floating point `" ++ x.render ++ "`"
  | .str s => "string " ++ Text.quote s
  | .arr _ => "sequence"
  | .obj _ => "map"

/-- Why a JSON value is not of a type. -/
inductive DecodeError where
  /-- The value is of another type. -/
  | mismatch (found expected : String)
  /-- The value is a number outside the range of the type. -/
  | outOfRange (found expected : String)
  | wrongLength (length : Nat) (expected : String)
  | missing (name : String)
  /-- The value is a text that does not stand for one of the type. -/
  | unreadable (reason : String)
  /-- The value has the right form, but the type refuses it and says why. -/
  | refused (reason : String)
deriving DecidableEq, Repr

namespace DecodeError

def message : DecodeError → String
  | mismatch found expected => "invalid type: " ++ found ++ ", expected " ++ expected
  | outOfRange found expected => "invalid value: " ++ found ++ ", expected " ++ expected
  | wrongLength length expected =>
    "invalid length " ++ toString length ++ ", expected " ++ expected
  | missing name => "missing field `" ++ name ++ "`"
  | unreadable reason => reason
  | refused reason => reason

/-- Why a type refuses a value of the right form. -/
def refusal? : DecodeError → Option String
  | refused reason => some reason
  | _ => none

end DecodeError

namespace Decode

/-- Outcome of reading a typed value. -/
abbrev Result (α : Type) := Except DecodeError α

def text : Json → Result String
  | .str s => .ok s
  | v => .error (.mismatch v.describe "a string")

def bool : Json → Result Bool
  | .bool b => .ok b
  | v => .error (.mismatch v.describe "a boolean")

/-- An integer from `low` to `high`, both included. -/
def integer (type : String) (low high : Int) : Json → Result Int
  | .int n =>
    if low ≤ n ∧ n ≤ high then .ok n else .error (.outOfRange (Json.int n).describe type)
  | v => .error (.mismatch v.describe type)

def int64 (v : Json) : Result Int64 :=
  (integer "i64" Word.minInt64 Word.maxInt64 v).map Int64.ofInt

def int32 (v : Json) : Result Int32 :=
  (integer "i32" Word.minInt32 Word.maxInt32 v).map Int32.ofInt

def nat32 (v : Json) : Result Nat :=
  (integer "u32" 0 Word.maxNat32 v).map Int.toNat

/-- A list, item by item; the first item at fault is reported. -/
def list {α : Type} (item : Json → Result α) : Json → Result (List α)
  | .arr items => items.mapM item
  | v => .error (.mismatch v.describe "a sequence")

/-- An optional value: `null` is absence. -/
def option {α : Type} (item : Json → Result α) : Json → Result (Option α)
  | .null => .ok none
  | v => (item v).map some

/-- One of a few named values, as its name or as an object with that one member set to `null`. -/
def named {α : Type} (values : List (String × α)) : Json → Result α
  | .str s => find s
  | .obj [(s, .null)] => find s
  | v => .error (.mismatch v.describe "string or map")
where
  /-- The value of a name. -/
  find (s : String) : Result α :=
    (values.lookup s).elim (.error (.unreadable ("unknown variant `" ++ s ++ "`"))) .ok

/-- A value built from a text by a function that may refuse it with a reason. -/
def parsed {α : Type} (build : String → Except String α) (v : Json) : Result α :=
  (text v).bind fun s => (build s).mapError .refused

/-! ## Records -/

/-- Where in a record a fault lies. -/
inductive Place where
  | member (name : String)
  | item (index : Nat)
  | missing
deriving DecidableEq, Repr

/-- Is the first place reported before the second? -/
def Place.before : Place → Place → Bool
  | .member a, .member b => decide (a < b)
  | .item i, .item j => decide (i < j)
  | .missing, _ => false
  | _, .missing => true
  | .member _, .item _ => true
  | .item _, .member _ => false

/-- A fault and its place. -/
structure Fault where
  place : Place
  error : DecodeError
deriving DecidableEq, Repr

/-- What a record is read from. -/
inductive Source where
  | members (ms : List (String × Json))
  | items (xs : List Json)

/-- A reader of `size` consecutive fields; `read` gets the index of the first of them. -/
structure Fields (α : Type) where
  size : Nat
  read : Source → Nat → Except Fault α

namespace Fields

variable {α β : Type}

protected def pure (a : α) : Fields α :=
  ⟨0, fun _ _ => .ok a⟩

/-- One group of fields after another; of two faults the one at the earlier `Place` is kept. -/
protected def seq (f : Fields (α → β)) (x : Fields α) : Fields β where
  size := f.size + x.size
  read source i :=
    match f.read source i, x.read source (i + f.size) with
    | .ok g, .ok a => .ok (g a)
    | .error e, .ok _ => .error e
    | .ok _, .error e => .error e
    | .error e, .error e' => .error (if e'.place.before e.place then e' else e)

instance : Applicative Fields where
  pure := Fields.pure
  seq f x := f.seq (x ())

/-- A required field. -/
def required (name : String) (item : Json → Result α) : Fields α where
  size := 1
  read source i :=
    match source with
    | .members ms =>
      match Json.member? name ms with
      | some v => (item v).mapError (Fault.mk (.member name))
      | none => .error ⟨.missing, .missing name⟩
    | .items xs =>
      match xs[i]? with
      | some v => (item v).mapError (Fault.mk (.item i))
      | none => .error ⟨.item i, .missing name⟩

/-- An optional field; in an array its place has to be filled. -/
def optional (name : String) (item : Json → Result α) : Fields (Option α) where
  size := 1
  read source i :=
    match source with
    | .members ms =>
      match Json.member? name ms with
      | some v => (option item v).mapError (Fault.mk (.member name))
      | none => .ok none
    | .items xs =>
      match xs[i]? with
      | some v => (option item v).mapError (Fault.mk (.item i))
      | none => .error ⟨.item i, .missing name⟩

/-- Read a record of that name from an object, or from an array of exactly its `Fields`. -/
def decode (f : Fields α) (name : String) : Json → Result α
  | .obj ms => (f.read (.members ms) 0).mapError Fault.error
  | .arr xs =>
    match f.read (.items xs) 0 with
    | .ok a =>
      if f.size < xs.length then .error (.wrongLength xs.length "fewer elements in array")
      else .ok a
    | .error ⟨_, .missing _⟩ =>
      .error (.wrongLength xs.length
        ("struct " ++ name ++ " with " ++ toString f.size ++
          (if f.size = 1 then " element" else " elements")))
    | .error e => .error e.error
  | v => .error (.mismatch v.describe ("struct " ++ name))

end Fields

end Decode

end BalanceLedger
