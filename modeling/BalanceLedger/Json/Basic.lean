/-
# `Json.Basic` — JSON values

The values of the wire format.  A number written as an integer that fits a
machine word is kept as that integer; any other number is kept as a double and is
never mistaken for an integer.  The members of an object have distinct
names; their order carries no meaning.
-/
import BalanceLedger.Json.Double

namespace BalanceLedger

/-- A JSON value. -/
inductive Json where
  | null
  | bool (b : Bool)
  | int (n : Int)
  | double (x : Double)
  | str (s : String)
  | arr (items : List Json)
  | obj (members : List (String × Json))
deriving Inhabited

namespace Json

/-- The member of that name, in the list of an object's members. -/
def member? (name : String) : List (String × Json) → Option Json
  | [] => none
  | (key, value) :: rest => if key = name then some value else member? name rest

/-- Give a member its value, replacing an earlier one of the same name. -/
def setMember (name : String) (value : Json) : List (String × Json) → List (String × Json)
  | [] => [(name, value)]
  | (key, old) :: rest =>
    if key = name then (name, value) :: rest else (key, old) :: setMember name value rest

/-- The value of a member; `null` where there is none. -/
def field (v : Json) (name : String) : Json :=
  match v with
  | .obj members => (member? name members).getD .null
  | _ => .null

def members : Json → List (String × Json)
  | .obj ms => ms
  | _ => []

def items : Json → List Json
  | .arr xs => xs
  | _ => []

def isNull : Json → Bool
  | .null => true
  | _ => false

def asText? : Json → Option String
  | .str s => some s
  | _ => none

/-- The number of a JSON number that is a natural one. -/
def asNat? : Json → Option Nat
  | .int n => if 0 ≤ n then some n.toNat else none
  | _ => none

/-- A text, or `null`. -/
def text? : Option String → Json
  | none => .null
  | some s => .str s

def int64 (n : Int64) : Json :=
  .int n.toInt

def int32 (n : Int32) : Json :=
  .int n.toInt

def nat (n : Nat) : Json :=
  .int n

end Json

end BalanceLedger
