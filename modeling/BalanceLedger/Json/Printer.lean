/-
# `Json.Printer` — writing JSON text

Compact JSON on one line.  Quotes, backslashes and control characters in texts
are escaped, by a letter where JSON has one (`\b`, `\f`, `\n`, `\r`, `\t`) and else
by their number; every other character is written as it is.  A double is written
in the fewest digits.
-/
import BalanceLedger.Json.Basic
import BalanceLedger.Json.Shortest

namespace BalanceLedger.Json

/-- Two lower-case hexadecimal digits. -/
def hexPair (n : Nat) : List Char :=
  [Nat.digitChar (n / 16 % 16), Nat.digitChar (n % 16)]

/-- One character as it is written in a text: `hexPair` spells the control characters that have no
letter. -/
def writeChar (c : Char) : List Char :=
  match c with
  | '"' => ['\\', '"']
  | '\\' => ['\\', '\\']
  | '\n' => ['\\', 'n']
  | '\r' => ['\\', 'r']
  | '\t' => ['\\', 't']
  | '\x08' => ['\\', 'b']
  | '\x0c' => ['\\', 'f']
  | c => if c.toNat < 0x20 then ['\\', 'u', '0', '0'] ++ hexPair c.toNat else [c]

/-- A text between quotes. -/
def writeText (s : String) : String :=
  String.ofList ('"' :: (s.toList.flatMap writeChar ++ ['"']))

mutual

/-- Write a value after the text written so far. -/
def write (out : String) : Json → String
  | .null => out ++ "null"
  | .bool true => out ++ "true"
  | .bool false => out ++ "false"
  | .int n => out ++ toString n
  | .double x => out ++ x.render
  | .str s => out ++ writeText s
  | .arr items => writeItems (out.push '[') true items
  | .obj members => writeMembers (out.push '\x7b') true members

/-- Write the rest of an array; `first` says that no item came before. -/
def writeItems (out : String) (first : Bool) : List Json → String
  | [] => out.push ']'
  | v :: rest => writeItems (write (if first then out else out.push ',') v) false rest

/-- Write the rest of an object; `first` says that no member came before. -/
def writeMembers (out : String) (first : Bool) : List (String × Json) → String
  | [] => out.push '\x7d'
  | (name, v) :: rest =>
    writeMembers (write ((if first then out else out.push ',') ++ writeText name ++ ":") v) false rest

end

def render (v : Json) : String :=
  write "" v

end BalanceLedger.Json
