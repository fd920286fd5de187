/-
# `Text.Quoted` — a text between double quotes

Messages and log fields that repeat a text from outside put it between double
quotes.  Quotes and backslashes are escaped, the usual controls have a letter,
and every other character that is not shown as it is becomes its code point in
lower-case hexadecimal.  An apostrophe stays as it is.
-/
import BalanceLedger.Text.Visible

namespace BalanceLedger.Text

/-- The code point of a character as it is written inside quotes. -/
def codePoint (c : Char) : List Char :=
  ['\\', 'u', '\x7b'] ++ Nat.toDigits 16 c.toNat ++ ['\x7d']

/-- One character as it is written inside quotes. -/
def quoteChar (c : Char) : List Char :=
  match c with
  | '"' => ['\\', '"']
  | '\\' => ['\\', '\\']
  | '\n' => ['\\', 'n']
  | '\r' => ['\\', 'r']
  | '\t' => ['\\', 't']
  | '\x00' => ['\\', '0']
  | c => if isVisible c then [c] else codePoint c

def quote (s : String) : String :=
  String.ofList ('"' :: (s.toList.flatMap quoteChar ++ ['"']))

end BalanceLedger.Text
