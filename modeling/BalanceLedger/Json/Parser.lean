/-
# `Json.Parser` — reading JSON text

`Json.parse` accepts exactly one value with blanks around it.  A later member of
an object replaces an earlier one of the same name.  Refused are: control
characters and lone surrogates in texts, numbers outside the range of a double,
and values nested more than 127 deep.

The reader of values counts down a fuel that `parse` takes from the length of
the text, so no text runs out of it: every step of the reader consumes a
character.
-/
import BalanceLedger.Json.Basic

namespace BalanceLedger.Json.Parser

/-- Blanks between tokens: space, tab and the two line ends. -/
def isGap (c : Char) : Bool :=
  c = ' ' || c = '\t' || c = '\n' || c = '\r'

/-- The text from its first token on. -/
def skip (cs : List Char) : List Char :=
  cs.dropWhile isGap

/-- The value of a hexadecimal digit, in either case. -/
def hexDigit? (c : Char) : Option Nat :=
  if '0' ≤ c ∧ c ≤ '9' then some (c.toNat - 48)
  else if 'a' ≤ c ∧ c ≤ 'f' then some (c.toNat - 87)
  else if 'A' ≤ c ∧ c ≤ 'F' then some (c.toNat - 55)
  else none

/-- Where the reader of a text stands. -/
inductive Mode where
  /-- Between characters. -/
  | plain
  /-- After a backslash. -/
  | escape
  /-- Inside `\uXXXX`: digits still to come, the value so far, and the high
  surrogate that came before, if any. -/
  | hex (left value : Nat) (high : Option Nat)
  /-- After a high surrogate, before the backslash of its partner. -/
  | partner (high : Nat)
  /-- After a high surrogate and a backslash, before the `u`. -/
  | partnerMark (high : Nat)

/-- The character a one-letter escape stands for. -/
def escape? (c : Char) : Option Char :=
  match c with
  | '"' => some '"'
  | '\\' => some '\\'
  | '/' => some '/'
  | 'b' => some '\x08'
  | 'f' => some '\x0c'
  | 'n' => some '\n'
  | 'r' => some '\r'
  | 't' => some '\t'
  | _ => none

/-- A complete `\uXXXX`: the next mode and the character it ends, if it ends one. -/
def codeUnit (value : Nat) (high : Option Nat) : Option (Mode × Option Char) :=
  let isHigh := 0xD800 ≤ value ∧ value ≤ 0xDBFF
  let isLow := 0xDC00 ≤ value ∧ value ≤ 0xDFFF
  match high with
  | some h =>
    if isLow then
      some (.plain, some (Char.ofNat (0x10000 + (h - 0xD800) * 0x400 + (value - 0xDC00))))
    else none
  | none =>
    if isHigh then some (.partner value, none)
    else if isLow then none
    else some (.plain, some (Char.ofNat value))

/-- Read a text after its opening quote; `acc` holds the characters read, last first. -/
def text : Mode → List Char → List Char → Option (String × List Char)
  | .plain, acc, '"' :: rest => some (String.ofList acc.reverse, rest)
  | .plain, acc, '\\' :: rest => text .escape acc rest
  | .plain, acc, c :: rest => if c.toNat < 0x20 then none else text .plain (c :: acc) rest
  | .escape, acc, 'u' :: rest => text (.hex 4 0 none) acc rest
  | .escape, acc, c :: rest =>
    match escape? c with
    | some d => text .plain (d :: acc) rest
    | none => none
  | .hex left value high, acc, c :: rest =>
    match hexDigit? c with
    | none => none
    | some d =>
      if left ≤ 1 then
        match codeUnit (value * 16 + d) high with
        | none => none
        | some (mode, none) => text mode acc rest
        | some (mode, some ch) => text mode (ch :: acc) rest
      else text (.hex (left - 1) (value * 16 + d) high) acc rest
  | .partner high, acc, '\\' :: rest => text (.partnerMark high) acc rest
  | .partnerMark high, acc, 'u' :: rest => text (.hex 4 0 (some high)) acc rest
  | _, _, _ => none

/-- The number a run of decimal digits stands for. -/
def digitsValue (cs : List Char) : Nat :=
  cs.foldl (fun n c => n * 10 + (c.toNat - 48)) 0

/-- An integer that fits a 64-bit word, signed or not; zero with a sign is no integer. -/
def wordInteger? (negative : Bool) (n : Nat) : Option Json :=
  if negative then
    if n = 0 ∨ -(n : Int) < Word.minInt64 then none else some (.int (-(n : Int)))
  else if n ≤ Word.maxNat64 then some (.int n)
  else none

/-- The optional exponent of a number: its value and the rest. -/
def exponentPart (cs : List Char) : Option (Option Int × List Char) :=
  match cs with
  | c :: rest =>
    if c = 'e' ∨ c = 'E' then
      let (negative, rest) :=
        match rest with
        | '-' :: r => (true, r)
        | '+' :: r => (false, r)
        | r => (false, r)
      let ds := rest.takeWhile Char.isDigit
      if ds.isEmpty then none
      else
        let n : Int := digitsValue ds
        some (some (if negative then -n else n), rest.dropWhile Char.isDigit)
    else some (none, cs)
  | [] => some (none, [])

/-- Read a number. -/
def number (cs : List Char) : Option (Json × List Char) :=
  let (negative, cs) :=
    match cs with
    | '-' :: r => (true, r)
    | r => (false, r)
  let whole := cs.takeWhile Char.isDigit
  let rest := cs.dropWhile Char.isDigit
  if whole.isEmpty || (whole.length > 1 && whole.head? == some '0') then none
  else
    let fraction? : Option (Option (List Char) × List Char) :=
      match rest with
      | '.' :: r =>
        let ds := r.takeWhile Char.isDigit
        if ds.isEmpty then none else some (some ds, r.dropWhile Char.isDigit)
      | r => some (none, r)
    match fraction? with
    | none => none
    | some (fraction, rest) =>
      match exponentPart rest with
      | none => none
      | some (exponent, rest) =>
        let ds := fraction.getD []
        let plain := fraction.isNone && exponent.isNone
        match if plain then wordInteger? negative (digitsValue whole) else none with
        | some n => some (n, rest)
        | none =>
          let digits := digitsValue (whole ++ ds)
          (Double.ofDecimal? digits (exponent.getD 0 - ds.length)).map fun x =>
            (.double { x with negative }, rest)

/-- The text after a keyword. -/
def after? : List Char → List Char → Option (List Char)
  | [], cs => some cs
  | k :: ks, c :: cs => if k = c then after? ks cs else none
  | _ :: _, [] => none

/-- Read a keyword that stands for `v`. -/
def keyword (word : String) (v : Json) (cs : List Char) : Option (Json × List Char) :=
  (after? word.toList cs).map fun rest => (v, rest)

mutual

/-- Read a value; `depth` levels of nesting are left. -/
def value : (fuel depth : Nat) → List Char → Option (Json × List Char)
  | 0, _, _ => none
  | fuel + 1, depth, cs =>
    match skip cs with
    | '"' :: rest => (text .plain [] rest).map fun (s, rest) => (.str s, rest)
    | '{' :: rest =>
      if depth = 0 then none
      else
        match skip rest with
        | '}' :: rest => some (.obj [], rest)
        | rest => members fuel (depth - 1) [] rest
    | '[' :: rest =>
      if depth = 0 then none
      else
        match skip rest with
        | ']' :: rest => some (.arr [], rest)
        | rest => items fuel (depth - 1) [] rest
    | 't' :: rest => keyword "true" (.bool true) ('t' :: rest)
    | 'f' :: rest => keyword "false" (.bool false) ('f' :: rest)
    | 'n' :: rest => keyword "null" .null ('n' :: rest)
    | rest => number rest

/-- Read the items of an array, the first of which is still to come. -/
def items : (fuel depth : Nat) → List Json → List Char → Option (Json × List Char)
  | 0, _, _, _ => none
  | fuel + 1, depth, acc, cs =>
    match value fuel depth cs with
    | none => none
    | some (v, rest) =>
      match skip rest with
      | ',' :: rest => items fuel depth (v :: acc) rest
      | ']' :: rest => some (.arr (v :: acc).reverse, rest)
      | _ => none

/-- Read the members of an object, the first of which is still to come. -/
def members : (fuel depth : Nat) → List (String × Json) → List Char → Option (Json × List Char)
  | 0, _, _, _ => none
  | fuel + 1, depth, acc, cs =>
    match skip cs with
    | '"' :: rest =>
      match text .plain [] rest with
      | none => none
      | some (name, rest) =>
        match skip rest with
        | ':' :: rest =>
          match value fuel depth rest with
          | none => none
          | some (v, rest) =>
            match skip rest with
            | ',' :: rest => members fuel depth (setMember name v acc) rest
            | '}' :: rest => some (.obj (setMember name v acc), rest)
            | _ => none
        | _ => none
    | _ => none

end

end BalanceLedger.Json.Parser

namespace BalanceLedger.Json

/-- How deep arrays and objects may be nested. -/
def maxDepth : Nat := 127

/-- The value a text stands for, if it is JSON and nested no deeper than `maxDepth`. -/
def parse (s : String) : Option Json :=
  let cs := s.toList
  match Parser.value (2 * cs.length + 2) maxDepth cs with
  | some (v, rest) => if (Parser.skip rest).isEmpty then some v else none
  | none => none

end BalanceLedger.Json
