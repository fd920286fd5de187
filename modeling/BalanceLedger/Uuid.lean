/-
# `Uuid` — universally unique identifiers

An identifier is a 128-bit number.  It is written with thirty-two lower-case
hexadecimal digits in groups of 8, 4, 4, 4 and 12.  It is read in that form, as
the bare digits, between braces, or after `urn:uuid:`; the case of letters does
not matter.
-/
import BalanceLedger.Json.Decode

namespace BalanceLedger

/-- A universally unique identifier. -/
structure Uuid where
  val : BitVec 128
deriving DecidableEq, Repr

namespace Uuid

/-- The identifier of a number, taken modulo 2^128. -/
def ofNat (n : Nat) : Uuid :=
  ⟨BitVec.ofNat 128 n⟩

def toNat (u : Uuid) : Nat :=
  u.val.toNat

def nil : Uuid :=
  ofNat 0

/-- Identifiers are ordered as numbers. -/
def le (a b : Uuid) : Bool :=
  a.toNat ≤ b.toNat

/-- The last `count` hexadecimal digits of a number. -/
def hexDigits : (count n : Nat) → List Char
  | 0, _ => []
  | count + 1, n => hexDigits count (n / 16) ++ [Nat.digitChar (n % 16)]

def groupSizes : List Nat := [8, 4, 4, 4, 12]

/-- Cut a list into groups of the given sizes, with a hyphen between them. -/
def hyphenate : List Nat → List Char → List Char
  | [], cs => cs
  | [_], cs => cs
  | size :: sizes, cs => cs.take size ++ '-' :: hyphenate sizes (cs.drop size)

/-- The characters of the written form. -/
def toChars (u : Uuid) : List Char :=
  hyphenate groupSizes (hexDigits 32 u.toNat)

def render (u : Uuid) : String :=
  String.ofList u.toChars

instance : ToString Uuid := ⟨render⟩

/-- The value of a hexadecimal digit, in either case. -/
def digit? (c : Char) : Option Nat :=
  if '0' ≤ c ∧ c ≤ '9' then some (c.toNat - 48)
  else if 'a' ≤ c ∧ c ≤ 'f' then some (c.toNat - 87)
  else if 'A' ≤ c ∧ c ≤ 'F' then some (c.toNat - 55)
  else none

/-- The number thirty-two hexadecimal digits stand for. -/
def ofDigits? (cs : List Char) : Option Uuid :=
  if cs.length = 32 then
    (cs.mapM digit?).map fun ds => ofNat (ds.foldl (fun n d => n * 16 + d) 0)
  else none

/-- Take the hyphens out from between groups of the given sizes. -/
def dehyphenate? : List Nat → List Char → Option (List Char)
  | [], [] => some []
  | [size], cs => if cs.length = size then some cs else none
  | size :: sizes, cs =>
    match cs.drop size with
    | '-' :: rest => (dehyphenate? sizes rest).map (cs.take size ++ ·)
    | _ => none
  | _, _ => none

/-- Read the form with hyphens. -/
def ofHyphenated? (cs : List Char) : Option Uuid :=
  (dehyphenate? groupSizes cs).bind ofDigits?

/-- The mark of the name-space form. -/
def urnMark : List Char := "urn:uuid:".toList

/-- Read any of the four forms. -/
def ofChars? (cs : List Char) : Option Uuid :=
  match cs.length with
  | 32 => ofDigits? cs
  | 36 => ofHyphenated? cs
  | 38 =>
    if cs.head? = some '\x7b' ∧ cs.getLast? = some '\x7d' then
      ofHyphenated? (cs.tail.take 36)
    else none
  | 45 =>
    if (cs.take 9).map Char.toLower = urnMark then ofHyphenated? (cs.drop 9) else none
  | _ => none

/-- Read any of the four forms: bare digits, the form with hyphens, braces around it, or `urnMark`
before it. -/
def parse? (s : String) : Option Uuid :=
  ofChars? s.toList

/-! ## Faults -/

/-- Why characters are none of the four forms. -/
inductive Fault where
  /-- A character that is neither a digit nor a hyphen. -/
  | strayCharacter (c : Char) (place : Nat)
  /-- More bytes than the longest form has, or digits alone of a number that no form has. -/
  | length (found : Nat)
  | groupCount (found : Nat)
  | groupLength (group expected found : Nat)
deriving DecidableEq, Repr

def Fault.message : Fault → String
  | strayCharacter c place =>
    "invalid character: found `" ++ String.singleton c ++ "` at " ++ toString place
  | length found => "invalid length: found " ++ toString found
  | groupCount found => "invalid group count: expected 5, found " ++ toString found
  | groupLength group expected found =>
    "invalid group length in group " ++ toString group ++ ": expected " ++ toString expected ++
      ", found " ++ toString found

/-- What a fault is looked for in. -/
structure Suspect where
  /-- The characters that should be digits and hyphens. -/
  inner : List Char
  /-- The place from which they are counted. -/
  offset : Nat
  /-- Can they be meant as digits alone? -/
  digitsAlone : Bool

def longest : Nat := 45

/-- What a fault of characters of that many bytes is looked for in.  Bytes as many as a form with
hyphens has are taken for that form and nothing else, and places are counted within its digits and
hyphens; otherwise braces or the mark of the name-space form come off, and places are counted from
where the text starts. -/
def suspect (size : Nat) (cs : List Char) : Suspect :=
  let braced := cs.head? = some '\x7b' ∧ cs.getLast? = some '\x7d' ∧ 2 ≤ cs.length
  let marked := (cs.take 9).map Char.toLower = urnMark
  if size = 36 then ⟨cs, 0, false⟩
  else if braced then ⟨cs.tail.dropLast, if size = 38 then 0 else 1, false⟩
  else if marked then ⟨cs.drop 9, if size = 45 then 0 else 9, false⟩
  else ⟨cs, 0, true⟩

/-- The first group whose length is wrong, from the lengths that groups should have and have. -/
def wrongGroup? : (group : Nat) → (sizes lengths : List Nat) → Option Fault
  | group, size :: sizes, length :: lengths =>
    if length = size then wrongGroup? (group + 1) sizes lengths
    else some (.groupLength group size length)
  | _, _, _ => none

/-- Why characters are none of the four forms: too many bytes before a stray character, and a
stray character before groups that are too few, too many or of a wrong length.  The last group
counts as all bytes behind the other groups of the bare form. -/
def fault (cs : List Char) : Fault :=
  let size := cs.foldl (fun n c => n + c.utf8Size) 0
  let s := suspect size cs
  if longest < size then .length size
  else
    match s.inner.findIdx? fun c => c != '-' && (digit? c).isNone with
    | some i => .strayCharacter (s.inner.getD i '-') (s.offset + i)
    | none =>
      let lengths := (s.inner.splitOn '-').map List.length
      if lengths.length = 1 ∧ s.digitsAlone then .length size
      else if lengths.length ≠ 5 then .groupCount lengths.length
      else (wrongGroup? 0 groupSizes (lengths.take 4 ++ [size - 24])).getD (.length size)

def toJson (u : Uuid) : Json :=
  .str u.render

def ofJson : Json → Decode.Result Uuid
  | .str s =>
    match parse? s with
    | some u => .ok u
    | none => .error (.unreadable ("UUID parsing failed: " ++ (fault s.toList).message))
  | v => .error (.mismatch v.describe "a formatted UUID string")

end Uuid

end BalanceLedger
