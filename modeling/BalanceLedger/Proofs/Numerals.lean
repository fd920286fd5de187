/-
# `Proofs.Numerals` — numbers in decimal are read as what they were written from

The writers take digits from the library and put zeros before them; the readers fold the
digits they find.  Where a run of digits ends is up to the reader: it takes the longest
run that there is, or a longest run of a given width.  So a numeral that is read out of
a text has to be followed by something that is no digit, which is `EndsNumeral`, or to
fill its width.

`number?_append` is the lemma for both, and `number?_paddedChars` its use for numbers
that are padded to their width, as the parts of dates are.  What digits stand for is
worked out by `digitsValue`, and `digitsValue_eq` makes a fold of the library of it, so
that the rest is known.
-/
import BalanceLedger.Json.Parser
import BalanceLedger.Time.Rfc3339
import Mathlib.Algebra.Group.Nat.Defs
import Mathlib.Data.List.Induction

namespace BalanceLedger

open Json.Parser (digitsValue)

/-- Every character is a digit. -/
def AllDigits (ds : List Char) : Prop :=
  ∀ c ∈ ds, c.isDigit = true

/-- The text does not begin with a digit. -/
def EndsNumeral (rest : List Char) : Prop :=
  ∀ c ∈ rest.head?, c.isDigit = false

namespace AllDigits

variable {ds es rest : List Char}

theorem append (hd : AllDigits ds) (he : AllDigits es) : AllDigits (ds ++ es) := by
  intro c hc
  rcases List.mem_append.mp hc with hc | hc
  · exact hd c hc
  · exact he c hc

theorem toDigits (n : Nat) : AllDigits (Nat.toDigits 10 n) :=
  fun _ => Nat.isDigit_of_mem_toDigits (by decide) (by decide)

theorem zeros (n : Nat) : AllDigits (List.replicate n '0') := by
  intro c hc
  rw [List.eq_of_mem_replicate hc]
  rfl

end AllDigits

namespace EndsNumeral

variable {ds rest : List Char}

theorem nil : EndsNumeral [] := by
  intro c hc
  simp at hc

theorem cons {c : Char} (hc : c.isDigit = false) (rest : List Char) :
    EndsNumeral (c :: rest) := by
  intro d hd
  rw [List.head?_cons, Option.mem_some_iff] at hd
  exact hd ▸ hc

theorem takeWhile_eq_nil (h : EndsNumeral rest) : rest.takeWhile Char.isDigit = [] := by
  cases rest with
  | nil => rfl
  | cons c rest => exact List.takeWhile_cons_of_neg (by rw [h c rfl]; exact Bool.false_ne_true)

theorem dropWhile_eq_self (h : EndsNumeral rest) : rest.dropWhile Char.isDigit = rest := by
  cases rest with
  | nil => rfl
  | cons c rest => exact List.dropWhile_cons_of_neg (by rw [h c rfl]; exact Bool.false_ne_true)

theorem take (h : EndsNumeral rest) (n : Nat) : EndsNumeral (rest.take n) := by
  intro c hc
  cases n with
  | zero => simp at hc
  | succ n =>
      refine h c ?_
      rwa [List.head?_take, if_neg (Nat.succ_ne_zero n)] at hc

theorem takeWhile_append (h : EndsNumeral rest) (hds : AllDigits ds) :
    (ds ++ rest).takeWhile Char.isDigit = ds := by
  rw [List.takeWhile_append_of_pos hds, h.takeWhile_eq_nil, List.append_nil]

theorem dropWhile_append (h : EndsNumeral rest) (hds : AllDigits ds) :
    (ds ++ rest).dropWhile Char.isDigit = rest := by
  rw [List.dropWhile_append_of_pos hds, h.dropWhile_eq_self]

end EndsNumeral

/-! ## Values -/

theorem digitsValue_eq (ds : List Char) : digitsValue ds = Nat.ofDigitChars 10 ds 0 := by
  simp only [digitsValue, Nat.ofDigitChars_eq_foldl, Nat.mul_comm 10]
  rfl

theorem digitsValue_toDigits (n : Nat) : digitsValue (Nat.toDigits 10 n) = n := by
  rw [digitsValue_eq, Nat.ofDigitChars_toDigits (by decide) (by decide)]

theorem digitsValue_zeros (k : Nat) (ds : List Char) :
    digitsValue (List.replicate k '0' ++ ds) = digitsValue ds := by
  rw [digitsValue_eq, digitsValue_eq, Nat.ofDigitChars_append, Nat.ofDigitChars_replicate_zero,
    Nat.mul_zero]

/-- A run of digits stands for less than a power of ten that has more digits. -/
theorem digitsValue_lt {ds : List Char} (hds : AllDigits ds) :
    digitsValue ds < 10 ^ ds.length := by
  rw [digitsValue_eq]
  induction ds using List.reverseRecOn with
  | nil => decide
  | append_singleton ds c ih =>
      have hdigit : '0'.toNat ≤ c.toNat ∧ c.toNat ≤ '9'.toNat :=
        Char.isDigit_iff_toNat.mp (hds c (by simp))
      have hc : c.toNat - '0'.toNat < 10 := Nat.lt_succ_of_le (Nat.sub_le_sub_right hdigit.2 _)
      have hlt := ih fun d hd => hds d (by simp [hd])
      rw [Nat.ofDigitChars_append, List.length_append, List.length_singleton, Nat.pow_succ,
        Nat.ofDigitChars_cons, Nat.ofDigitChars_nil]
      omega

namespace Time

/-- A number of at least `width` digits, as characters. -/
def paddedChars (width n : Nat) : List Char :=
  let ds := Nat.toDigits 10 n
  List.replicate (width - ds.length) '0' ++ ds

theorem toList_padded (width n : Nat) : (padded width n).toList = paddedChars width n := by
  rw [padded, String.toList_ofList, paddedChars]

theorem allDigits_paddedChars (width n : Nat) : AllDigits (paddedChars width n) :=
  (AllDigits.zeros _).append (.toDigits n)

theorem digitsValue_paddedChars (width n : Nat) : digitsValue (paddedChars width n) = n := by
  rw [paddedChars, digitsValue_zeros, digitsValue_toDigits]

theorem paddedChars_ne_nil (width n : Nat) : paddedChars width n ≠ [] :=
  List.append_ne_nil_of_right_ne_nil _ Nat.toDigits_ne_nil

/-- A number that fits its width fills it. -/
theorem length_paddedChars {width n : Nat} (hwidth : 0 < width) (hn : n < 10 ^ width) :
    (paddedChars width n).length = width := by
  have hle : (Nat.toDigits 10 n).length ≤ width :=
    (Nat.length_toDigits_le_iff (by decide) hwidth).mpr hn
  rw [paddedChars, List.length_append, List.length_replicate]
  omega

namespace Rfc3339

/-- A number is read out of a text if it fits the width, and fills it or ends where it ends. -/
theorem number?_append {width : Nat} {ds rest : List Char} (hds : AllDigits ds) (hne : ds ≠ [])
    (hle : ds.length ≤ width) (hend : ds.length = width ∨ EndsNumeral rest) :
    number? width (ds ++ rest) = some (digitsValue ds, rest) := by
  have htail : EndsNumeral (rest.take (width - ds.length)) := by
    rcases hend with hfull | hend
    · rw [hfull, Nat.sub_self, List.take_zero]
      exact .nil
    · exact hend.take _
  have hrun : ((ds ++ rest).take width).takeWhile Char.isDigit = ds := by
    rw [List.take_append, List.take_of_length_le hle, htail.takeWhile_append hds]
  have hsome : ds.isEmpty = false := List.isEmpty_eq_false_iff.mpr hne
  simp only [number?, hrun, hsome, List.drop_left, digitsValue]
  rfl

theorem number?_paddedChars {width n : Nat} (hwidth : 0 < width) (hn : n < 10 ^ width)
    (rest : List Char) : number? width (paddedChars width n ++ rest) = some (n, rest) := by
  have hlength := length_paddedChars hwidth hn
  rw [number?_append (allDigits_paddedChars width n) (paddedChars_ne_nil width n)
    (Nat.le_of_eq hlength) (.inl hlength), digitsValue_paddedChars]

end Rfc3339

end Time

end BalanceLedger
