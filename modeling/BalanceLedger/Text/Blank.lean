/-
# `Text.Blank` — white space around a text

Codes, keys and free texts are compared without the white space around them.
White space is the Unicode property of that name: twenty-five characters, the
ASCII blanks among them.  Zero-width characters and the byte order mark are not
white space, so they stay.
-/

namespace BalanceLedger.Text

/-- The characters with the Unicode property `White_Space`. -/
def isBlank (c : Char) : Bool :=
  let n := c.toNat
  (0x9 ≤ n && n ≤ 0xD) || n == 0x20 || n == 0x85 || n == 0xA0 || n == 0x1680 ||
    (0x2000 ≤ n && n ≤ 0x200A) || n == 0x2028 || n == 0x2029 || n == 0x202F ||
    n == 0x205F || n == 0x3000

/-- Drop the white space at both ends of a list of characters. -/
def trimChars (cs : List Char) : List Char :=
  ((cs.dropWhile isBlank).reverse.dropWhile isBlank).reverse

/-- Drop the white space at both ends. -/
def trim (s : String) : String :=
  String.ofList (trimChars s.toList)

/-- Dropping twice drops nothing more. -/
theorem dropWhile_dropWhile_self {α : Type} (p : α → Bool) :
    ∀ l : List α, (l.dropWhile p).dropWhile p = l.dropWhile p
  | [] => rfl
  | a :: l => by
    cases h : p a with
    | true => simpa [List.dropWhile_cons, h] using dropWhile_dropWhile_self p l
    | false => simp [h]

/-- A prefix of a list whose head is kept is kept whole. -/
theorem dropWhile_eq_self_of_prefix {α : Type} {p : α → Bool} {l r : List α}
    (hl : l.dropWhile p = l) (hr : r <+: l) : r.dropWhile p = r := by
  cases r with
  | nil => rfl
  | cons a r =>
    obtain ⟨t, rfl⟩ := hr
    cases h : p a with
    | false => simp [h]
    | true =>
      have hle := (List.dropWhile_suffix p (l := r ++ t)).length_le
      have hlen := congrArg List.length hl
      simp only [List.cons_append, List.dropWhile_cons, h, if_true, List.length_cons] at hlen
      omega

/-- Trimming twice trims nothing more. -/
theorem trimChars_trimChars (cs : List Char) : trimChars (trimChars cs) = trimChars cs := by
  have hpre : trimChars cs <+: cs.dropWhile isBlank := by
    have := List.dropWhile_suffix isBlank (l := (cs.dropWhile isBlank).reverse)
    simpa [trimChars] using List.reverse_prefix.mpr this
  have hhead := dropWhile_eq_self_of_prefix (dropWhile_dropWhile_self isBlank cs) hpre
  unfold trimChars at hhead ⊢
  rw [hhead, List.reverse_reverse, dropWhile_dropWhile_self]

/-- Trimming a text twice trims nothing more. -/
theorem trim_trim (s : String) : trim (trim s) = trim s := by
  simp [trim, String.toList_ofList, trimChars_trimChars]

def isBlankText (s : String) : Bool :=
  s.toList.all isBlank

end BalanceLedger.Text
