/-
# `Index` — look-up tables

A finite table from keys to values.  It is kept as a list of pairs with one pair
per key; a value that is inserted under a key it already has takes the place of
the old one.
-/

namespace BalanceLedger

/-- A finite table from keys to values. -/
structure Index (κ α : Type) where
  pairs : List (κ × α) := []
deriving DecidableEq, Repr

namespace Index

variable {κ α : Type} [DecidableEq κ]

def empty : Index κ α := {}

/-- The value of a key in a list of pairs. -/
def find? (key : κ) : List (κ × α) → Option α
  | [] => none
  | (k, a) :: rest => if k = key then some a else find? key rest

/-- Give a key its value in a list of pairs. -/
def replace (key : κ) (value : α) : List (κ × α) → List (κ × α)
  | [] => [(key, value)]
  | (k, a) :: rest => if k = key then (key, value) :: rest else (k, a) :: replace key value rest

/-- The value of a key. -/
def get? (t : Index κ α) (key : κ) : Option α :=
  find? key t.pairs

def contains (t : Index κ α) (key : κ) : Bool :=
  (t.get? key).isSome

/-- Give a key its value. -/
def insert (t : Index κ α) (key : κ) (value : α) : Index κ α :=
  ⟨replace key value t.pairs⟩

def size (t : Index κ α) : Nat :=
  t.pairs.length

def values (t : Index κ α) : List α :=
  t.pairs.map Prod.snd

theorem find?_replace (key k : κ) (value : α) (pairs : List (κ × α)) :
    find? k (replace key value pairs) = if key = k then some value else find? k pairs := by
  induction pairs with
  | nil => rfl
  | cons p rest ih =>
    obtain ⟨k', a⟩ := p
    by_cases hkey : k' = key
    · subst hkey
      by_cases hk : k' = k <;> simp [replace, find?, hk]
    · by_cases hk : k' = k
      · subst hk
        simp [replace, find?, hkey, Ne.symm hkey]
      · simp [replace, find?, hkey, hk, ih]

/-- An inserted value is found under its key, and nothing else changes. -/
theorem get?_insert (t : Index κ α) (key k : κ) (value : α) :
    (t.insert key value).get? k = if key = k then some value else t.get? k :=
  find?_replace key k value t.pairs

end Index

end BalanceLedger
