/-
# `Proofs.Arithmetic` — the figures of a slot are numbers

Balances, reservations and versions are words, and the sums and differences of words
wrap.  Only the sum of a credit is checked.  Everything else relies on the bounds of a
solvent slot: a debit and a reservation stay below what is available, a release below
what is reserved, and no amount is negative.

Here a slot is compared with its `Figures` as unbounded numbers.  What numbers allow
(`Figures.Allows`) is what the slot accepts, at every bound; what it accepts comes to
the same figures, which is `Becomes`, and what it refuses it `Refuses` with the true
ones.  `IsExact` is all of this for one change, and `Solvent.isExact` proves it.

That no word wraps on the way is a statement about the single steps, and figures that
come out right do not show it: two wraps can cancel.  So each operation is also given in
a strict form in which every sum, difference and opposite stops at an overflow.  On a
solvent slot it never does, and answers the same, by `change_eq`.

`slot_arithmetic_exact` adds any number of changes to that.  The induction is on the
requests, with solvency as the invariant (`Solvent.run`), and it needs a version for
each of the changes: the version is counted up without a check.
-/
import BalanceLedger.Proofs.Announcement

namespace BalanceLedger

open Time (Instant)

/-! ## Words that stop at an overflow -/

namespace Word

def checkedSub (a b : Int64) : Option Int64 :=
  if FitsInt64 (a.toInt - b.toInt) then some (a - b) else none

/-- The opposite, unless it does not fit: that of the least number does not. -/
def checkedNeg (a : Int64) : Option Int64 :=
  if FitsInt64 (-a.toInt) then some (-a) else none

variable {a b : Int64}

theorem fits_of_le {n : Int} (hlow : 0 ≤ n) (hhigh : n ≤ a.toInt) : FitsInt64 n :=
  ⟨Int.le_trans (by decide) hlow, Int.le_trans hhigh (fits_toInt a).2⟩

theorem checkedAdd_of_fits (h : FitsInt64 (a.toInt + b.toInt)) : checkedAdd a b = some (a + b) :=
  if_pos h

theorem checkedSub_of_fits (h : FitsInt64 (a.toInt - b.toInt)) : checkedSub a b = some (a - b) :=
  if_pos h

theorem checkedNeg_of_pos (h : 0 < a.toInt) : checkedNeg a = some (-a) := by
  refine if_pos ?_
  obtain ⟨-, hhigh⟩ := fits_toInt a
  unfold FitsInt64 minInt64 maxInt64 at *
  omega

end Word

namespace Slot

/-! ## Changes -/

/-- What can be asked of a slot. -/
inductive Change where
  | credit (amount : Amount)
  | debit (amount : Amount)
  | reserve (amount : Amount)
  | release (amount : Amount)

/-- What is answered: the changed slot, and the event that announces it. -/
def change (s : Slot) (c : Change) (now : Instant) : Except DomainError (Slot × Event) :=
  match c with
  | .credit amount => (s.credit amount now).map fun (t, u) => (t, .balanceUpdated u)
  | .debit amount => (s.debit amount now).map fun (t, u) => (t, .balanceUpdated u)
  | .reserve amount => (s.reserve amount now).map fun (t, u) => (t, .fundsReserved u)
  | .release amount => (s.release amount now).map fun (t, u) => (t, .reservationReleased u)

def serve (s : Slot) (c : Change) (now : Instant) : Slot :=
  match s.change c now with
  | .ok (t, _) => t
  | .error _ => s

def run (s : Slot) (requests : List (Change × Instant)) : Slot :=
  requests.foldl (fun s q => s.serve q.1 q.2) s

end Slot

/-! ## The same with numbers -/

namespace Figures

open Slot (Change)

/-- The change keeps the figures in order and the balance within `Word.maxInt64`. -/
def Allows (f : Figures) : Change → Prop
  | .credit amount => f.balance + amount.val.toInt ≤ Word.maxInt64
  | .debit amount => amount.val.toInt ≤ f.balance - f.reserved
  | .reserve amount => amount.val.toInt ≤ f.balance - f.reserved
  | .release amount => amount.val.toInt ≤ f.reserved

instance (f : Figures) (c : Change) : Decidable (f.Allows c) := by
  cases c <;> exact inferInstanceAs (Decidable (_ ≤ _))

/-- The figures after a change. -/
def changed (f : Figures) : Change → Figures
  | .credit amount => { f with version := f.version + 1, balance := f.balance + amount.val.toInt }
  | .debit amount => { f with version := f.version + 1, balance := f.balance - amount.val.toInt }
  | .reserve amount => { f with version := f.version + 1, reserved := f.reserved + amount.val.toInt }
  | .release amount => { f with version := f.version + 1, reserved := f.reserved - amount.val.toInt }

def serve (f : Figures) (c : Change) : Figures :=
  if f.Allows c then f.changed c else f

def run (f : Figures) (changes : List Change) : Figures :=
  changes.foldl serve f

end Figures

namespace Slot

/-- An event states the new figures of a slot and what has moved. -/
inductive Announces (s t : Slot) : Change → Event → Prop
  | credit {amount : Amount} {change : Int64} : change.toInt = amount.val.toInt →
      Announces s t (.credit amount) (.balanceUpdated
        { account := s.account, currency := s.currency.code, previous := s.balance,
          balance := t.balance, change, version := t.version })
  | debit {amount : Amount} {change : Int64} : change.toInt = -amount.val.toInt →
      Announces s t (.debit amount) (.balanceUpdated
        { account := s.account, currency := s.currency.code, previous := s.balance,
          balance := t.balance, change, version := t.version })
  | reserve {amount : Amount} {available : Int64} :
      available.toInt = t.balance.toInt - t.reserved.toInt →
      Announces s t (.reserve amount) (.fundsReserved
        { account := s.account, currency := s.currency.code, amount := amount.val,
          reserved := t.reserved, available, version := t.version })
  | release {amount : Amount} {available : Int64} :
      available.toInt = t.balance.toInt - t.reserved.toInt →
      Announces s t (.release amount) (.reservationReleased
        { account := s.account, currency := s.currency.code, amount := amount.val,
          reserved := t.reserved, available, version := t.version })

/-- A refusal states what was required and what there is. -/
inductive Refuses (s : Slot) : Change → DomainError → Prop
  | credit {amount : Amount} : Refuses s (.credit amount) .balanceOverflow
  | debit {amount : Amount} {available : Int64} :
      available.toInt = s.balance.toInt - s.reserved.toInt →
      Refuses s (.debit amount) (.insufficientBalance amount.val available)
  | reserve {amount : Amount} {available : Int64} :
      available.toInt = s.balance.toInt - s.reserved.toInt →
      Refuses s (.reserve amount) (.insufficientBalance amount.val available)
  | release {amount : Amount} : Refuses s (.release amount) (.overRelease amount.val s.reserved)

/-- A slot becomes another one by a change: its figures are the `changed` ones, and the event
`Announces` them. -/
structure Becomes (s : Slot) (c : Change) (now : Instant) (t : Slot) (e : Event) : Prop where
  figures : t.figures = s.figures.changed c
  key : t.key = s.key
  updatedAt : t.updatedAt = now
  solvent : t.Solvent
  announces : s.Announces t c e

/-! ## What is accepted -/

variable {s t : Slot} {amount : Amount} {now : Instant}

theorem Solvent.not_available_lt (h : s.Solvent)
    (hcovered : amount.val.toInt ≤ s.balance.toInt - s.reserved.toInt) :
    ¬ s.available < amount.val := by
  rw [Int64.lt_iff_toInt_lt, h.toInt_available]
  omega

theorem Solvent.available_lt (h : s.Solvent)
    (hnot : ¬ amount.val.toInt ≤ s.balance.toInt - s.reserved.toInt) :
    s.available < amount.val := by
  rw [Int64.lt_iff_toInt_lt, h.toInt_available]
  omega

theorem credit_of_fits (hfits : Word.FitsInt64 (s.balance.toInt + amount.val.toInt))
    (now : Instant) :
    s.credit amount now =
      let next := { s with balance := s.balance + amount.val }.touch now
      .ok (next, next.balanceUpdated s.balance amount.val) := by
  rw [credit, Word.checkedAdd_of_fits hfits]

theorem becomes_credit (hs : s.Solvent) (hversion : s.version.toInt < Word.maxInt64)
    (h : s.figures.Allows (.credit amount)) (now : Instant) :
    ∃ t e, s.change (.credit amount) now = .ok (t, e) ∧ s.Becomes (.credit amount) now t e := by
  have hlow := hs.reserved_nonneg
  have hle := hs.reserved_le
  have hpos := amount.toInt_pos
  have hfits : Word.FitsInt64 (s.balance.toInt + amount.val.toInt) := by
    refine ⟨Int.le_trans (by decide : Word.minInt64 ≤ 0) ?_, h⟩
    omega
  -- this sum is all that a credit checks
  have hcredit := credit_of_fits hfits now
  obtain ⟨hsucceeds, hreserved, -, hbalance⟩ := credit_ok hcredit
  obtain ⟨hsolvent, -⟩ := (move_ok (show s.move .credit amount now = _ from hcredit)).2 hs
  refine ⟨_, _, congrArg (Except.map _) hcredit, ?_, rfl, rfl, hsolvent, .credit rfl⟩
  rw [figures, hsucceeds.toInt_version hversion, hreserved, hbalance]
  rfl

theorem becomes_debit (hs : s.Solvent) (hversion : s.version.toInt < Word.maxInt64)
    (h : s.figures.Allows (.debit amount)) (now : Instant) :
    ∃ t e, s.change (.debit amount) now = .ok (t, e) ∧ s.Becomes (.debit amount) now t e := by
  have hdebit : s.debit amount now = _ := if_neg (hs.not_available_lt h)
  obtain ⟨hsucceeds, hreserved, -, -, -⟩ := debit_ok hdebit
  obtain ⟨hsolvent, hbalance⟩ := (move_ok (show s.move .debit amount now = _ from hdebit)).2 hs
  refine ⟨_, _, congrArg (Except.map _) hdebit, ?_, rfl, rfl, hsolvent,
    .debit (Word.toInt_neg_of_pos amount.toInt_pos)⟩
  rw [figures, hsucceeds.toInt_version hversion, hreserved, hbalance]
  rfl

theorem becomes_reserve (hs : s.Solvent) (hversion : s.version.toInt < Word.maxInt64)
    (h : s.figures.Allows (.reserve amount)) (now : Instant) :
    ∃ t e, s.change (.reserve amount) now = .ok (t, e) ∧ s.Becomes (.reserve amount) now t e := by
  have hreserve : s.reserve amount now = _ := if_neg (hs.not_available_lt h)
  obtain ⟨hsucceeds, hbalance, -, hafter⟩ := reserve_ok hreserve
  obtain ⟨hsolvent, hreserved⟩ := hafter hs
  refine ⟨_, _, congrArg (Except.map _) hreserve, ?_, rfl, rfl, hsolvent,
    .reserve hsolvent.toInt_available⟩
  rw [figures, hsucceeds.toInt_version hversion, hreserved, hbalance]
  rfl

theorem becomes_release (hs : s.Solvent) (hversion : s.version.toInt < Word.maxInt64)
    (h : s.figures.Allows (.release amount)) (now : Instant) :
    ∃ t e, s.change (.release amount) now = .ok (t, e) ∧ s.Becomes (.release amount) now t e := by
  have hrelease : s.release amount now = _ :=
    if_neg (Int64.not_lt.mpr (Int64.le_iff_toInt_le.mpr h))
  obtain ⟨hsucceeds, hbalance, -, hafter⟩ := release_ok hrelease
  obtain ⟨hsolvent, hreserved⟩ := hafter hs
  refine ⟨_, _, congrArg (Except.map _) hrelease, ?_, rfl, rfl, hsolvent,
    .release hsolvent.toInt_available⟩
  rw [figures, hsucceeds.toInt_version hversion, hreserved, hbalance]
  rfl

/-- What the figures allow is accepted. -/
theorem Solvent.exists_becomes (hs : s.Solvent) (hversion : s.version.toInt < Word.maxInt64)
    {c : Change} (h : s.figures.Allows c) (now : Instant) :
    ∃ t e, s.change c now = .ok (t, e) ∧ s.Becomes c now t e := by
  cases c with
  | credit amount => exact becomes_credit hs hversion h now
  | debit amount => exact becomes_debit hs hversion h now
  | reserve amount => exact becomes_reserve hs hversion h now
  | release amount => exact becomes_release hs hversion h now

/-- What they do not allow is refused, with an error that `Refuses` for the true figures. -/
theorem Solvent.exists_refuses (hs : s.Solvent) {c : Change} (h : ¬ s.figures.Allows c)
    (now : Instant) : ∃ e, s.change c now = .error e ∧ s.Refuses c e := by
  cases c with
  | credit amount =>
      have hoverflow : s.credit amount now = .error .balanceOverflow := by
        rw [credit, Word.checkedAdd, if_neg fun hfits => h hfits.2]
      exact ⟨_, congrArg (Except.map _) hoverflow, .credit⟩
  | debit amount =>
      have huncovered : s.debit amount now = .error (.insufficientBalance amount.val s.available) :=
        if_pos (hs.available_lt h)
      exact ⟨_, congrArg (Except.map _) huncovered, .debit hs.toInt_available⟩
  | reserve amount =>
      have huncovered : s.reserve amount now = .error (.insufficientBalance amount.val s.available) :=
        if_pos (hs.available_lt h)
      exact ⟨_, congrArg (Except.map _) huncovered, .reserve hs.toInt_available⟩
  | release amount =>
      have hover : s.release amount now = .error (.overRelease amount.val s.reserved) :=
        if_pos (Int64.lt_iff_toInt_lt.mpr (Int.not_le.mp h))
      exact ⟨_, congrArg (Except.map _) hover, .release⟩

/-! ## Nothing wraps -/

namespace Strict

def available (s : Slot) : Option Int64 :=
  Word.checkedSub s.balance s.reserved

/-- Does what is available cover the amount? -/
def covers (s : Slot) (amount : Int64) : Option Bool := do
  let available ← available s
  return amount ≤ available

/-- Count a change, if the version fits. -/
def touch (s : Slot) (now : Instant) : Option Slot := do
  let version ← Word.checkedAdd s.version 1
  return { s with version, updatedAt := now }

def reservationChange (s : Slot) (amount : Amount) : Option ReservationChange := do
  let available ← available s
  return { account := s.account, currency := s.currency.code, amount := amount.val,
           reserved := s.reserved, available, version := s.version }

/-- A credit: the sum of the balance is checked in any case. -/
def credit (s : Slot) (amount : Amount) (now : Instant) :
    Option (Except DomainError (Slot × BalanceUpdated)) :=
  match Word.checkedAdd s.balance amount.val with
  | none => return .error .balanceOverflow
  | some balance => do
    let next ← touch { s with balance } now
    return .ok (next, next.balanceUpdated s.balance amount.val)

def debit (s : Slot) (amount : Amount) (now : Instant) :
    Option (Except DomainError (Slot × BalanceUpdated)) := do
  let available ← available s
  if available < amount.val then return .error (.insufficientBalance amount.val available)
  else
    let balance ← Word.checkedSub s.balance amount.val
    let next ← touch { s with balance } now
    let change ← Word.checkedNeg amount.val
    return .ok (next, next.balanceUpdated s.balance change)

def reserve (s : Slot) (amount : Amount) (now : Instant) :
    Option (Except DomainError (Slot × ReservationChange)) := do
  let available ← available s
  if available < amount.val then return .error (.insufficientBalance amount.val available)
  else
    let reserved ← Word.checkedAdd s.reserved amount.val
    let next ← touch { s with reserved } now
    return .ok (next, ← reservationChange next amount)

def release (s : Slot) (amount : Amount) (now : Instant) :
    Option (Except DomainError (Slot × ReservationChange)) := do
  if s.reserved < amount.val then return .error (.overRelease amount.val s.reserved)
  else
    let reserved ← Word.checkedSub s.reserved amount.val
    let next ← touch { s with reserved } now
    return .ok (next, ← reservationChange next amount)

def change (s : Slot) (c : Change) (now : Instant) : Option (Except DomainError (Slot × Event)) :=
  match c with
  | .credit amount => (credit s amount now).map (·.map fun (t, u) => (t, .balanceUpdated u))
  | .debit amount => (debit s amount now).map (·.map fun (t, u) => (t, .balanceUpdated u))
  | .reserve amount => (reserve s amount now).map (·.map fun (t, u) => (t, .fundsReserved u))
  | .release amount => (release s amount now).map (·.map fun (t, u) => (t, .reservationReleased u))

theorem available_eq (hs : s.Solvent) : available s = some s.available := by
  have hlow := hs.reserved_nonneg
  have hle := hs.reserved_le
  exact Word.checkedSub_of_fits (Word.fits_of_le (a := s.balance) (by omega) (by omega))

theorem covers_eq (hs : s.Solvent) (n : Int64) : covers s n = some (s.covers n) := by
  rw [covers, available_eq hs]
  rfl

theorem touch_eq (hversion : s.version.toInt < Word.maxInt64) (now : Instant) :
    touch s now = some (s.touch now) := by
  have hfits : Word.FitsInt64 (s.version.toInt + (1 : Int64).toInt) := by
    obtain ⟨hlow, -⟩ := Word.fits_toInt s.version
    exact ⟨Int.le_trans hlow (Int.le_add_of_nonneg_right (by decide)), hversion⟩
  rw [touch, Word.checkedAdd_of_fits hfits]
  rfl

theorem reservationChange_eq (hs : s.Solvent) (amount : Amount) :
    reservationChange s amount = some (s.reservationChange amount) := by
  rw [reservationChange, available_eq hs]
  rfl

theorem credit_eq (hversion : s.version.toInt < Word.maxInt64) (amount : Amount) (now : Instant) :
    credit s amount now = some (s.credit amount now) := by
  rw [credit, Slot.credit]
  cases Word.checkedAdd s.balance amount.val with
  | none => rfl
  | some balance =>
      have htouch := touch_eq (s := { s with balance }) hversion now
      simp only [htouch]
      rfl

theorem debit_eq (hs : s.Solvent) (hversion : s.version.toInt < Word.maxInt64) (amount : Amount)
    (now : Instant) : debit s amount now = some (s.debit amount now) := by
  rw [debit, Slot.debit, available_eq hs]
  by_cases huncovered : s.available < amount.val
  · rw [if_pos huncovered]
    exact if_pos huncovered
  · have hcovered := hs.covered huncovered
    have hlow := hs.reserved_nonneg
    have hpos := amount.toInt_pos
    have hsub := Word.checkedSub_of_fits (a := s.balance) (b := amount.val)
      (Word.fits_of_le (a := s.balance) (by omega) (by omega))
    have htouch := touch_eq (s := { s with balance := s.balance - amount.val }) hversion now
    rw [if_neg huncovered]
    refine (if_neg huncovered).trans ?_
    simp only [hsub, htouch, Word.checkedNeg_of_pos hpos, Option.bind_eq_bind, Option.bind_some]
    rfl

theorem reserve_eq (hs : s.Solvent) (hversion : s.version.toInt < Word.maxInt64) (amount : Amount)
    (now : Instant) : reserve s amount now = some (s.reserve amount now) := by
  rw [reserve, available_eq hs]
  by_cases huncovered : s.available < amount.val
  · rw [Slot.reserve, if_pos huncovered]
    exact if_pos huncovered
  · -- the event states what is available then, which is a difference again
    have hreserve : s.reserve amount now = _ := if_neg huncovered
    obtain ⟨-, -, -, hafter⟩ := reserve_ok hreserve
    obtain ⟨hsolvent, -⟩ := hafter hs
    have hcovered := hs.covered huncovered
    have hlow := hs.reserved_nonneg
    have hpos := amount.toInt_pos
    have hadd := Word.checkedAdd_of_fits (a := s.reserved) (b := amount.val)
      (Word.fits_of_le (a := s.balance) (by omega) (by omega))
    have htouch := touch_eq (s := { s with reserved := s.reserved + amount.val }) hversion now
    rw [hreserve]
    refine (if_neg huncovered).trans ?_
    simp only [hadd, htouch, reservationChange_eq hsolvent, Option.bind_eq_bind, Option.bind_some]
    rfl

theorem release_eq (hs : s.Solvent) (hversion : s.version.toInt < Word.maxInt64) (amount : Amount)
    (now : Instant) : release s amount now = some (s.release amount now) := by
  rw [release]
  by_cases hover : s.reserved < amount.val
  · rw [Slot.release, if_pos hover, if_pos hover]
    rfl
  · have hrelease : s.release amount now = _ := if_neg hover
    obtain ⟨-, -, -, hafter⟩ := release_ok hrelease
    obtain ⟨hsolvent, -⟩ := hafter hs
    have hpos := amount.toInt_pos
    have hcovered := Int64.le_iff_toInt_le.mp (Int64.not_lt.mp hover)
    have hsub := Word.checkedSub_of_fits (a := s.reserved) (b := amount.val)
      (Word.fits_of_le (a := s.reserved) (by omega) (by omega))
    have htouch := touch_eq (s := { s with reserved := s.reserved - amount.val }) hversion now
    rw [hrelease]
    refine (if_neg hover).trans ?_
    simp only [hsub, htouch, reservationChange_eq hsolvent, Option.bind_eq_bind, Option.bind_some]
    rfl

/-- No sum, no difference and no opposite overflows: the strict form of a change is `Slot.change`.
-/
theorem change_eq (hs : s.Solvent) (hversion : s.version.toInt < Word.maxInt64) (c : Change)
    (now : Instant) : change s c now = some (s.change c now) := by
  cases c with
  | credit amount => rw [change, credit_eq hversion]; rfl
  | debit amount => rw [change, debit_eq hs hversion]; rfl
  | reserve amount => rw [change, reserve_eq hs hversion]; rfl
  | release amount => rw [change, release_eq hs hversion]; rfl

end Strict

/-! ## One change, and any number of them -/

/-- A change of a slot is what it is for numbers. -/
structure IsExact (s : Slot) (c : Change) (now : Instant) : Prop where
  /-- The slot accepts what its figures allow. -/
  accepted_iff : (∃ t e, s.change c now = .ok (t, e)) ↔ s.figures.Allows c
  accepted : ∀ t e, s.change c now = .ok (t, e) → s.serve c now = t ∧ s.Becomes c now t e
  /-- A refused change leaves the slot as it is. -/
  refused : ∀ e, s.change c now = .error e → s.serve c now = s ∧ s.Refuses c e
  /-- Nothing overflows on the way. -/
  strict : Strict.change s c now = some (s.change c now)
  available : Strict.available s = some s.available ∧
    s.available.toInt = s.balance.toInt - s.reserved.toInt
  covers : ∀ n, Strict.covers s n = some (s.covers n) ∧
    (s.covers n = true ↔ n.toInt ≤ s.balance.toInt - s.reserved.toInt)

theorem serve_of_ok {c : Change} {e : Event} (h : s.change c now = .ok (t, e)) :
    s.serve c now = t := by
  rw [serve, h]

theorem serve_of_error {c : Change} {e : DomainError} (h : s.change c now = .error e) :
    s.serve c now = s := by
  rw [serve, h]

theorem Solvent.covers_iff (hs : s.Solvent) (n : Int64) :
    s.covers n = true ↔ n.toInt ≤ s.balance.toInt - s.reserved.toInt := by
  rw [covers, decide_eq_true_eq, Int64.le_iff_toInt_le, hs.toInt_available]

/-- On a solvent slot that has a version left every change is exact. -/
theorem Solvent.isExact (hs : s.Solvent) (hversion : s.version.toInt < Word.maxInt64) (c : Change)
    (now : Instant) : s.IsExact c now := by
  refine ⟨⟨?_, fun h => ?_⟩, fun t e h => ⟨serve_of_ok h, ?_⟩, fun e h => ⟨serve_of_error h, ?_⟩,
    Strict.change_eq hs hversion c now, ⟨Strict.available_eq hs, hs.toInt_available⟩,
    fun n => ⟨Strict.covers_eq hs n, hs.covers_iff n⟩⟩
  · rintro ⟨t, e, h⟩
    by_contra hnot
    obtain ⟨e', h', -⟩ := hs.exists_refuses hnot now
    exact absurd (h.symm.trans h') (by simp)
  · obtain ⟨t, e, hok, -⟩ := hs.exists_becomes hversion h now
    exact ⟨t, e, hok⟩
  · by_cases hallowed : s.figures.Allows c
    · obtain ⟨t', e', h', hbecomes⟩ := hs.exists_becomes hversion hallowed now
      obtain ⟨rfl, rfl⟩ := Prod.mk.inj (Except.ok.inj (h.symm.trans h'))
      exact hbecomes
    · obtain ⟨e', h', -⟩ := hs.exists_refuses hallowed now
      exact absurd (h.symm.trans h') (by simp)
  · by_cases hallowed : s.figures.Allows c
    · obtain ⟨t', e', h', -⟩ := hs.exists_becomes hversion hallowed now
      exact absurd (h.symm.trans h') (by simp)
    · obtain ⟨e', h', hrefuses⟩ := hs.exists_refuses hallowed now
      obtain rfl := Except.error.inj (h.symm.trans h')
      exact hrefuses

/-- A change that is asked leaves a solvent slot with the figures that it comes to. -/
theorem Solvent.serve (hs : s.Solvent) (hversion : s.version.toInt < Word.maxInt64) (c : Change)
    (now : Instant) : (s.serve c now).Solvent ∧ (s.serve c now).figures = s.figures.serve c := by
  by_cases hallowed : s.figures.Allows c
  · obtain ⟨t, e, hok, hbecomes⟩ := hs.exists_becomes hversion hallowed now
    rw [serve_of_ok hok, Figures.serve, if_pos hallowed]
    exact ⟨hbecomes.solvent, hbecomes.figures⟩
  · obtain ⟨e, herror, -⟩ := hs.exists_refuses hallowed now
    rw [serve_of_error herror, Figures.serve, if_neg hallowed]
    exact ⟨hs, rfl⟩

/-- There is a version left for each of the changes, as numbers have it. -/
def HasVersions (s : Slot) (requests : List (Change × Instant)) : Prop :=
  ∀ n < requests.length, (s.figures.run ((requests.take n).map Prod.fst)).version < Word.maxInt64

instance (s : Slot) (requests : List (Change × Instant)) : Decidable (s.HasVersions requests) :=
  inferInstanceAs (Decidable (∀ n < requests.length, _ < _))

/-- As long as there are versions, a slot stays solvent and comes to the figures that numbers come
to. -/
theorem Solvent.run (hs : s.Solvent) {requests : List (Change × Instant)}
    (hversions : s.HasVersions requests) {n : Nat} (hn : n ≤ requests.length) :
    (s.run (requests.take n)).Solvent ∧
      (s.run (requests.take n)).figures = s.figures.run ((requests.take n).map Prod.fst) := by
  induction n with
  | zero => exact ⟨hs, rfl⟩
  | succ n ih =>
      obtain ⟨hsolvent, hfigures⟩ := ih (Nat.le_of_succ_le hn)
      -- the slot has the version that numbers come to, so there is one left for the next change
      have hleft : (s.run (requests.take n)).version.toInt < Word.maxInt64 := by
        have hversion := hversions n hn
        rw [← hfigures] at hversion
        exact hversion
      obtain ⟨hnext, hcomes⟩ := hsolvent.serve hleft requests[n].1 requests[n].2
      rw [← List.take_concat_get' requests n hn, Slot.run, List.foldl_append, List.map_append,
        Figures.run, List.foldl_append]
      exact ⟨hnext, hcomes.trans (congrArg (Figures.serve · _) hfigures)⟩

end Slot

/-- The arithmetic of a solvent slot is that of numbers, for one change and along any number of them
as long as there are versions; and a slot that is opened is solvent. -/
theorem slot_arithmetic_exact (s : Slot) (hs : s.Solvent) :
    (s.version.toInt < Word.maxInt64 → ∀ c now, s.IsExact c now) ∧
      (∀ requests : List (Slot.Change × Instant), s.HasVersions requests →
        (s.run requests).Solvent ∧
          (s.run requests).figures = s.figures.run (requests.map Prod.fst) ∧
          ∀ n c now, requests[n]? = some (c, now) → (s.run (requests.take n)).IsExact c now) ∧
      ∀ account currency now, (Slot.opened account currency now).Solvent ∧
        (Slot.opened account currency now).version.toInt < Word.maxInt64 := by
  refine ⟨fun hversion c now => hs.isExact hversion c now, fun requests hversions => ?_,
    fun account currency now => ⟨Slot.solvent_opened account currency now, ?_⟩⟩
  · have hrun := hs.run hversions (Nat.le_refl _)
    rw [List.take_length] at hrun
    refine ⟨hrun.1, hrun.2, fun n c now hrequest => ?_⟩
    have hn := (List.getElem?_eq_some_iff.mp hrequest).1
    obtain ⟨hsolvent, hfigures⟩ := hs.run hversions (Nat.le_of_lt hn)
    have hversion := hversions n hn
    rw [← hfigures] at hversion
    exact hsolvent.isExact hversion c now
  · show (0 : Int64).toInt < Word.maxInt64
    decide

/-- A slot with one unit to spend, below the largest balance and the last version. -/
def nearlyFull : Slot :=
  { account := .nil, currency := ⟨"MAD", by decide⟩, balance := 9223372036854775806,
    reserved := 9223372036854775805, version := 9223372036854775805, updatedAt := .epoch }

/-- It is filled up, then it is full, and then all of it is reserved with the last version. -/
theorem slot_arithmetic_exact_nearlyFull :
    let one : Amount := ⟨1, by decide, by decide⟩
    let two : Amount := ⟨2, by decide, by decide⟩
    let requests : List (Slot.Change × Instant) :=
      [(.credit one, .epoch), (.credit one, .epoch), (.reserve two, .epoch)]
    let t := nearlyFull.run requests
    (nearlyFull.Solvent ∧ nearlyFull.version.toInt < Word.maxInt64 ∧
        nearlyFull.HasVersions requests) ∧
      (t.balance.toInt = Word.maxInt64 ∧ t.reserved.toInt = Word.maxInt64 ∧
        t.version.toInt = Word.maxInt64) ∧
      (∀ c now, nearlyFull.IsExact c now) ∧
      t.Solvent ∧ t.figures = nearlyFull.figures.run (requests.map Prod.fst) ∧
      ∀ n c now, requests[n]? = some (c, now) → (nearlyFull.run (requests.take n)).IsExact c now := by
  intro one two requests t
  have hs : nearlyFull.Solvent := ⟨by decide, by decide⟩
  have hversion : nearlyFull.version.toInt < Word.maxInt64 := by decide
  have hversions : nearlyFull.HasVersions requests := by decide +kernel
  obtain ⟨hsingle, hruns, -⟩ := slot_arithmetic_exact nearlyFull hs
  exact ⟨⟨hs, hversion, hversions⟩, by decide +kernel, hsingle hversion, hruns requests hversions⟩

end BalanceLedger
