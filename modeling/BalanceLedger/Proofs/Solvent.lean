/-
# `Proofs.Solvent` — slots that hold what is reserved

A slot is `Solvent` if `0 ≤ reserved ≤ balance`.  On a solvent slot no sum or difference
wraps, because each is checked or bounded by one that is: a credit by its checked sum, a
debit and a reservation by what is available, a release by what is reserved.  So a
change of a solvent slot leaves a solvent slot, and its figures are what they are as
numbers.

There is one lemma for each change, `credit_ok`, `debit_ok`, `reserve_ok` and
`release_ok`, with `move_ok` over the first two.  Each gives the figures as integers,
that the slot is still solvent, and by `Succeeds` that nothing else has changed and the
version has been counted.  Callers go by these and do not open the definitions of the
slot.

Solvency cannot be dropped.  What is available is a difference of two words, and on a
slot where more is reserved than there is it could come round to a large number.
-/
import BalanceLedger.Entry

namespace BalanceLedger

open Time (Instant)

/-! ## Words that do not wrap -/

namespace Word

theorem toInt_ofInt_of_fits {n : Int} (h : FitsInt64 n) : (Int64.ofInt n).toInt = n := by
  obtain ⟨hlow, hhigh⟩ := h
  unfold minInt64 at hlow
  unfold maxInt64 at hhigh
  exact Int64.toInt_ofInt_of_le (by omega) (by omega)

theorem toInt_ofNat_of_le {n : Nat} (h : (n : Int) ≤ maxInt64) : (Int64.ofNat n).toInt = n := by
  unfold maxInt64 at h
  exact Int64.toInt_ofNat_of_lt (by omega)

theorem toInt_add_of_fits {a b : Int64} (h : FitsInt64 (a.toInt + b.toInt)) :
    (a + b).toInt = a.toInt + b.toInt := by
  rw [← toInt_ofInt_of_fits h, Int64.ofInt_add, Int64.ofInt_toInt, Int64.ofInt_toInt]

theorem toInt_sub_of_fits {a b : Int64} (h : FitsInt64 (a.toInt - b.toInt)) :
    (a - b).toInt = a.toInt - b.toInt := by
  rw [← toInt_ofInt_of_fits h, Int64.ofInt_sub, Int64.ofInt_toInt, Int64.ofInt_toInt]

theorem fits_toInt (a : Int64) : FitsInt64 a.toInt := by
  have := a.toInt_lt
  have := a.le_toInt
  unfold FitsInt64 minInt64 maxInt64
  omega

theorem toInt_neg_of_pos {a : Int64} (h : 0 < a.toInt) : (-a).toInt = -a.toInt := by
  have := a.toInt_lt
  rw [Int64.toInt_neg]
  exact Int.bmod_eq_of_le (by omega) (by omega)

theorem toInt_checkedAdd {a b c : Int64} (h : checkedAdd a b = some c) :
    c.toInt = a.toInt + b.toInt := by
  unfold checkedAdd at h
  split at h
  · rename_i hfits
    rw [← Option.some.inj h, toInt_add_of_fits hfits]
  · exact absurd h (by simp)

end Word

theorem Amount.toInt_pos (a : Amount) : 0 < a.val.toInt := by
  have := Int64.lt_iff_toInt_lt.mp a.pos
  simpa using this

def Side.signed : Side → Int → Int
  | .credit, n => n
  | .debit, n => -n

/-! ## Solvent slots -/

namespace Slot

variable {s t : Slot} {amount : Amount} {now : Instant}

/-- No more is reserved than there is. -/
structure Solvent (s : Slot) : Prop where
  reserved_nonneg : 0 ≤ s.reserved.toInt
  reserved_le : s.reserved.toInt ≤ s.balance.toInt

theorem solvent_opened (account : Uuid) (currency : Currency) (now : Instant) :
    (opened account currency now).Solvent where
  reserved_nonneg := by simp [opened]
  reserved_le := by simp [opened]

theorem Solvent.toInt_available (h : s.Solvent) :
    s.available.toInt = s.balance.toInt - s.reserved.toInt := by
  refine Word.toInt_sub_of_fits ?_
  obtain ⟨hlow, hhigh⟩ := Word.fits_toInt s.balance
  have := h.reserved_nonneg
  have := h.reserved_le
  unfold Word.FitsInt64 Word.minInt64 Word.maxInt64 at *
  omega

theorem Solvent.covered (h : s.Solvent) (hnot : ¬ s.available < amount.val) :
    amount.val.toInt ≤ s.balance.toInt - s.reserved.toInt := by
  rw [Int64.lt_iff_toInt_lt, h.toInt_available] at hnot
  omega

/-- What a change leaves as it was, and the `version` it counts. -/
structure Succeeds (t s : Slot) : Prop where
  key : t.key = s.key
  version : t.version = s.version + 1

theorem credit_ok {u : BalanceUpdated} (h : s.credit amount now = .ok (t, u)) :
    t.Succeeds s ∧ t.reserved = s.reserved ∧ u = t.balanceUpdated s.balance amount.val ∧
      t.balance.toInt = s.balance.toInt + amount.val.toInt := by
  unfold credit at h
  split at h
  · exact absurd h (by simp)
  · rename_i balance hsum
    obtain ⟨rfl, rfl⟩ := Prod.mk.inj (Except.ok.inj h)
    exact ⟨⟨rfl, rfl⟩, rfl, rfl, Word.toInt_checkedAdd hsum⟩

theorem debit_ok {u : BalanceUpdated} (h : s.debit amount now = .ok (t, u)) :
    t.Succeeds s ∧ t.reserved = s.reserved ∧ u = t.balanceUpdated s.balance (-amount.val) ∧
      t.balance = s.balance - amount.val ∧ ¬ s.available < amount.val := by
  unfold debit at h
  split at h
  · exact absurd h (by simp)
  · rename_i hcovered
    obtain ⟨rfl, rfl⟩ := Prod.mk.inj (Except.ok.inj h)
    exact ⟨⟨rfl, rfl⟩, rfl, rfl, rfl, hcovered⟩

theorem reserve_ok {u : ReservationChange} (h : s.reserve amount now = .ok (t, u)) :
    t.Succeeds s ∧ t.balance = s.balance ∧ u = t.reservationChange amount ∧
      (s.Solvent → t.Solvent ∧ t.reserved.toInt = s.reserved.toInt + amount.val.toInt) := by
  unfold reserve at h
  split at h
  · exact absurd h (by simp)
  · rename_i hcovered
    obtain ⟨rfl, rfl⟩ := Prod.mk.inj (Except.ok.inj h)
    refine ⟨⟨rfl, rfl⟩, rfl, rfl, fun hs => ?_⟩
    have hpos := amount.toInt_pos
    have hlow := hs.reserved_nonneg
    have hroom := hs.covered hcovered
    have hsum : (s.reserved + amount.val).toInt = s.reserved.toInt + amount.val.toInt := by
      refine Word.toInt_add_of_fits ?_
      obtain ⟨-, hhigh⟩ := Word.fits_toInt s.balance
      unfold Word.FitsInt64 Word.minInt64 Word.maxInt64 at *
      omega
    refine ⟨⟨?_, ?_⟩, hsum⟩
    · show 0 ≤ (s.reserved + amount.val).toInt
      omega
    · show (s.reserved + amount.val).toInt ≤ s.balance.toInt
      omega

theorem release_ok {u : ReservationChange} (h : s.release amount now = .ok (t, u)) :
    t.Succeeds s ∧ t.balance = s.balance ∧ u = t.reservationChange amount ∧
      (s.Solvent → t.Solvent ∧ t.reserved.toInt = s.reserved.toInt - amount.val.toInt) := by
  unfold release at h
  split at h
  · exact absurd h (by simp)
  · rename_i hcovered
    obtain ⟨rfl, rfl⟩ := Prod.mk.inj (Except.ok.inj h)
    refine ⟨⟨rfl, rfl⟩, rfl, rfl, fun hs => ?_⟩
    have hpos := amount.toInt_pos
    have hroom := hs.reserved_le
    rw [Int64.lt_iff_toInt_lt] at hcovered
    have hdiff : (s.reserved - amount.val).toInt = s.reserved.toInt - amount.val.toInt := by
      refine Word.toInt_sub_of_fits ?_
      obtain ⟨-, hhigh⟩ := Word.fits_toInt s.reserved
      unfold Word.FitsInt64 Word.minInt64 Word.maxInt64 at *
      omega
    refine ⟨⟨?_, ?_⟩, hdiff⟩
    · show 0 ≤ (s.reserved - amount.val).toInt
      omega
    · show (s.reserved - amount.val).toInt ≤ s.balance.toInt
      omega

theorem move_ok {side : Side} {u : BalanceUpdated} (h : s.move side amount now = .ok (t, u)) :
    t.Succeeds s ∧
      (s.Solvent → t.Solvent ∧
        t.balance.toInt = s.balance.toInt + side.signed amount.val.toInt) := by
  have hpos := amount.toInt_pos
  cases side with
  | credit =>
      obtain ⟨hsucceeds, hreserved, -, hbalance⟩ := credit_ok h
      refine ⟨hsucceeds, fun hs => ⟨⟨?_, ?_⟩, hbalance⟩⟩
      · rw [hreserved]
        exact hs.reserved_nonneg
      · rw [hreserved, hbalance]
        have := hs.reserved_le
        omega
  | debit =>
      obtain ⟨hsucceeds, hreserved, -, hbalance, hnot⟩ := debit_ok h
      refine ⟨hsucceeds, fun hs => ?_⟩
      have hcovered := hs.covered hnot
      have hlow := hs.reserved_nonneg
      have hfits : Word.FitsInt64 (s.balance.toInt - amount.val.toInt) := by
        obtain ⟨-, hhigh⟩ := Word.fits_toInt s.balance
        unfold Word.FitsInt64 Word.minInt64 Word.maxInt64 at *
        omega
      have hmoved : t.balance.toInt = s.balance.toInt - amount.val.toInt := by
        rw [hbalance, Word.toInt_sub_of_fits hfits]
      refine ⟨⟨hreserved ▸ hlow, ?_⟩, ?_⟩
      · rw [hreserved, hmoved]
        omega
      · rw [hmoved, Side.signed]
        omega

theorem move_announced {side : Side} {u : BalanceUpdated}
    (h : s.move side amount now = .ok (t, u)) :
    t.reserved = s.reserved ∧ ∃ change : Int64, u = t.balanceUpdated s.balance change ∧
      change.toInt = side.signed amount.val.toInt := by
  cases side with
  | credit =>
      obtain ⟨-, hreserved, hu, -⟩ := credit_ok h
      exact ⟨hreserved, amount.val, hu, rfl⟩
  | debit =>
      obtain ⟨-, hreserved, hu, -⟩ := debit_ok h
      exact ⟨hreserved, -amount.val, hu, Word.toInt_neg_of_pos amount.toInt_pos⟩

end Slot

end BalanceLedger
