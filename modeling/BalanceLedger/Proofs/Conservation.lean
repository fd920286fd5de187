/-
# `Proofs.Conservation` — money is conserved

The `Books` of a slot are the slot and its entries in the log.  In whatever way calls
come between each other, each commit adds to the books of one slot what its effect says
of the slot as it is at that moment, and leaves the books of all others alone.  So the
books stay right: the version counts the commits, no more is reserved than there is, the
balance is the sum of what the entries state, and each entry shows the sum up to itself.

The induction is on the journal.  `Books.kept` is the step for the slot of a commit and
`Books.other` the step for every other slot, and `books_after` puts them together.  The
invariant is about all four figures at once, because none of them is kept by itself: the
sum needs that nothing wraps, which needs that the slot is solvent, and the running
balance of an entry needs the sum.

`money_conserved` reads the books off at the end of an interleaving.  It asks that no
slot has had so many commits that its version does not count them.  Otherwise a version
would come round, and a slot could be found at the version at which it was read without
being what was read.
-/
import BalanceLedger.Proofs.Traffic
import Mathlib.Algebra.Ring.Int.Defs

namespace BalanceLedger

open Store (ChangeSet Memory)

/-- The sum of what the entries of a slot state, by `signedAmount`. -/
def Entry.total (key : Slot.Key) (log : List Entry) : Int :=
  ((log.filter fun e => e.slotKey = key).map fun e => e.signedAmount.toInt).sum

namespace Traffic

variable {s : Traffic} {key : Slot.Key} {m : Memory} {j : List (Nat × ChangeSet)}

/-- The books of a slot are right after the commits of a journal. -/
structure Books (key : Slot.Key) (m : Memory) (j : List (Nat × ChangeSet)) : Prop where
  stored_iff : (∃ slot, m.slots.get? key = some slot) ↔ ∃ p ∈ j, p.2.slot.key = key
  solvent : ∀ slot, m.slots.get? key = some slot → slot.Solvent
  balance : (Slot.balanceRead (m.slots.get? key)).toInt = Entry.total key m.entries
  running : ∀ n e, m.entries[n]? = some e → e.slotKey = key →
    e.runningBalance.toInt = Entry.total key (m.entries.take (n + 1))

theorem total_append (key : Slot.Key) (log more : List Entry) :
    Entry.total key (log ++ more) = Entry.total key log + Entry.total key more := by
  simp [Entry.total]

theorem total_toList_of_eq {entry : Option Entry} (h : ∀ e, entry = some e → e.slotKey = key) :
    Entry.total key entry.toList = (entry.map fun e => e.signedAmount.toInt).getD 0 := by
  cases entry with
  | none => rfl
  | some e => simp [Entry.total, h e rfl]

theorem total_toList_of_ne {entry : Option Entry} (h : ∀ e, entry = some e → e.slotKey ≠ key) :
    Entry.total key entry.toList = 0 := by
  cases entry with
  | none => rfl
  | some e => simp [Entry.total, h e rfl]

theorem books_empty (key : Slot.Key) : Books key .empty [] where
  stored_iff := by simp [Memory.empty, Index.get?, Index.find?]
  solvent slot h := absurd h (by simp [Memory.empty, Index.get?, Index.find?])
  balance := rfl
  running n e h := absurd h (by simp [Memory.empty])

theorem Books.running_append (h : Books key m j) {more : List Entry} {n : Nat} {e : Entry}
    (hn : m.entries[n]? = some e) (he : e.slotKey = key) :
    e.runningBalance.toInt = Entry.total key ((m.entries ++ more).take (n + 1)) := by
  have hlt := (List.getElem?_eq_some_iff.mp hn).1
  rw [List.take_append_of_le_length hlt]
  exact h.running n e hn he

/-- The books of other slots are left alone. -/
theorem Books.other (h : Books key m j) {place : Nat} {c : ChangeSet} (hslot : c.slot.key ≠ key)
    (hentry : ∀ e, c.entry = some e → e.slotKey ≠ key) :
    Books key (m.write c) (j ++ [(place, c)]) := by
  have hget : (m.write c).slots.get? key = m.slots.get? key := by
    rw [Memory.get?_slots_write, if_neg hslot]
  refine ⟨?_, ?_, ?_, ?_⟩
  · rw [hget, h.stored_iff]
    simp [hslot]
  · rw [hget]
    exact h.solvent
  · rw [hget, h.balance, Memory.entries_write, total_append, total_toList_of_ne hentry,
      Int.add_zero]
  · intro n e hn he
    rw [Memory.entries_write] at hn ⊢
    rcases Nat.lt_or_ge n m.entries.length with hlt | hge
    · rw [List.getElem?_append_left hlt] at hn
      exact h.running_append hn he
    · rw [List.getElem?_append_right hge] at hn
      exact absurd he (hentry e (Option.mem_toList.mp (List.mem_of_getElem? hn)))

/-- An `Effect` keeps the books of its slot. -/
theorem Books.kept (h : Books key m j) {place : Nat} {c : ChangeSet} {x : Effect} {origin : Origin}
    {ids : List Uuid} (hkeeps : x.Keeps (m.slots.get? key) key)
    (hwritten : x.Written origin (m.slots.get? key) ids c) :
    Books key (m.write c) (j ++ [(place, c)]) := by
  have hkey : c.slot.key = key := hwritten.slot ▸ hkeeps.slotKey
  have hget : (m.write c).slots.get? key = some x.slot := by
    rw [Memory.get?_slots_write, if_pos hkey, hwritten.slot]
  obtain ⟨hsolvent, hbalance⟩ := hkeeps.balance h.solvent
  have htotal : Entry.total key (m.write c).entries = x.slot.balance.toInt := by
    rw [Memory.entries_write, total_append, hwritten.entry,
      total_toList_of_eq fun e he => (hkeeps.entry e he).1, hbalance, h.balance]
  refine ⟨?_, ?_, ?_, ?_⟩
  · rw [hget]
    simp [hkey]
  · intro slot hslot
    obtain rfl := Option.some.inj (hget.symm.trans hslot)
    exact hsolvent
  · rw [hget, htotal]
    rfl
  · intro n e hn he
    rcases Nat.lt_or_ge n m.entries.length with hlt | hge
    · rw [Memory.entries_write] at hn ⊢
      rw [List.getElem?_append_left hlt] at hn
      exact h.running_append hn he
    · have hlast : (m.write c).entries.take (n + 1) = (m.write c).entries := by
        refine List.take_of_length_le ?_
        rw [Memory.entries_write]
        cases c.entry <;> simp <;> omega
      rw [hlast, htotal]
      rw [Memory.entries_write, List.getElem?_append_right hge] at hn
      have := Option.mem_toList.mp (List.mem_of_getElem? hn)
      rw [hwritten.entry] at this
      rw [(hkeeps.entry e this).2]

theorem books_after (h : (Call.charter .empty).Upheld .empty s)
    (hfew : ∀ key, Memory.commitsOn key s.journal < Memory.versions) (key : Slot.Key) :
    ∀ j, j <+: s.journal → Books key (Memory.empty.after j) j := by
  intro j
  induction j using List.reverseRecOn with
  | nil => exact fun _ => books_empty key
  | append_singleton j p ih =>
      intro hj
      obtain ⟨place, c⟩ := p
      have hj' := (List.prefix_append j [(place, c)]).trans hj
      obtain ⟨p, drawn, key', stored, ids, ids', x, -, -, -, hcommits⟩ := exists_commits h hj
      have hfew' : Memory.commitsOn key' j < Memory.versions := by
        obtain ⟨rest, hrest⟩ := hj'
        have := hfew key'
        rw [← hrest, Memory.commitsOn_append] at this
        omega
      obtain rfl := hcommits.current hfew'
      have hslot : c.slot.key = key' := hcommits.written.slot ▸ hcommits.keeps.slotKey
      rw [Memory.after_concat]
      by_cases hkey : key' = key
      · subst hkey
        exact (ih hj').kept hcommits.keeps hcommits.written
      · refine (ih hj').other (hslot ▸ hkey) fun e he => ?_
        rw [hcommits.written.entry] at he
        rw [(hcommits.keeps.entry e he).1]
        exact hkey

/-- What the books of a slot show. -/
structure Conserved (s : Traffic) (key : Slot.Key) : Prop where
  /-- The slot exists exactly if some call has committed on it. -/
  stored_iff : (∃ slot, s.memory.slots.get? key = some slot) ↔ ∃ p ∈ s.journal, p.2.slot.key = key
  slot_key : ∀ slot, s.memory.slots.get? key = some slot → slot.key = key
  /-- The version is the number of commits. -/
  version : ∀ slot, s.memory.slots.get? key = some slot →
    slot.version.toInt = Memory.commitsOn key s.journal
  bounds : ∀ slot, s.memory.slots.get? key = some slot →
    0 ≤ slot.reserved.toInt ∧ slot.reserved.toInt ≤ slot.balance.toInt ∧
      slot.balance.toInt ≤ Word.maxInt64
  balance : ∀ slot, s.memory.slots.get? key = some slot →
    slot.balance.toInt = Entry.total key s.memory.entries
  /-- Every entry shows the sum of the entries of its slot up to and including itself. -/
  running : ∀ n e, s.memory.entries[n]? = some e → e.slotKey = key →
    e.runningBalance.toInt = Entry.total key (s.memory.entries.take (n + 1))

end Traffic

/-- Calls of any kind, on a store in which nothing has happened, come between each other in any way:
the `Books` of every slot are right, as long as no slot has had so many commits that its version
does not count them. -/
theorem money_conserved (steps : List (Interleaving.Step Call)) :
    let s : Traffic := (Interleaving.on .empty).run steps
    (∀ key, (Memory.commitsOn key s.journal : Int) < Word.maxInt64) → ∀ key, s.Conserved key := by
  intro s hfew key
  have h : (Call.charter .empty).Upheld .empty s := Traffic.upheld Memory.indexed_empty steps
  unfold Word.maxInt64 at hfew
  have hversions : ∀ key, Memory.commitsOn key s.journal < Memory.versions := by
    intro key
    have := hfew key
    unfold Memory.versions Word.maxNat64
    omega
  have hbooks := Traffic.books_after h hversions key s.journal (List.prefix_refl _)
  rw [← h.memory] at hbooks
  have hindexed := Traffic.indexed_run Memory.indexed_empty steps
  refine ⟨hbooks.stored_iff, hindexed.slot_key key, ?_, ?_, ?_, hbooks.running⟩
  · intro slot hslot
    have horderly : Memory.empty.Orderly ([] ++ s.journal) := h.orderly
    have hversion := Memory.versionOf_after key horderly
    rw [List.nil_append, ← h.memory, Memory.versionOf, hslot] at hversion
    have hsmall := hfew key
    have hcount : slot.version = Int64.ofNat (Memory.commitsOn key s.journal) := by
      simpa [Memory.versionOf, Memory.empty, Index.get?, Index.find?] using hversion
    rw [hcount, Int64.toInt_ofNat_of_lt (by omega)]
  · intro slot hslot
    have hsolvent := hbooks.solvent slot hslot
    exact ⟨hsolvent.reserved_nonneg, hsolvent.reserved_le, (Word.fits_toInt _).2⟩
  · intro slot hslot
    have := hbooks.balance
    rw [hslot] at this
    exact this

/-- A credit; then a reservation that has read the slot when a debit commits, so that it has to plan
again; then the void of the debit. -/
def creditReserveDebitVoid : List (Interleaving.Step Call) :=
  let call (command : Command) : Interleaving.Step Call := .start { command }
  let acts (place first count : Nat) : List (Interleaving.Step Call) :=
    (List.range count).map fun n =>
      .act place { now := .epoch, id := ⟨BitVec.ofNat 128 (first + n)⟩ }
  [call (.post (.credit .nil "MAD" 100 "in"))] ++ acts 0 0 12 ++
    [call (.earmark .reserve { account := .nil, currency := "MAD", amount := 30 }),
      call (.post (.debit .nil "MAD" 20 "out"))] ++
    acts 1 100 3 ++ acts 2 200 12 ++ acts 1 300 20 ++
    [call (.void { target := ⟨203⟩, reason := "wrong" })] ++ acts 3 400 20

theorem money_conserved_creditReserveDebitVoid :
    let s : Traffic := (Interleaving.on .empty).run creditReserveDebitVoid
    (∀ key, (Memory.commitsOn key s.journal : Int) < Word.maxInt64) ∧
      s.memory.entries.map (fun e => e.runningBalance) = [100, 80, 100] ∧
      ∀ key, s.Conserved key := by
  have hfew : ∀ key, (Memory.commitsOn key
      ((Interleaving.on .empty).run creditReserveDebitVoid : Traffic).journal : Int) <
        Word.maxInt64 := by
    intro key
    refine Int.lt_of_le_of_lt (Int.ofNat_le.mpr List.countP_le_length) ?_
    decide +kernel
  exact ⟨hfew, by decide +kernel, money_conserved creditReserveDebitVoid hfew⟩

end BalanceLedger
