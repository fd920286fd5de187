/-
# `Proofs.Statement` — the history of a slot is a statement of account

A history lists entries by their dates, and by their places in the log where the dates
are the same.  What a statement of account needs is another order, that in which the
commits have moved the balance: each line has to show the balance that comes of its own
amount and of the balance on the line below it.

Dates go along with commits, and so the two orders are one for every slot, in whatever
way calls have come between each other.  That is `Dated.pairwise_entriesOn`, and it is
where the steady clock comes in.  It holds for the entries of one slot only: those of
another slot can stand in the log before an older entry.

What each line shows is taken from the books of the slot, by `Books.shows`,
`Books.isChain` and `Books.balance_eq`.  Reservations move no balance and have no line.

A statement is read page by page, and pages of any size fit together: `Query.pages` is
the program that reads them, and `exists_pages` says that it lists the lines as far as
the pages reach.  `history_states_account` puts the three together as `Stated`.
-/
import BalanceLedger.Operation.Query
import BalanceLedger.Proofs.Conservation
import BalanceLedger.Proofs.Dating
import BalanceLedger.Proofs.Session
import Mathlib.Data.List.Chain

namespace BalanceLedger

open Store (ChangeSet Memory)
open Time (Instant)

/-! ## Reading pages -/

def HistoryQuery.ofSlot (key : Slot.Key) (size number : Nat) : HistoryQuery where
  account := key.1
  currency := some key.2
  page := .clamp (Int64.ofNat (number * size)) (Int64.ofNat size)

/-- The first pages of all entries of a slot, one after the other, each asked for by
`HistoryQuery.ofSlot`. -/
def Query.pages (key : Slot.Key) (size count : Nat) : Operation (List HistoryPage) :=
  (List.range count).mapM fun number => history (.ofSlot key size number)

section

variable {key : Slot.Key} {size number : Nat}

theorem HistoryQuery.selects_ofSlot (e : Entry) :
    (ofSlot key size number).selects e = decide (e.slotKey = key) := by
  have hkey : e.slotKey = key ↔ e.account = key.1 ∧ key.2 = e.currency :=
    Prod.ext_iff.trans (and_congr_right fun _ => eq_comm)
  simp [selects, ofSlot, hkey]

theorem HistoryQuery.cut_ofSlot {α : Type} (hpos : 1 ≤ size) (hmax : size ≤ maxPageSize)
    (hskip : ((number * size : Nat) : Int) ≤ Word.maxInt64) (xs : List α) :
    (ofSlot key size number).page.cut xs = (xs.drop (number * size)).take size := by
  have hsize : (size : Int) ≤ Word.maxInt64 := by
    unfold maxPageSize at hmax
    unfold Word.maxInt64
    omega
  have hdrop : (Int64.ofNat (number * size)).toInt.toNat = number * size := by
    rw [Word.toInt_ofNat_of_le hskip, Int.toNat_natCast]
  have htake : max 1 (min (Int64.ofNat size).toInt.toNat maxPageSize) = size := by
    rw [Word.toInt_ofNat_of_le hsize, Int.toNat_natCast, Nat.min_eq_left hmax, Nat.max_eq_right hpos]
  show (xs.drop (Int64.ofNat (number * size)).toInt.toNat).take
    (max 1 (min (Int64.ofNat size).toInt.toNat maxPageSize)) = _
  rw [hdrop, htake]

theorem flatMap_cut {α : Type} (xs : List α) (size count : Nat) :
    ((List.range count).flatMap fun number => (xs.drop (number * size)).take size) =
      xs.take (count * size) := by
  induction count with
  | zero => simp
  | succ count ih =>
      rw [List.range_succ, List.flatMap_append, List.flatMap_singleton, ih, Nat.succ_mul,
        List.take_add]

theorem exists_enough (length : Nat) (hpos : 1 ≤ size) :
    ∃ count, (∀ number < count, number * size < length) ∧ length ≤ count * size := by
  have hmany : ∃ count, length ≤ count * size := ⟨length, Nat.le_mul_of_pos_right _ hpos⟩
  refine ⟨Nat.find hmany, fun number hnumber => ?_, Nat.find_spec hmany⟩
  exact Nat.lt_of_not_le (Nat.find_min hmany hnumber)

end

namespace Program

variable {around : Surroundings}

theorem play_history_bind {β : Type} {query : HistoryQuery} (h : query.since = none)
    (f : HistoryPage → Operation β) (s : Session) :
    (Query.history query >>= f).run.play around s =
      (f (s.memory.history query)).run.play around (s.after around (.store (.history query))) := by
  obtain ⟨account, currency, side, since, upTo, page⟩ := query
  obtain rfl : since = none := h
  rfl

theorem exists_play_histories (around : Surroundings) (ask : Nat → HistoryQuery)
    (h : ∀ n, (ask n).since = none) (ns : List Nat) (s : Session) :
    ∃ t : Session, t.memory = s.memory ∧
      (ns.mapM fun n => Query.history (ask n)).run.play around s =
        (.ok (ns.map fun n => s.memory.history (ask n)), t) := by
  induction ns generalizing s with
  | nil => exact ⟨s, rfl, rfl⟩
  | cons n ns ih =>
      obtain ⟨t, hmemory, hrest⟩ := ih (s.after around (.store (.history (ask n))))
      refine ⟨t, hmemory, ?_⟩
      rw [List.mapM_cons, play_history_bind (h n), ExceptT.run_bind]
      refine (play_bind _ _ _).trans ?_
      rw [hrest]
      rfl

end Program

/-- Pages that are read one after the other list what a slot has, as far as they reach. -/
theorem Query.exists_pages (around : Surroundings) {m : Memory} {key : Slot.Key}
    {lines : List Entry} (hlines : ∀ size number, m.selected (.ofSlot key size number) = lines)
    (hlength : (lines.length : Int) ≤ Word.maxInt64) {size count : Nat} (hpos : 1 ≤ size)
    (hmax : size ≤ maxPageSize)
    (hskip : ∀ number < count, ((number * size : Nat) : Int) ≤ Word.maxInt64) :
    ∃ read, ((pages key size count).run.play around { memory := m }).1 = .ok read ∧
      read.flatMap HistoryPage.entries = lines.take (count * size) ∧
      ∀ page ∈ read, page.total.toInt = lines.length := by
  obtain ⟨t, -, hplay⟩ := Program.exists_play_histories around (.ofSlot key size) (fun _ => rfl)
    (List.range count) { memory := m }
  refine ⟨_, congrArg Prod.fst hplay, ?_, fun page hpage => ?_⟩
  · rw [List.flatMap_map, ← flatMap_cut]
    refine List.flatMap_congr fun number hnumber => ?_
    rw [Memory.history, hlines]
    exact HistoryQuery.cut_ofSlot hpos hmax (hskip number (List.mem_range.mp hnumber)) lines
  · obtain ⟨number, -, rfl⟩ := List.mem_map.mp hpage
    rw [Memory.history, hlines]
    exact Word.toInt_ofNat_of_le hlength

/-! ## The lines of a slot -/

namespace Store.Memory

/-- The entries that a journal has committed on a slot, in order. -/
def entriesOn (key : Slot.Key) (journal : List (Nat × ChangeSet)) : List Entry :=
  (changesOn key journal).flatMap fun c => c.entry.toList

theorem entriesOn_eq {key : Slot.Key} {journal : List (Nat × ChangeSet)}
    (h : ∀ p ∈ journal, ∀ e, p.2.entry = some e → e.slotKey = p.2.slot.key) :
    entriesOn key journal =
      (journal.flatMap fun p => p.2.entry.toList).filter fun e => e.slotKey = key := by
  induction journal with
  | nil => rfl
  | cons p journal ih =>
      have hrest := ih fun q hq => h q (List.mem_cons_of_mem _ hq)
      have hentry := h p List.mem_cons_self
      rw [List.flatMap_cons, List.filter_append, ← hrest]
      by_cases hkey : p.2.slot.key = key
      · have hall : p.2.entry.toList.filter (fun e => e.slotKey = key) = p.2.entry.toList :=
          List.filter_eq_self.mpr fun e he =>
            decide_eq_true ((hentry e (Option.mem_toList.mp he)).trans hkey)
        rw [hall]
        simp [entriesOn, changesOn, hkey]
      · have hnone : p.2.entry.toList.filter (fun e => e.slotKey = key) = [] :=
          List.filter_eq_nil_iff.mpr fun e he => by
            simpa [hentry e (Option.mem_toList.mp he)] using hkey
        rw [hnone]
        simp [entriesOn, changesOn, hkey]

theorem selected_ofSlot {m : Memory} {key : Slot.Key} {entries : List Entry}
    (hentries : (m.entries.filter fun e => e.slotKey = key) = entries)
    (hsorted : (entries.map Entry.date).Pairwise (· ≤ ·)) (size number : Nat) :
    m.selected (.ofSlot key size number) = entries.reverse := by
  have hfilter : m.entries.filter (HistoryQuery.ofSlot key size number).selects = entries :=
    (List.filter_congr fun e _ => HistoryQuery.selects_ofSlot e).trans hentries
  rw [selected, hfilter]
  refine List.mergeSort_of_pairwise (List.pairwise_reverse.mpr ?_)
  exact (List.pairwise_map.mp hsorted).imp fun h => decide_eq_true h

end Store.Memory

open Store.Memory (entriesOn)

/-- The entries of a slot are dated in the order of their commits: `entriesOn` is sorted by date. -/
theorem Dated.pairwise_entriesOn {m : Memory} {journal : List (Nat × ChangeSet)}
    {readings : List Instant} {basis : Nat → Basis} (h : Dated m journal readings basis)
    (key : Slot.Key) : ((entriesOn key journal).map Entry.date).Pairwise (· ≤ ·) := by
  refine (h.sorted key).sublist ?_
  rw [entriesOn, List.map_flatMap]
  exact List.Sublist.flatMap_right _ fun c _ => List.sublist_append_left ..

namespace Traffic

variable {s : Traffic} {key : Slot.Key} {m : Memory} {j : List (Nat × ChangeSet)}

theorem slotKey_entry (h : (Call.charter .empty).Upheld .empty s) {p : Nat × ChangeSet}
    (hp : p ∈ s.journal) {e : Entry} (he : p.2.entry = some e) : e.slotKey = p.2.slot.key := by
  obtain ⟨place, c⟩ := p
  obtain ⟨j, hj⟩ := exists_prefix_of_mem hp
  obtain ⟨_, _, key, _, _, _, x, -, -, -, hcommits⟩ := exists_commits h hj
  have hslot : c.slot.key = key := hcommits.written.slot ▸ hcommits.keeps.slotKey
  exact (hcommits.keeps.entry e (hcommits.written.entry ▸ he)).1.trans hslot.symm

theorem filter_entries (h : (Call.charter .empty).Upheld .empty s) (key : Slot.Key) :
    (s.memory.entries.filter fun e => e.slotKey = key) = entriesOn key s.journal := by
  rw [Memory.entriesOn_eq fun p hp e he => slotKey_entry h hp he, h.memory, Memory.entries_after]
  rfl

/-- An entry of a slot shows the sum of the entries of the slot up to and including itself. -/
theorem Books.shows (h : Books key m j) {older newer : List Entry} {e : Entry}
    (he : (m.entries.filter fun e => e.slotKey = key) = older ++ e :: newer) :
    e.runningBalance.toInt =
      (older.map fun e => e.signedAmount.toInt).sum + e.signedAmount.toInt := by
  obtain ⟨front, rest, hlog, holder, hrest⟩ := List.filter_eq_append_iff.mp he
  obtain ⟨others, back, rfl, hothers, hkey, -⟩ := List.filter_eq_cons_iff.mp hrest
  have hat : m.entries = (front ++ others) ++ e :: back := by rw [hlog, List.append_assoc]
  have hplace : m.entries[(front ++ others).length]? = some e := by
    rw [hat, List.getElem?_append_right (Nat.le_refl _), Nat.sub_self]
    rfl
  have hupto : m.entries.take ((front ++ others).length + 1) = (front ++ others) ++ [e] := by
    rw [hat, List.take_length_add_append]
    rfl
  have hnone : others.filter (fun e => e.slotKey = key) = [] :=
    List.filter_eq_nil_iff.mpr hothers
  rw [h.running _ e hplace (of_decide_eq_true hkey), hupto, Entry.total, List.filter_append,
    List.filter_append, holder, hnone, List.append_nil, List.filter_singleton, hkey]
  simp

/-- The last entry of a slot shows its `balance`. -/
theorem Books.balance_eq (h : Books key m j) {slot : Slot}
    (hslot : m.slots.get? key = some slot) {older : List Entry} {e : Entry}
    (he : (m.entries.filter fun e => e.slotKey = key) = older ++ [e]) :
    slot.balance = e.runningBalance := by
  have hbalance := h.balance
  rw [hslot, Entry.total, he, List.map_append, List.sum_append] at hbalance
  refine Int64.toInt_inj.mp (hbalance.trans ?_)
  rw [h.shows he]
  simp

/-- An entry of a slot that is not the first adds its `signedAmount` to what the one before it
shows. -/
theorem Books.isChain (h : Books key m j) :
    (m.entries.filter fun e => e.slotKey = key).IsChain fun older newer =>
      newer.runningBalance.toInt = older.runningBalance.toInt + newer.signedAmount.toInt := by
  refine List.isChain_iff_forall_rel_of_append_cons_cons.mpr fun {older newer front back} he => ?_
  rw [h.shows he, h.shows (he.trans (List.append_cons ..))]
  simp

theorem Books.first (h : Books key m j) {newer : List Entry} {e : Entry}
    (he : (m.entries.filter fun e => e.slotKey = key) = e :: newer) :
    e.runningBalance = e.signedAmount := by
  refine Int64.toInt_inj.mp ((h.shows (he.trans (List.nil_append _).symm)).trans ?_)
  simp

theorem Books.stored (h : Books key m j) {e : Entry} (he : e ∈ entriesOn key j) :
    ∃ slot, m.slots.get? key = some slot := by
  obtain ⟨c, hc, -⟩ := List.mem_flatMap.mp he
  obtain ⟨p, hp, -⟩ := List.mem_map.mp hc
  obtain ⟨hmem, hkey⟩ := List.mem_filter.mp hp
  exact h.stored_iff.mpr ⟨p, hmem, of_decide_eq_true hkey⟩

/-- What is on record for a slot: the lines of its statement, the newest first. -/
def lines (s : Traffic) (key : Slot.Key) : List Entry :=
  (entriesOn key s.journal).reverse

/-- The history of a slot is a statement of account. -/
structure Stated (s : Traffic) (key : Slot.Key) : Prop where
  /-- There is a line for every entry of the slot in the log, and for nothing else. -/
  complete : (s.lines key).reverse = s.memory.entries.filter fun e => e.slotKey = key
  /-- Pages of any size, read one after the other, list the lines. -/
  pages : ∀ around size count, 1 ≤ size → size ≤ maxPageSize →
    (∀ number < count, ((number * size : Nat) : Int) ≤ Word.maxInt64) →
      ∃ pages, ((Query.pages key size count).run.play around { memory := s.memory }).1 = .ok pages ∧
        pages.flatMap HistoryPage.entries = (s.lines key).take (count * size) ∧
        ∀ page ∈ pages, page.total.toInt = (s.lines key).length
  /-- There are pages enough to reach the end. -/
  reached : ∀ size, 1 ≤ size → ∃ count,
    (∀ number < count, ((number * size : Nat) : Int) ≤ Word.maxInt64) ∧
      (s.lines key).length ≤ count * size
  /-- The newest line shows the balance of the slot. -/
  newest : ∀ e, (s.lines key).head? = some e →
    (s.memory.slots.get? key).map Slot.balance = some e.runningBalance
  /-- Every line adds its amount to the balance on the line below it. -/
  chain : (s.lines key).IsChain fun newer older =>
    newer.runningBalance.toInt = older.runningBalance.toInt + newer.signedAmount.toInt
  /-- The oldest line starts from nothing. -/
  oldest : ∀ e, (s.lines key).getLast? = some e → e.runningBalance = e.signedAmount

end Traffic

/-- Calls of any kind, on a store in which nothing has happened, come between each other in any way:
the history of every slot is `Stated`, a statement of account, as long as the clock does not step
back and the store fits a machine. -/
theorem history_states_account (steps : List (Interleaving.Step Call)) :
    let start : Traffic := .on .empty
    let s : Traffic := start.run steps
    start.Steady steps → s.memory.Holdable → ∀ key, s.Stated key := by
  intro start s hsteady hfits key
  have h : (Call.charter .empty).Upheld .empty s := Traffic.upheld Memory.indexed_empty steps
  have hfew := fun key => Traffic.commitsOn_lt_versions h hfits (List.prefix_refl _) key
  have hbooks := Traffic.books_after h hfew key s.journal (List.prefix_refl _)
  rw [← h.memory] at hbooks
  have hdated := Interleaving.dated_run Call.careful_execute steps hsteady hfew
  have hlog := Traffic.filter_entries h key
  have hlength : ((s.lines key).length : Int) ≤ Word.maxInt64 := by
    have hentries := Traffic.length_entries_after_le h hfits (List.prefix_refl _)
    have hle := List.length_filter_le (fun e : Entry => decide (e.slotKey = key)) s.memory.entries
    rw [← h.memory] at hentries
    rw [Traffic.lines, List.length_reverse, ← hlog]
    omega
  have hselected : ∀ size number, s.memory.selected (.ofSlot key size number) = s.lines key :=
    Memory.selected_ofSlot hlog (hdated.pairwise_entriesOn key)
  refine ⟨?complete, ?pages, ?reached, ?newest, ?chain, ?oldest⟩
  case complete =>
    rw [Traffic.lines, List.reverse_reverse, hlog]
  case pages =>
    intro around size count hpos hmax hskip
    exact Query.exists_pages around hselected hlength hpos hmax hskip
  case reached =>
    intro size hpos
    obtain ⟨count, hstarts, henough⟩ := exists_enough (s.lines key).length hpos
    refine ⟨count, fun number hnumber => ?_, henough⟩
    have hstart := hstarts number hnumber
    omega
  case newest =>
    intro e he
    rw [Traffic.lines, List.head?_reverse] at he
    obtain ⟨older, holder⟩ := List.getLast?_eq_some_iff.mp he
    have hmem : e ∈ entriesOn key s.journal := by
      rw [holder]
      exact List.mem_append_right older (List.mem_singleton.mpr rfl)
    obtain ⟨slot, hslot⟩ := hbooks.stored hmem
    rw [hslot, Option.map_some, hbooks.balance_eq hslot (hlog.trans holder)]
  case chain =>
    rw [Traffic.lines, ← hlog]
    exact List.isChain_reverse.mpr hbooks.isChain
  case oldest =>
    intro e he
    rw [Traffic.lines, List.getLast?_reverse] at he
    obtain ⟨newer, hnewer⟩ := List.head?_eq_some_iff.mp he
    exact hbooks.first (hlog.trans hnewer)

/-- A credit has dated its entry when another one, on another slot, is carried out as a whole, so
the log has its older entry later.  On its slot a reservation loses the race to a debit and plans
again.  Then the debit is voided, while the clock stands still. -/
def lateCredit : List (Interleaving.Step Call) :=
  let call (command : Command) : Interleaving.Step Call := .start { command }
  let acts (place first : Nat) (seconds : List Int) : List (Interleaving.Step Call) :=
    seconds.zipIdx.map fun p =>
      .act place {
        now := { Instant.epoch with seconds := p.1 }
        id := ⟨BitVec.ofNat 128 (first + p.2)⟩ }
  [call (.post (.credit .nil "MAD" 100 "in")), call (.post (.credit ⟨1⟩ "MAD" 50 "in"))] ++
    acts 0 0 (List.replicate 9 10) ++ acts 1 20 (List.replicate 12 20) ++
    acts 0 40 (List.replicate 3 30) ++
    [call (.earmark .reserve { account := .nil, currency := "MAD", amount := 30 }),
      call (.post (.debit .nil "MAD" 20 "out"))] ++
    acts 2 50 (List.replicate 3 40) ++ acts 3 60 (List.replicate 12 50) ++
    acts 2 80 (List.replicate 20 50) ++
    [call (.void { target := ⟨63⟩, reason := "wrong" })] ++ acts 4 120 (List.replicate 20 50)

theorem history_states_account_lateCredit :
    let start : Traffic := .on .empty
    let s : Traffic := start.run lateCredit
    start.Steady lateCredit ∧ s.memory.Holdable ∧
      s.memory.entries.map (fun e => e.date.seconds) = [20, 10, 50, 50] ∧
      (s.lines (.nil, ⟨"MAD", by decide⟩)).map (fun e => (e.signedAmount, e.runningBalance)) =
        [(20, 100), (-20, 80), (100, 100)] ∧
      ∀ key, s.Stated key := by
  intro start s
  have hsteady : start.Steady lateCredit := by decide +kernel
  have hfits : s.memory.Holdable := by
    unfold Memory.Holdable
    decide +kernel
  exact ⟨hsteady, hfits, by decide +kernel, by decide +kernel,
    history_states_account lateCredit hsteady hfits⟩

end BalanceLedger
