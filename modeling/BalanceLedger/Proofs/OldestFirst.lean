/-
# `Proofs.OldestFirst` — what a claim takes, and what it leaves

A claim selects messages by what stands in them, sorts what it has selected, cuts the
list off and writes into the outbox at the places that are left.  Here it is said what
comes of that in terms of the outbox alone: the messages that can be claimed form a
queue, by the time of their events and by their places where the times are the same
(`Queues`), and a claim takes the first of the queue (`Takes`).  `claims_oldest_first`
has both, for every outbox and every batch, cutoff and clock.

Nothing is assumed of the outbox.  Ids may repeat, dates may lie in the future of the
clock, and messages may be held under claims that have no date.  So messages are told
apart by their places, not by their ids, and the lemmas about the message of an id do
not apply.

What is handed out is what stands in the outbox then, and its date is such that it
cannot be claimed again before it has grown old: `Takes.not_mem_queue`, which
`TakesOldest` adds to the rest.  The date can lie a microsecond after that of the claim
before, ahead of the clock, and the last microsecond of the calendar has no other one
after it.  So a date is in the calendar only under a condition, and `inRange_claimTime`
says which.
-/
import BalanceLedger.Proofs.Tokens

namespace BalanceLedger

open Outbox (Message)
open Store (Memory)
open Store.Memory (claimTime isEligible take)
open Time (Instant)

/-! ## Dates -/

namespace Time.Instant

theorem le_antisymm {s t : Instant} (h : s ≤ t) (h' : t ≤ s) : s = t := by
  rw [le_iff] at h h'
  cases s
  cases t
  congr 1 <;> simp only at h h' <;> omega

theorem le_of_lt {s t : Instant} (h : s < t) : s ≤ t := by
  rw [le_iff]
  rw [lt_iff] at h
  omega

end Time.Instant

theorem le_claimTime (previous : Option Instant) (now : Instant) :
    now ≤ claimTime previous now := by
  cases previous with
  | none => exact Time.Instant.lt_irrefl now
  | some t =>
      by_cases hstalled : now ≤ t
      · rw [claimTime, if_pos hstalled]
        exact Time.Instant.le_trans hstalled (Time.Instant.le_of_lt t.lt_nextMicro)
      · rw [claimTime, if_neg hstalled]
        exact Time.Instant.lt_irrefl now

/-- What `claimTime` answers is in the calendar if the clock is, and the microsecond after the claim
before. -/
theorem inRange_claimTime {previous : Option Instant} {now : Instant} (hnow : now.inRange = true)
    (hprevious : ∀ t, previous = some t → t.nextMicro.inRange = true) :
    (claimTime previous now).inRange = true := by
  cases previous with
  | none => exact hnow
  | some t =>
      by_cases hstalled : now ≤ t
      · rw [claimTime, if_pos hstalled]
        exact hprevious t rfl
      · rw [claimTime, if_neg hstalled]
        exact hnow

/-! ## Sorting what is in order already -/

/-- A sort by a key is in order by the key, and those that are alike stay as they were. -/
theorem pairwise_mergeSort_of_pairwise {α : Type} {le : α → α → Bool} {r : α → α → Prop}
    (trans : ∀ a b c, le a b = true → le b c = true → le a c = true)
    (total : ∀ a b, (le a b || le b a) = true) {l : List α} (hl : l.Pairwise r) :
    (l.mergeSort le).Pairwise fun a b => le a b = true ∧ (le b a = true → r a b) := by
  induction l with
  | nil =>
      rw [List.mergeSort_nil]
      exact .nil
  | cons a l ih =>
      obtain ⟨hfirst, hrest⟩ := List.pairwise_cons.mp hl
      obtain ⟨before, after, hsorted, htail, hbefore⟩ := List.mergeSort_cons trans total a l
      have hle := List.pairwise_mergeSort trans total (a :: l)
      have hsplit := ih hrest
      rw [hsorted] at hle ⊢
      rw [htail] at hsplit
      obtain ⟨hlBefore, hlAfter, hlAcross⟩ := List.pairwise_append.mp hle
      obtain ⟨hearly, hlate, hacross⟩ := List.pairwise_append.mp hsplit
      refine List.pairwise_append.mpr ⟨hearly, List.pairwise_cons.mpr ⟨fun c hc => ?_, hlate⟩, ?_⟩
      · have hmem : c ∈ l.mergeSort le := htail ▸ List.mem_append_right before hc
        exact ⟨(List.pairwise_cons.mp hlAfter).1 c hc, fun _ => hfirst c (List.mem_mergeSort.mp hmem)⟩
      · intro b hb c hc
        rcases List.mem_cons.mp hc with rfl | hc
        · -- what stands before the first one is strictly before it
          have hstrict := hbefore b hb
          refine ⟨hlAcross b hb c List.mem_cons_self, fun h => ?_⟩
          rw [h] at hstrict
          exact absurd hstrict (by simp)
        · exact hacross b hb c hc

/-! ## The queue -/

/-- The message can be claimed: it waits, or it is held and its claim has grown old or has no date. -/
def Outbox.Message.IsClaimable (staleBefore : Instant) (x : Message) : Prop :=
  x.status = .pending ∨ x.status = .processing ∧ ∀ t, x.claimedAt = some t → t < staleBefore

theorem Outbox.Message.isEligible_iff {staleBefore : Instant} {x : Message} :
    isEligible staleBefore x = true ↔ x.IsClaimable staleBefore := by
  unfold isEligible IsClaimable
  cases hs : x.status <;> cases ht : x.claimedAt <;> simp

namespace Store.Memory

/-- The event of the first message is older, or it is of the same time and the message stands
before. -/
def IsOlder (p q : Message × Nat) : Prop :=
  p.1.occurredAt < q.1.occurredAt ∨ p.1.occurredAt = q.1.occurredAt ∧ p.2 < q.2

/-- The messages that can be claimed, with their places, oldest first: those for which `IsClaimable`
holds, in the order of `IsOlder`. -/
structure Queues (m : Memory) (staleBefore : Instant) (queue : List (Message × Nat)) : Prop where
  mem_iff : ∀ x i, (x, i) ∈ queue ↔ m.outbox[i]? = some x ∧ x.IsClaimable staleBefore
  ordered : queue.Pairwise IsOlder

variable {m : Memory} {staleBefore now : Instant} {batch : Nat}

theorem isOlder_of_le {p q : Message × Nat} (hle : p.1.occurredAt ≤ q.1.occurredAt)
    (hplace : q.1.occurredAt ≤ p.1.occurredAt → p.2 < q.2) : IsOlder p q := by
  by_cases hlt : p.1.occurredAt < q.1.occurredAt
  · exact .inl hlt
  · have hback : q.1.occurredAt ≤ p.1.occurredAt := hlt
    exact .inr ⟨Time.Instant.le_antisymm hle hback, hplace hback⟩

theorem queues_eligible (m : Memory) (staleBefore : Instant) :
    m.Queues staleBefore (m.eligible staleBefore) := by
  constructor
  case mem_iff =>
    intro x i
    rw [eligible, List.mem_mergeSort, List.mem_filter, List.mem_zipIdx_iff_getElem?,
      Message.isEligible_iff]
  case ordered =>
    have hplaces : (m.outbox.zipIdx.filter fun p => isEligible staleBefore p.1).Pairwise
        fun p q => p.2 < q.2 := by
      refine List.Pairwise.sublist List.filter_sublist (List.pairwise_map.mp ?_)
      rw [List.zipIdx_map_snd]
      exact List.pairwise_lt_range' 1
    refine (pairwise_mergeSort_of_pairwise (fun p q r hpq hqr => ?_) (fun p q => ?_)
      hplaces).imp fun {p q} h => ?_
    · exact decide_eq_true
        (Time.Instant.le_trans (of_decide_eq_true hpq) (of_decide_eq_true hqr))
    · simpa using Time.Instant.le_total p.1.occurredAt q.1.occurredAt
    · exact isOlder_of_le (of_decide_eq_true h.1) fun hback => h.2 (decide_eq_true hback)

/-- A claim at a reading of the clock takes the first messages of a queue, and hands out others for
them. -/
structure Takes (m : Memory) (batch : Nat) (staleBefore now : Instant)
    (queue : List (Message × Nat)) (claimed : List Message) (after : Memory) : Prop where
  queues : m.Queues staleBefore queue
  answer : m.answer now (.claim batch staleBefore) = (.ok claimed, after)
  length : claimed.length = min batch queue.length
  /-- What is handed out for a message stands in its place.  Only where it stands and how it is held
  has been written: it is held under a claim that is dated by the clock or later, and after the claim
  before. -/
  taken : ∀ (n : Nat) (x : Message) (i : Nat), (queue.take batch)[n]? = some (x, i) → ∃ t,
    claimed[n]? = some { x with status := .processing, claimedAt := some t } ∧
      after.outbox[i]? = claimed[n]? ∧ now ≤ t ∧ (∀ s, x.claimedAt = some s → s < t) ∧
      (now.inRange = true → (∀ s, x.claimedAt = some s → s.nextMicro.inRange = true) →
        t.inRange = true)
  /-- Nothing else has changed. -/
  others : ∀ i : Nat, (∀ x, (x, i) ∉ queue.take batch) → after.outbox[i]? = m.outbox[i]?
  ledger : after = { m with outbox := after.outbox }

theorem takes_claim (m : Memory) (batch : Nat) (staleBefore now : Instant) :
    m.Takes batch staleBefore now (m.eligible staleBefore) (m.claim batch staleBefore now).1
      (m.claim batch staleBefore now).2 := by
  refine ⟨queues_eligible m staleBefore, rfl, ?length, fun n x i hfirst => ?taken,
    fun i hnot => ?others, rfl⟩
  case length =>
    rw [claim_eq, List.length_map, chosen, List.length_take]
  case taken =>
    have hchosen : (x, i) ∈ m.chosen batch staleBefore := List.mem_of_getElem? hfirst
    have hplace := (of_mem_eligible (List.mem_of_mem_take hchosen)).1
    have hstored := getElem?_claim batch staleBefore now hplace
    rw [if_pos hchosen] at hstored
    have hclaimed : (m.claim batch staleBefore now).1[n]? = some (take now x) := by
      rw [claim_eq, List.getElem?_map, chosen, hfirst]
      rfl
    refine ⟨claimTime x.claimedAt now, hclaimed, hstored.trans hclaimed.symm,
      le_claimTime x.claimedAt now, fun s hs => ?_, fun hnow hnext => ?_⟩
    · rw [hs]
      exact lt_claimTime s now
    · exact inRange_claimTime hnow hnext
  case others =>
    cases hplace : m.outbox[i]? with
    | some x =>
        have hskipped : (x, i) ∉ m.chosen batch staleBefore := hnot x
        have hstored := getElem?_claim batch staleBefore now hplace
        rwa [if_neg hskipped] at hstored
    | none =>
        have hlength := congrArg List.length (map_id_claim m batch staleBefore now)
        rw [List.length_map, List.length_map] at hlength
        rw [List.getElem?_eq_none_iff] at hplace ⊢
        omega

/-- A claim `Takes` the oldest messages for as long as it is not old itself. -/
structure TakesOldest (m : Memory) (batch : Nat) (staleBefore now : Instant)
    (queue : List (Message × Nat)) (claimed : List Message) (after : Memory) : Prop
    extends m.Takes batch staleBefore now queue claimed after where
  /-- Another claim, for which none of the dates is old, takes none of the messages in their places:
  they are not in its queue. -/
  exclusive : ∀ batch' staleBefore' now',
    (∀ y ∈ claimed, ∀ t, y.claimedAt = some t → staleBefore' ≤ t) →
      ∃ queue' claimed' after', after.Takes batch' staleBefore' now' queue' claimed' after' ∧
        ∀ x i, (x, i) ∈ queue.take batch → ∀ y, (y, i) ∉ queue'

theorem Takes.not_mem_queue {queue queue' : List (Message × Nat)} {claimed : List Message}
    {after : Memory} {staleBefore' : Instant}
    (h : m.Takes batch staleBefore now queue claimed after) (hqueue : after.Queues staleBefore' queue')
    (hfresh : ∀ y ∈ claimed, ∀ t, y.claimedAt = some t → staleBefore' ≤ t) {x y : Message} {i : Nat}
    (hx : (x, i) ∈ queue.take batch) : (y, i) ∉ queue' := by
  intro hy
  obtain ⟨n, hn⟩ := List.mem_iff_getElem?.mp hx
  obtain ⟨t, hclaimed, hstored, -⟩ := h.taken n x i hn
  obtain ⟨hplace, hclaimable⟩ := (hqueue.mem_iff y i).mp hy
  rw [hstored, hclaimed] at hplace
  obtain rfl := Option.some.inj hplace
  rcases hclaimable with hpending | ⟨-, hold⟩
  · exact absurd hpending (by simp)
  · exact hfresh _ (List.mem_of_getElem? hclaimed) t rfl (hold t rfl)

/-- Whatever the outbox holds, a claim takes the oldest messages that can be claimed, as many as it
asks for if there are so many. -/
theorem claims_oldest_first (m : Memory) (batch : Nat) (staleBefore now : Instant) :
    ∃ queue claimed after, m.TakesOldest batch staleBefore now queue claimed after := by
  have htakes := takes_claim m batch staleBefore now
  refine ⟨_, _, _, htakes, fun batch' staleBefore' now' hfresh => ?_⟩
  refine ⟨_, _, _, takes_claim _ batch' staleBefore' now', fun x i hx y => ?_⟩
  exact htakes.not_mem_queue (queues_eligible _ staleBefore') hfresh hx

end Store.Memory

end BalanceLedger
