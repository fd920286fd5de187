/-
# `Proofs.Leases` — when a claim has outlived its lease

A processor takes over the claims of others by one comparison: the date of a claim with
a cutoff that lies the lease before the clock, `staleBefore`.  There are two bounds on
how far a date can be moved back, as there are for a purge.  One is on the length, the
other is where the calendar starts.  A cycle does not break off beyond them, as a purge
does; it compares with the start of 1970 instead.

That is not the first date there is.  As the lease grows the cutoff goes back by a
quarter of a million years, and then it jumps ahead to 1970.  So the cutoff itself does
not follow the lease, and there are dates for which the comparison is wrong: those that
it jumps over.

None of them is the date of a claim.  Claims are dated by clocks that read a time after
1970, and for such dates the comparison is as it would be with unbounded numbers: what
has been claimed is taken over if it is older than the lease, whatever the lease is.
That is `taken_over_iff_outlived`, and `lt_iff_outlived` is the comparison by itself,
for both of the ways in which a `Cutoff` comes about.

That all claims are so dated is an invariant, `IsDated`.  It is kept by every visit at a
reading of the clock, since `claimTime` leaves a stamp where the one before was a stamp.
-/
import BalanceLedger.Outbox.Processor
import BalanceLedger.Proofs.OldestFirst
import BalanceLedger.Proofs.Retention

namespace BalanceLedger

open Outbox (Message staleBefore)
open Store (Memory Request Verdict)
open Store.Memory (claimTime isHeld take)
open Time (Instant Span)

/-! ## Dates of claims -/

namespace Time.Instant

variable {s t now : Instant}

/-- A date that a claim can have: from 1970 on, and not within a leap second. -/
structure IsStamp (t : Instant) : Prop where
  epoch_le : epoch ≤ t
  nanos_lt : t.nanos < 1000000000

/-- What a clock reads: a stamp that the calendar has, and so within the bounds of `inRange`. -/
structure IsReading (now : Instant) : Prop extends now.IsStamp where
  inRange : now.inRange = true

theorem epoch_le_iff : epoch ≤ t ↔ 0 ≤ t.seconds := by
  rw [le_iff]
  show 0 < t.seconds ∨ 0 = t.seconds ∧ 0 ≤ t.nanos ↔ _
  omega

theorem lt_iff_toNanos_lt (hs : s.nanos < 1000000000) (ht : t.nanos < 1000000000) :
    s < t ↔ s.toNanos < t.toNanos := by
  rw [lt_iff, toNanos, toNanos]
  omega

theorem lt_iff_of_leap (hs : 1000000000 ≤ s.nanos) (ht : t.nanos < 1000000000) :
    s < t ↔ (s.seconds + 1) * 1000000000 ≤ t.toNanos := by
  rw [lt_iff, toNanos]
  omega

theorem IsStamp.nextMicro (h : t.IsStamp) : t.nextMicro.IsStamp where
  epoch_le := le_trans h.epoch_le (le_of_lt t.lt_nextMicro)
  nanos_lt := by
    have hnanos := h.nanos_lt
    unfold Instant.nextMicro
    extract_lets limit
    have hlimit : limit = 1000000000 := if_pos hnanos
    split
    · show t.nanos + 1000 < 1000000000
      omega
    · show t.nanos + 1000 - limit < 1000000000
      omega

end Time.Instant

theorem isStamp_claimTime {previous : Option Instant} {now : Instant} (hnow : now.IsStamp)
    (hprevious : ∀ t, previous = some t → t.IsStamp) : (claimTime previous now).IsStamp := by
  cases previous with
  | none => exact hnow
  | some t =>
      by_cases hstalled : now ≤ t
      · rw [claimTime, if_pos hstalled]
        exact (hprevious t rfl).nextMicro
      · rw [claimTime, if_neg hstalled]
        exact hnow

/-! ## The cutoff -/

namespace Time.Instant

variable {now cutoff cutoff' t : Instant} {lease longer : Span}

/-- The cutoff of a lease at a reading of the clock. -/
inductive Cutoff (now : Instant) (lease : Span) : Instant → Prop
  | exact {cutoff : Instant} : cutoff.Precedes lease now → Cutoff now lease cutoff
  /-- There is no date that lies the lease before. -/
  | saturated : ¬ InCalendar (now.toNanos - lease.nanos) → Cutoff now lease .epoch

theorem IsReading.not_inCalendar (h : now.IsReading)
    (hlong : Span.longestShift.nanos < lease.nanos) :
    ¬ InCalendar (now.toNanos - lease.nanos) := by
  have hwidth : (endSecond - firstSecond) * 1000000000 ≤ Span.longestShift.nanos := by decide
  have hend := (inRange_iff.mp h.inRange).2
  have hnanos := h.nanos_lt
  rintro ⟨hfirst, -⟩
  rw [toNanos] at hfirst
  omega

/-- What `staleBefore` answers is the `Cutoff`: the lease leads to a date of the calendar, or there
is none and 1970 stands for it. -/
theorem IsReading.cutoff_staleBefore (h : now.IsReading) (lease : Span) :
    now.Cutoff lease (staleBefore now lease) := by
  rw [staleBefore]
  by_cases hlong : Span.longestShift.nanos < lease.nanos
  · rw [sub?, if_pos hlong]
    exact .saturated (h.not_inCalendar hlong)
  · rcases sub?_cases (Nat.le_of_not_lt hlong) now with ⟨cutoff, hcutoff, hprecedes⟩ | ⟨hnone, hout⟩
    · rw [hcutoff]
      exact .exact hprecedes
    · rw [hnone]
      exact .saturated hout

namespace Cutoff

theorem inRange (h : now.Cutoff lease cutoff) : cutoff.inRange = true := by
  cases h with
  | exact hprecedes => exact hprecedes.inRange
  | saturated => decide

theorem nanos_lt (h : now.Cutoff lease cutoff) (hnow : now.IsReading) :
    cutoff.nanos < 1000000000 := by
  cases h with
  | exact hprecedes =>
      have hnanos := hnow.nanos_lt
      refine Nat.lt_of_not_le fun hleap => ?_
      have hstays := (hprecedes.leap.mp hleap).2
      omega
  | saturated => decide

theorem toNanos_lt_of_saturated (hnow : now.IsReading)
    (hout : ¬ InCalendar (now.toNanos - lease.nanos)) : now.toNanos < lease.nanos := by
  have hfirst : firstSecond < 0 := by decide
  have hend := (inRange_iff.mp hnow.inRange).2
  have hnanos := hnow.nanos_lt
  rw [InCalendar, toNanos] at hout
  rw [toNanos]
  omega

theorem lt_toNanos_iff (h : now.Cutoff lease cutoff) (hnow : now.IsReading) {n : Int} (hn : 0 ≤ n) :
    n < cutoff.toNanos ↔ (lease.nanos : Int) < now.toNanos - n := by
  cases h with
  | exact hprecedes =>
      have hsum := hprecedes.toNanos_add
      omega
  | saturated hout =>
      -- nothing from 1970 on is before 1970, and nothing is older than the lease
      have hlease := toNanos_lt_of_saturated hnow hout
      show n < 0 ↔ _
      omega

/-- A stamp is before the cutoff exactly if it is older than the lease. -/
theorem lt_iff_outlived (h : now.Cutoff lease cutoff) (hnow : now.IsReading) (ht : t.IsStamp) :
    t < cutoff ↔ (lease.nanos : Int) < now.toNanos - t.toNanos := by
  have hseconds := epoch_le_iff.mp ht.epoch_le
  have hpositive : 0 ≤ t.toNanos := by
    rw [toNanos]
    omega
  rw [lt_iff_toNanos_lt ht.nanos_lt (h.nanos_lt hnow)]
  exact h.lt_toNanos_iff hnow hpositive

/-- A date within a leap second is taken for the end of it, which it is not quite. -/
theorem lt_iff_of_leap (h : now.Cutoff lease cutoff) (hnow : now.IsReading) (ht : epoch ≤ t)
    (hleap : 1000000000 ≤ t.nanos) :
    t < cutoff ↔ (lease.nanos : Int) ≤ now.toNanos - (t.seconds + 1) * 1000000000 := by
  have hseconds := epoch_le_iff.mp ht
  -- it is before the cutoff if the last nanosecond of it is
  have hlast := h.lt_toNanos_iff hnow (n := (t.seconds + 1) * 1000000000 - 1) (by omega)
  rw [Instant.lt_iff_of_leap hleap (h.nanos_lt hnow)]
  omega

/-- From 1970 on, what is before the cutoff of a longer lease is before the cutoff. -/
theorem lt_of_longer (h : now.Cutoff lease cutoff) (h' : now.Cutoff longer cutoff')
    (hnow : now.IsReading) (hlonger : lease.nanos ≤ longer.nanos) (ht : epoch ≤ t)
    (hlt : t < cutoff') : t < cutoff := by
  by_cases hleap : t.nanos < 1000000000
  · have hstamp : t.IsStamp := ⟨ht, hleap⟩
    rw [h'.lt_iff_outlived hnow hstamp] at hlt
    rw [h.lt_iff_outlived hnow hstamp]
    omega
  · have hleap := Nat.le_of_not_lt hleap
    rw [h'.lt_iff_of_leap hnow ht hleap] at hlt
    rw [h.lt_iff_of_leap hnow ht hleap]
    omega

end Cutoff

/-- The cutoff can go ahead as the lease grows: ten seconds lead to before 1970, and the longest
length there is leads to 1970. -/
example :
    let now : Instant := { seconds := 1, nanos := 0 }
    staleBefore now (.ofSeconds 10) < staleBefore now ⟨18446744073709551615999999999⟩ := by
  decide +kernel

end Time.Instant

/-! ## Taking over -/

namespace Outbox.Message

variable {x : Message} {t now cutoff : Instant} {v : Verdict}

theorem isClaimable_iff_of_isHeld (h : isHeld t x = true) : x.IsClaimable cutoff ↔ t < cutoff := by
  rw [isHeld, Bool.and_eq_true, decide_eq_true_eq, decide_eq_true_eq] at h
  obtain ⟨hprocessing, hclaimed⟩ := h
  rw [IsClaimable, hprocessing, hclaimed]
  simp

/-- A message that is held has a date for its claim, and where there is such a date it is a stamp.
-/
structure IsDated (x : Message) : Prop where
  claimed : x.status = .processing → ∃ t, x.claimedAt = some t
  stamp : ∀ t, x.claimedAt = some t → t.IsStamp

theorem IsNew.isDated (h : x.IsNew) : x.IsDated := by
  obtain ⟨_, _, _, _, rfl⟩ := h
  exact ⟨nofun, nofun⟩

theorem IsDated.take (h : x.IsDated) (hnow : now.IsReading) : (take now x).IsDated where
  claimed _ := ⟨_, rfl⟩
  stamp := by
    intro t ht
    obtain rfl := Option.some.inj ht
    exact isStamp_claimTime hnow.toIsStamp h.stamp

theorem isDated_change (h : v.Releases) (x : Message) : (v.change x).IsDated where
  claimed hs := absurd hs (h.status x)
  stamp := by
    intro t ht
    rw [h.claimedAt x] at ht
    exact absurd ht (by simp)

end Outbox.Message

namespace Store.Memory

variable {m : Memory} {now : Instant} {q : Request}

theorem mem_or_changed_of_changeHeld {id : Uuid} {stamp : Instant} {change : Message → Message}
    {changed : Message} {messages after : List Message}
    (h : changeHeld id stamp change messages = .ok (changed, after)) :
    ∀ y ∈ after, y ∈ messages ∨ ∃ x, y = change x := by
  induction messages generalizing after with
  | nil => exact absurd h (by simp [changeHeld])
  | cons x rest ih =>
      intro y hy
      unfold changeHeld at h
      split at h
      · split at h
        · obtain ⟨-, rfl⟩ := Prod.mk.inj (Except.ok.inj h)
          rcases List.mem_cons.mp hy with rfl | hy
          · exact .inr ⟨x, rfl⟩
          · exact .inl (List.mem_cons_of_mem _ hy)
        · exact absurd h (by simp)
      · cases hrest : changeHeld id stamp change rest with
        | error e =>
            rw [hrest] at h
            exact absurd h (by simp [Except.map])
        | ok r =>
            rw [hrest] at h
            obtain ⟨rfl, rfl⟩ := Prod.mk.inj (Except.ok.inj h)
            rcases List.mem_cons.mp hy with rfl | hy
            · exact .inl List.mem_cons_self
            · exact (ih hrest y hy).imp_left (List.mem_cons_of_mem _)

def IsDated (m : Memory) : Prop :=
  ∀ x ∈ m.outbox, x.IsDated

theorem IsDated.claim (h : m.IsDated) (hnow : now.IsReading) (batch : Nat) (cutoff : Instant) :
    (m.claim batch cutoff now).2.IsDated := by
  intro y hy
  rw [claim_eq] at hy
  obtain ⟨⟨x, i⟩, hx, rfl⟩ := List.mem_map.mp hy
  have hdated := h x (List.fst_mem_of_mem_zipIdx hx)
  dsimp only
  split
  · exact hdated.take hnow
  · exact hdated

theorem IsDated.verdict {v : Verdict} (h : m.IsDated) (hq : q.verdict? now = some v) :
    (m.answer now q).2.IsDated := by
  cases hheld : changeHeld v.id v.stamp v.change m.outbox with
  | error f =>
      rw [answer_of_changeHeld_error hq hheld]
      exact h
  | ok r =>
      obtain ⟨changed, after⟩ := r
      obtain ⟨a, hanswer⟩ := answer_of_changeHeld_ok hq hheld
      rw [hanswer]
      intro y hy
      rcases mem_or_changed_of_changeHeld hheld y hy with hy | ⟨x, rfl⟩
      · exact h y hy
      · exact Message.isDated_change (Request.verdict?_releases hq) x

/-- Whatever is asked, messages stay `IsDated` if those that come in are new. -/
theorem IsDated.answer (h : m.IsDated) (hnow : now.IsReading)
    (hnew : ∀ x ∈ q.brings, x.IsNew) : (m.answer now q).2.IsDated := by
  cases hq : q.verdict? now with
  | some v => exact h.verdict hq
  | none =>
      cases q with
      | commit c =>
          cases hfault : m.fault? c with
          | some f =>
              rw [answer_commit_refused hfault]
              exact h
          | none =>
              rw [answer_commit_accepted hfault]
              intro x hx
              rw [outbox_write] at hx
              rcases List.mem_append.mp hx with hold | hbrought
              · exact h x hold
              · exact (hnew x hbrought).isDated
      | claim batch cutoff => exact h.claim hnow batch cutoff
      | purge cutoff =>
          intro x hx
          exact h x (List.mem_of_mem_filter hx)
      | complete => exact absurd hq (by simp [Request.verdict?])
      | recordFailure => exact absurd hq (by simp [Request.verdict?])
      | markFailed => exact absurd hq (by simp [Request.verdict?])
      | _ => exact h

/-- A claim with the cutoff of a lease `Takes` what has outlived the lease. -/
structure TakesOver (m : Memory) (lease : Span) (now : Instant) (batch : Nat) (later : Instant)
    (queue : List (Message × Nat)) (claimed : List Message) (after : Memory) : Prop
    extends m.Takes batch (staleBefore now lease) later queue claimed after where
  /-- What is held can be taken over exactly if it has been held for longer than the lease. -/
  outlived : ∀ x i t, m.outbox[i]? = some x → isHeld t x = true → t.IsStamp →
    ((x, i) ∈ queue ↔ (lease.nanos : Int) < now.toNanos - t.toNanos)
  /-- Within a leap second all dates are alike: the lease runs from the end of it. -/
  leapSecond : ∀ x i t, m.outbox[i]? = some x → isHeld t x = true → .epoch ≤ t →
    1000000000 ≤ t.nanos →
    ((x, i) ∈ queue ↔ (lease.nanos : Int) ≤ now.toNanos - (t.seconds + 1) * 1000000000)
  /-- With a longer lease nothing else can be taken over, also where there is no date for it. -/
  longer : ∀ longer queue', lease.nanos ≤ longer.nanos →
    m.Queues (staleBefore now longer) queue' →
    ∀ x i t, isHeld t x = true → .epoch ≤ t → (x, i) ∈ queue' → (x, i) ∈ queue

theorem takesOver_claim {now : Instant} (hnow : now.IsReading) (m : Memory) (lease : Span)
    (batch : Nat) (later : Instant) :
    m.TakesOver lease now batch later (m.eligible (staleBefore now lease))
      (m.claim batch (staleBefore now lease) later).1
      (m.claim batch (staleBefore now lease) later).2 := by
  have htakes := takes_claim m batch (staleBefore now lease) later
  have hcutoff := hnow.cutoff_staleBefore lease
  have hqueued {x : Message} {i : Nat} {t : Instant} (hplace : m.outbox[i]? = some x)
      (hheld : isHeld t x = true) :
      (x, i) ∈ m.eligible (staleBefore now lease) ↔ t < staleBefore now lease := by
    rw [htakes.queues.mem_iff, Message.isClaimable_iff_of_isHeld hheld, and_iff_right hplace]
  refine { htakes with outlived := ?outlived, leapSecond := ?leapSecond, longer := ?longer }
  case outlived =>
    intro x i t hplace hheld hstamp
    rw [hqueued hplace hheld]
    exact hcutoff.lt_iff_outlived hnow hstamp
  case leapSecond =>
    intro x i t hplace hheld ht hleap
    rw [hqueued hplace hheld]
    exact hcutoff.lt_iff_of_leap hnow ht hleap
  case longer =>
    intro longer queue' hlonger hqueue x i t hheld ht hx
    obtain ⟨hplace, hclaimable⟩ := (hqueue.mem_iff x i).mp hx
    rw [Message.isClaimable_iff_of_isHeld hheld] at hclaimable
    rw [hqueued hplace hheld]
    exact hcutoff.lt_of_longer (hnow.cutoff_staleBefore longer) hnow hlonger ht hclaimable

end Store.Memory

theorem Service.isDated_run {m : Memory} (hm : m.IsDated) {visits : List Visit}
    (hvisits : ∀ v ∈ visits, v.now.IsReading ∧ ∀ x ∈ v.request.brings, x.IsNew) :
    (run { memory := m } visits).memory.IsDated := by
  induction visits using List.reverseRecOn with
  | nil => exact hm
  | append_singleton visits v ih =>
      obtain ⟨hnow, hnew⟩ := hvisits v List.mem_concat_self
      have hbefore := ih fun w hw => hvisits w (List.mem_append_left _ hw)
      rw [run_concat]
      exact hbefore.answer hnow hnew

/-- At a reading of the clock the cutoff of any lease is a date of the calendar, and what is held can
be taken over exactly if it has been held for longer than the lease.  This is so for claims that are
dated by stamps, and all claims are, whatever has been asked at readings of the clock. -/
theorem taken_over_iff_outlived {now : Instant} (hnow : now.IsReading) (lease : Span) :
    now.Cutoff lease (staleBefore now lease) ∧ (staleBefore now lease).inRange = true ∧
      (∀ (m : Memory) (batch : Nat) (later : Instant), ∃ queue claimed after,
        m.TakesOver lease now batch later queue claimed after) ∧
      ∀ (m : Memory) (visits : List Visit), m.IsDated →
        (∀ v ∈ visits, v.now.IsReading ∧ ∀ x ∈ v.request.brings, x.IsNew) →
        (Service.run { memory := m } visits).memory.IsDated := by
  have hcutoff := hnow.cutoff_staleBefore lease
  refine ⟨hcutoff, hcutoff.inRange, ?_, ?_⟩
  · intro m batch later
    exact ⟨_, _, _, m.takesOver_claim hnow lease batch later⟩
  · intro m visits hm hvisits
    exact Service.isDated_run hm hvisits

/-- A message that has been held since the first second of 1970. -/
def heldMessage : Message :=
  { id := ⟨1⟩, eventType := "BalanceUpdated", payload := .null, occurredAt := .epoch,
    processedAt := none, claimedAt := some { Instant.epoch with seconds := 1 },
    status := .processing, retryCount := 0, error := none, correlationId := none,
    initiatedBy := none }

/-- After five minutes the message is not taken over under a lease of five minutes, but it is under
one that is a nanosecond shorter; it is not under the longest lease there is.  A claim leaves it
with a stamp. -/
theorem taken_over_iff_outlived_fiveMinutes :
    let m : Memory := { outbox := [heldMessage] }
    let now : Instant := { seconds := 301, nanos := 0 }
    let takesOver (lease : Span) := ∃ queue claimed after,
      m.TakesOver lease now 50 now queue claimed after ∧ (heldMessage, 0) ∈ queue
    let leaves (lease : Span) := ∃ queue claimed after,
      m.TakesOver lease now 50 now queue claimed after ∧ (heldMessage, 0) ∉ queue
    now.IsReading ∧ m.IsDated ∧ leaves (.ofSeconds 300) ∧ takesOver ⟨299999999999⟩ ∧
      leaves ⟨18446744073709551615999999999⟩ ∧
      (Service.run { memory := m } [⟨now, .claim 50 now⟩]).memory.IsDated := by
  intro m now takesOver leaves
  have hnow : now.IsReading := ⟨⟨by decide, by decide⟩, by decide⟩
  have hstamp : Instant.IsStamp { seconds := 1, nanos := 0 } := ⟨by decide, by decide⟩
  have hm : m.IsDated := by
    intro x hx
    obtain rfl := List.mem_singleton.mp hx
    refine ⟨fun _ => ⟨_, rfl⟩, ?_⟩
    intro t ht
    obtain rfl := Option.some.inj ht
    exact hstamp
  have htaken (lease : Span) : ∃ queue claimed after,
      m.TakesOver lease now 50 now queue claimed after ∧
        ((heldMessage, 0) ∈ queue ↔ (lease.nanos : Int) < 300000000000) := by
    obtain ⟨-, -, htakes, -⟩ := taken_over_iff_outlived hnow lease
    obtain ⟨queue, claimed, after, h⟩ := htakes m 50 now
    have hage : now.toNanos - Instant.toNanos { seconds := 1, nanos := 0 } = 300000000000 := by decide
    have hiff := h.outlived heldMessage 0 _ rfl (by decide) hstamp
    rw [hage] at hiff
    exact ⟨queue, claimed, after, h, hiff⟩
  refine ⟨hnow, hm, ?_, ?_, ?_, ?_⟩
  · obtain ⟨queue, claimed, after, h, hiff⟩ := htaken (.ofSeconds 300)
    exact ⟨queue, claimed, after, h, hiff.not.mpr (by decide)⟩
  · obtain ⟨queue, claimed, after, h, hiff⟩ := htaken ⟨299999999999⟩
    exact ⟨queue, claimed, after, h, hiff.mpr (by decide)⟩
  · obtain ⟨queue, claimed, after, h, hiff⟩ := htaken ⟨18446744073709551615999999999⟩
    exact ⟨queue, claimed, after, h, hiff.not.mpr (by decide)⟩
  · obtain ⟨-, -, -, hdated⟩ := taken_over_iff_outlived hnow (.ofSeconds 300)
    apply hdated m _ hm
    intro v hv
    obtain rfl := List.mem_singleton.mp hv
    exact ⟨hnow, fun x hx => absurd hx List.not_mem_nil⟩

end BalanceLedger
