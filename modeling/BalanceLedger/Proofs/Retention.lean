/-
# `Proofs.Retention` — what a purge deletes, and when it breaks off

A purge goes back from the clock by the retention and deletes what was delivered before.
There are two bounds on how far it can go back.  A retention that is longer than any
shift of a date is refused.  A shorter one can still lead out of the calendar, which
reaches back a quarter of a million years where the longest shift is a thousand times
that; and then there is no date to compare with, and the purge breaks off where it
stands.

So there are three endings, `refused`, `deleted` and `brokenOff`, and which one it is
can be read off the clock and the retention.  `Purged` has them for the purge by itself,
with the store that it leaves.  All jobs together end alike, by `Ran`: after a refusal
the failed messages are still reported, but after a purge that breaks off they are not.

`purge_ends` is about every store, every clock and every retention.  The date that is
compared with is known by its distance from the clock, `Precedes`, and not by the way it
is computed; `sub?_cases` is the only lemma that looks at that.  What is deleted is told
from the messages by `IsDue`.

The jobs are programs that can end early, so there are two rules for playing them, one
for a part that always has an answer (`play_lift_bind`) and one for a part that can
break off (`play_bind`).
-/
import BalanceLedger.Outbox.Maintenance
import BalanceLedger.Proofs.Session

namespace BalanceLedger

open Outbox (DateOverflow Job JobError MaintenanceConfig MaintenanceReport Message Status)
open Store (Memory)
open Time (Instant Span)

/-! ## Going back in the calendar -/

namespace Time.Instant

variable {now cutoff : Instant} {length : Span}

/-- A number of nanoseconds, from 1970 on, that the calendar has a date for. -/
def InCalendar (n : Int) : Prop :=
  firstSecond * 1000000000 ≤ n ∧ n < endSecond * 1000000000

/-- An instant lies a length of time before another one. -/
structure Precedes (cutoff : Instant) (length : Span) (now : Instant) : Prop where
  inRange : cutoff.inRange = true
  /-- It lies within a leap second exactly if the length does not lead out of that of `now`. -/
  leap : 1000000000 ≤ cutoff.nanos ↔ now.inRange = true ∧ 1000000000 + length.nanos ≤ now.nanos
  toNanos_add : cutoff.toNanos + length.nanos = now.toNanos

theorem inRange_iff : cutoff.inRange = true ↔
    firstSecond ≤ cutoff.seconds ∧ cutoff.seconds < endSecond := by
  rw [inRange, Bool.and_eq_true, decide_eq_true_eq, decide_eq_true_eq]

theorem inRange_ofNanos_iff {n : Int} : (ofNanos n).inRange = true ↔ InCalendar n := by
  rw [inRange_iff]
  show firstSecond ≤ n / 1000000000 ∧ n / 1000000000 < endSecond ↔ _
  unfold InCalendar
  omega

theorem toNanos_ofNanos (n : Int) : (ofNanos n).toNanos = n := by
  simp only [toNanos, ofNanos]
  omega

/-- A shift that is not too long leads to a date or out of the calendar: `sub?` answers accordingly.
-/
theorem sub?_cases (hlength : length.nanos ≤ Span.longestShift.nanos) (now : Instant) :
    (∃ cutoff, now.sub? length = some cutoff ∧ cutoff.Precedes length now) ∨
      now.sub? length = none ∧ ¬ InCalendar (now.toNanos - length.nanos) := by
  rw [sub?, if_neg (Nat.not_lt.mpr hlength)]
  by_cases hstays : now.inRange = true ∧ 1000000000 + length.nanos ≤ now.nanos
  · obtain ⟨hnow, hleap⟩ := hstays
    refine .inl ⟨_, if_pos ⟨hnow, hleap⟩, hnow, iff_of_true ?_ ⟨hnow, hleap⟩, ?_⟩
    · show 1000000000 ≤ now.nanos - length.nanos
      omega
    · show now.seconds * 1000000000 + (now.nanos - length.nanos : Nat) + _ = now.toNanos
      rw [toNanos]
      omega
  · rw [if_neg hstays]
    by_cases hrange : (ofNanos (now.toNanos - length.nanos)).inRange = true
    · refine .inl ⟨_, if_pos hrange, hrange, iff_of_false ?_ hstays, ?_⟩
      · show ¬ 1000000000 ≤ (_ % _ : Int).toNat
        omega
      · rw [toNanos_ofNanos]
        omega
    · exact .inr ⟨if_neg hrange, fun h => hrange (inRange_ofNanos_iff.mpr h)⟩

end Time.Instant

/-! ## What is due -/

namespace Outbox.Message

/-- A message was delivered before an instant. -/
def IsDue (cutoff : Instant) (x : Message) : Prop :=
  x.status = .completed ∧ ∃ t, x.processedAt = some t ∧ t < cutoff

theorem isExpired_iff {cutoff : Instant} {x : Message} :
    Memory.isExpired cutoff x = true ↔ x.IsDue cutoff := by
  rw [Memory.isExpired, IsDue, Bool.and_eq_true, decide_eq_true_eq, Option.any_eq_true]
  simp only [decide_eq_true_eq]

instance (cutoff : Instant) (x : Message) : Decidable (x.IsDue cutoff) :=
  decidable_of_iff _ isExpired_iff

end Outbox.Message

namespace Store.Memory

/-- A purge deletes what `IsDue`, and counts it. -/
theorem purge_eq (m : Memory) (cutoff : Instant) : m.purge cutoff =
    (m.outbox.countP fun x => x.IsDue cutoff,
      { m with outbox := m.outbox.filter fun x => ¬ x.IsDue cutoff }) := by
  have hdue (x : Message) : decide (x.IsDue cutoff) = isExpired cutoff x := by
    rw [Bool.eq_iff_iff, decide_eq_true_eq, Message.isExpired_iff]
  have hkept : m.outbox.filter (fun x => ¬ x.IsDue cutoff) =
      m.outbox.filter fun x => !isExpired cutoff x := by
    refine List.filter_congr fun x _ => ?_
    rw [decide_not, hdue]
  have hcount := m.outbox.length_eq_countP_add_countP fun x => decide (x.IsDue cutoff)
  have hleft := m.outbox.countP_eq_length_filter (p := fun x => ¬ x.IsDue cutoff)
  rw [hkept] at hleft ⊢
  refine Prod.ext ?_ rfl
  show m.outbox.length - _ = _
  simp only [decide_eq_true_eq] at hcount
  omega

def failures (m : Memory) : Int64 :=
  .ofNat (m.outbox.countP fun x => x.status = .failed)

theorem failed_counts (m : Memory) : m.counts.failed = m.failures := by
  have hfold (counts : Outbox.StatusCounts) (messages : List Message) :
      (messages.foldl (fun c x => c.add x.status 1) counts).failed =
        counts.failed + .ofNat (messages.countP fun x => x.status = .failed) := by
    induction messages generalizing counts with
    | nil => exact (Int64.add_zero _).symm
    | cons x rest ih =>
        rw [List.foldl_cons, ih, List.countP_cons]
        cases hs : x.status with
        | failed =>
            simp only [Outbox.StatusCounts.add, decide_true, if_true, Int64.ofNat_add]
            rw [Int64.add_comm (Int64.ofNat _), ← Int64.add_assoc]
            rfl
        | pending | processing | completed => simp [Outbox.StatusCounts.add]
  rw [counts, hfold]
  exact Int64.zero_add _

theorem failures_purge (m : Memory) (cutoff : Instant) :
    (m.purge cutoff).2.failures = m.failures := by
  rw [purge_eq, failures, failures]
  show Int64.ofNat ((m.outbox.filter _).countP _) = _
  rw [List.countP_filter]
  congr 1
  refine List.countP_congr fun x _ => ?_
  simp only [Bool.and_eq_true, decide_eq_true_eq, and_iff_left_iff_imp]
  intro hfailed hdue
  rw [hdue.1] at hfailed
  exact absurd hfailed (by simp)

end Store.Memory

/-! ## Jobs that are played -/

namespace Outbox.Job

variable {α β : Type} {around : Surroundings}

theorem play_lift_bind (p : Program World β) (f : β → Job α) (s : Session) :
    (ExceptT.run (liftM p >>= f : Job α)).play around s =
      (f (p.play around s).1).run.play around (p.play around s).2 := by
  show ((p.bind (Program.done ∘ Except.ok)).bind (ExceptT.bindCont f)).play around s = _
  rw [Program.bind_assoc, Program.play_bind]
  rfl

/-- A job that is part of another one is played, and the other one goes on if it does not break off.
-/
theorem play_bind (x : Job β) (f : β → Job α) (s : Session) :
    (ExceptT.run (x >>= f)).play around s =
      match x.run.play around s with
      | (.ok a, s') => (f a).run.play around s'
      | (.error e, s') => (.error e, s') := by
  show (x.run.bind (ExceptT.bindCont f)).play around s = _
  rw [Program.play_bind]
  cases x.run.play around s with
  | mk answer s' => cases answer <;> rfl

end Outbox.Job

namespace Outbox.Maintenance

variable {around : Surroundings}

/-- How a purge ends, and the store that it leaves. -/
inductive Purged (m : Memory) (now : Instant) (retention : Span) :
    Except DateOverflow (Except JobError Nat) → Memory → Prop
  /-- The retention is longer than any shift of a date. -/
  | refused : Span.longestShift.nanos < retention.nanos →
      Purged m now retention (.ok (.error (.retention retention))) m
  | deleted {cutoff : Instant} : retention.nanos ≤ Span.longestShift.nanos →
      cutoff.Precedes retention now →
      Purged m now retention (.ok (.ok (m.outbox.countP fun x => x.IsDue cutoff)))
        { m with outbox := m.outbox.filter fun x => ¬ x.IsDue cutoff }
  /-- It leads out of the calendar. -/
  | brokenOff : retention.nanos ≤ Span.longestShift.nanos →
      ¬ Instant.InCalendar (now.toNanos - retention.nanos) →
      Purged m now retention (.error {}) m

variable {retention : Span} {s : Session}

theorem play_purge_of_refused (hlong : Span.longestShift.nanos < retention.nanos) :
    (purge retention).run.play around s = (.ok (.error (.retention retention)), s) := by
  rw [purge, if_pos hlong]
  rfl

theorem play_purge_of_brokenOff (hlength : retention.nanos ≤ Span.longestShift.nanos)
    (hnone : (s.reply around .clock).sub? retention = none) :
    (purge retention).run.play around s = (.error {}, s.after around .clock) := by
  have hclock : (World.clock.play around s).1.sub? retention = none := hnone
  rw [purge, if_neg (Nat.not_lt.mpr hlength), Job.play_lift_bind, hclock]
  rfl

theorem play_purge_of_deleted {cutoff : Instant}
    (hlength : retention.nanos ≤ Span.longestShift.nanos)
    (hcutoff : (s.reply around .clock).sub? retention = some cutoff) :
    ∃ s', (purge retention).run.play around s = (.ok (.ok (s.memory.purge cutoff).1), s') ∧
      s'.memory = (s.memory.purge cutoff).2 := by
  have hclock : (World.clock.play around s).1.sub? retention = some cutoff := hcutoff
  rw [purge, if_neg (Nat.not_lt.mpr hlength), Job.play_lift_bind, hclock]
  simp only [Job.play_lift_bind]
  have hreply : ((World.store (.purge cutoff)).play around (World.clock.play around s).2).1 =
    .ok (s.memory.purge cutoff).1 := rfl
  rw [hreply]
  by_cases hsome : 0 < (s.memory.purge cutoff).1
  · simp only [if_pos hsome]
    exact ⟨_, rfl, rfl⟩
  · simp only [if_neg hsome]
    exact ⟨_, rfl, rfl⟩

theorem purged_play (around : Surroundings) (retention : Span) (s : Session) :
    Purged s.memory (s.reply around .clock) retention ((purge retention).run.play around s).1
      ((purge retention).run.play around s).2.memory := by
  by_cases hlong : Span.longestShift.nanos < retention.nanos
  · rw [play_purge_of_refused hlong]
    exact .refused hlong
  · have hlength := Nat.le_of_not_lt hlong
    rcases Instant.sub?_cases hlength (s.reply around .clock) with
      ⟨cutoff, hcutoff, hprecedes⟩ | ⟨hnone, hout⟩
    · obtain ⟨s', hplay, hmemory⟩ := play_purge_of_deleted hlength hcutoff
      rw [hplay, hmemory, Memory.purge_eq]
      exact .deleted hlength hprecedes
    · rw [play_purge_of_brokenOff hlength hnone]
      exact .brokenOff hlength hout

/-! ## All jobs -/

theorem play_logFailed (around : Surroundings) (messages : List Message) (s : Session) :
    ((logFailed messages).play around s).2.memory = s.memory ∧
      s.turns <+: ((logFailed messages).play around s).2.turns := by
  induction messages generalizing s with
  | nil => exact ⟨rfl, List.prefix_refl _⟩
  | cons x rest ih =>
      rw [logFailed, Program.play_log_bind]
      obtain ⟨hmemory, hturns⟩ := ih (s.after around (.log _))
      exact ⟨hmemory, (List.prefix_append ..).trans hturns⟩

theorem play_report (around : Surroundings) (s : Session) :
    (report.play around s).1 = .ok s.memory.failures ∧
      (report.play around s).2.memory = s.memory ∧
      ⟨.store .counts, .ok s.memory.counts⟩ ∈ (report.play around s).2.turns := by
  have hreply : s.reply around (.store .counts) = .ok s.memory.counts := rfl
  have hasked : ⟨.store .counts, .ok s.memory.counts⟩ ∈ (s.after around (.store .counts)).turns :=
    List.mem_append_right _ (List.mem_singleton.mpr rfl)
  rw [report, Program.play_store_bind, hreply, ← Memory.failed_counts]
  by_cases hnone : s.memory.counts.failed ≤ 0
  · simp only [if_pos hnone]
    exact ⟨rfl, rfl, hasked⟩
  · obtain ⟨hmemory, hturns⟩ := play_logFailed around
      (s.memory.failed sampleSize) ((s.after around (.store .counts)).after around
        (.store (.failed sampleSize)))
    have hsample : (s.after around (.store .counts)).reply around (.store (.failed sampleSize)) =
      .ok (s.memory.failed sampleSize) := rfl
    simp only [if_neg hnone]
    rw [Program.play_store_bind, hsample]
    show ((Program.bind _ _).play around _).1 = _ ∧ ((Program.bind _ _).play around _).2.memory = _ ∧
      _ ∈ ((Program.bind _ _).play around _).2.turns
    rw [Program.play_bind]
    refine ⟨rfl, hmemory, ?_⟩
    exact List.mem_append_left _ (hturns.subset (List.mem_append_left _ hasked))

def reportOf : Except JobError Nat → MaintenanceReport
  | .ok purged => { purged }
  | .error e => { errors := ["Outbox cleanup: " ++ e.message] }

/-- After a purge that has an answer, the failed messages are counted too. -/
theorem play_runAll_of_answer {config : MaintenanceConfig} {s s' : Session}
    {answer : Except JobError Nat}
    (h : (purge config.retention).run.play around s = (.ok answer, s')) :
    ∃ t, (runAll config).run.play around s =
        (.ok { reportOf answer with failed := s'.memory.failures }, t) ∧
      t.memory = s'.memory ∧ ⟨.store .counts, .ok s'.memory.counts⟩ ∈ t.turns := by
  obtain ⟨hanswer, hmemory, hasked⟩ := play_report around s'
  refine ⟨(report.play around s').2, ?_, hmemory, hasked⟩
  rw [runAll, Job.play_bind, h]
  cases answer with
  | ok purged =>
      simp only [Job.play_lift_bind, hanswer]
      rfl
  | error e =>
      simp only [Job.play_lift_bind, hanswer]
      rfl

theorem play_runAll_of_brokenOff {config : MaintenanceConfig} {s s' : Session}
    (h : (purge config.retention).run.play around s = (.error {}, s')) :
    (runAll config).run.play around s = (.error {}, s') := by
  rw [runAll, Job.play_bind, h]

/-- How a run of all jobs ends, and the session then. -/
inductive Ran (s : Session) (now : Instant) (config : MaintenanceConfig) :
    Except DateOverflow MaintenanceReport → Session → Prop
  /-- The failed messages are reported in spite of the refusal. -/
  | refused {t : Session} : Span.longestShift.nanos < config.retention.nanos →
      t.memory = s.memory → ⟨.store .counts, .ok t.memory.counts⟩ ∈ t.turns →
      Ran s now config
        (.ok { purged := 0
               failed := s.memory.failures
               errors := ["Outbox cleanup: " ++ (JobError.retention config.retention).message] }) t
  | deleted {cutoff : Instant} {t : Session} :
      config.retention.nanos ≤ Span.longestShift.nanos → cutoff.Precedes config.retention now →
      t.memory = { s.memory with outbox := s.memory.outbox.filter fun x => ¬ x.IsDue cutoff } →
      ⟨.store .counts, .ok t.memory.counts⟩ ∈ t.turns →
      Ran s now config
        (.ok { purged := s.memory.outbox.countP fun x => x.IsDue cutoff
               failed := s.memory.failures
               errors := [] }) t
  /-- Nothing is asked after the clock has been read. -/
  | brokenOff {t : Session} : config.retention.nanos ≤ Span.longestShift.nanos →
      ¬ Instant.InCalendar (now.toNanos - config.retention.nanos) → t.memory = s.memory →
      t.turns = s.turns ++ [⟨.clock, now⟩] → Ran s now config (.error {}) t

theorem ran_play (around : Surroundings) (config : MaintenanceConfig) (s : Session) :
    Ran s (s.reply around .clock) config ((runAll config).run.play around s).1
      ((runAll config).run.play around s).2 := by
  by_cases hlong : Span.longestShift.nanos < config.retention.nanos
  · obtain ⟨t, hplay, hmemory, hasked⟩ := play_runAll_of_answer (play_purge_of_refused hlong)
    rw [hplay]
    exact .refused hlong hmemory (hmemory ▸ hasked)
  · have hlength := Nat.le_of_not_lt hlong
    rcases Instant.sub?_cases hlength (s.reply around .clock) with
      ⟨cutoff, hcutoff, hprecedes⟩ | ⟨hnone, hout⟩
    · obtain ⟨s', hpurge, hs'⟩ := play_purge_of_deleted hlength hcutoff
      obtain ⟨t, hplay, hmemory, hasked⟩ := play_runAll_of_answer hpurge
      rw [hplay, hs', Memory.failures_purge]
      rw [← hmemory] at hasked
      rw [hs'] at hmemory
      simp only [Memory.purge_eq] at hmemory ⊢
      exact .deleted hlength hprecedes hmemory hasked
    · rw [play_runAll_of_brokenOff (play_purge_of_brokenOff hlength hnone)]
      exact .brokenOff hlength hout rfl rfl

end Outbox.Maintenance

/-- A purge refuses its retention, or deletes what is due, or breaks off where it stands because there
is no date to compare with.  After a refusal the failed messages are still reported; where the purge
breaks off they are not. -/
theorem purge_ends (m : Memory) (around : Surroundings) (config : MaintenanceConfig) :
    let start : Session := { memory := m }
    let now := start.reply around .clock
    let purged := (Outbox.Maintenance.purge config.retention).run.play around start
    let ran := (Outbox.Maintenance.runAll config).run.play around start
    Outbox.Maintenance.Purged m now config.retention purged.1 purged.2.memory ∧
      Outbox.Maintenance.Ran start now config ran.1 ran.2 := by
  intro start now purged ran
  exact ⟨Outbox.Maintenance.purged_play around config.retention start,
    Outbox.Maintenance.ran_play around config start⟩

/-- A message that was delivered, and one that was given up. -/
def deliveredAndFailed : Memory where
  outbox :=
    [{ id := ⟨1⟩, eventType := "BalanceUpdated", payload := .null, occurredAt := .epoch,
       processedAt := some .epoch, claimedAt := none, status := .completed, retryCount := 0,
       error := none, correlationId := none, initiatedBy := none },
     { id := ⟨2⟩, eventType := "BalanceUpdated", payload := .null, occurredAt := .epoch,
       processedAt := none, claimedAt := none, status := .failed, retryCount := 3,
       error := some "unreachable", correlationId := none, initiatedBy := none }]

/-- Thirty million years are no longer than the longest shift, but there is no such date: neither is
the retention refused nor is a number answered, and the failed message is not reported. -/
theorem purge_breaks_off_thirtyMillionYears :
    let m := deliveredAndFailed
    let around : Surroundings := fun _ => { now := { seconds := 1704067200, nanos := 0 } }
    let config : MaintenanceConfig := { retention := .ofSeconds 1000000000000000 }
    let purged := (Outbox.Maintenance.purge config.retention).run.play around { memory := m }
    let ran := (Outbox.Maintenance.runAll config).run.play around { memory := m }
    config.retention.nanos ≤ Span.longestShift.nanos ∧ m.counts.failed = 1 ∧
      (¬ ∃ answer, purged.1 = .ok answer) ∧ (¬ ∃ report, ran.1 = .ok report) ∧
      ∀ t ∈ ran.2.turns, t.request ≠ .store .counts := by
  intro m around config purged ran
  have hlength : config.retention.nanos ≤ Span.longestShift.nanos := by decide
  have hnone : (Session.reply { memory := m } around .clock).sub? config.retention = none := by
    decide +kernel
  have hpurged : purged = _ := Outbox.Maintenance.play_purge_of_brokenOff hlength hnone
  have hran : ran = _ := Outbox.Maintenance.play_runAll_of_brokenOff hpurged
  refine ⟨hlength, by decide, ?_, ?_, ?_⟩
  · rw [hpurged]
    rintro ⟨answer, h⟩
    exact absurd h (by simp)
  · rw [hran]
    rintro ⟨report, h⟩
    exact absurd h (by simp)
  · rw [hran]
    intro t ht
    obtain rfl := List.mem_singleton.mp ht
    exact nofun

end BalanceLedger
