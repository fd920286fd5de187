/-
# `Proofs.Tokens` — stamps when the clock stalls or steps back

A claim on a message is known by its stamp, and a stamp is a reading of the clock.
Nobody promises that the clock goes forward.  A claim on a message that is still held is
therefore stamped after the claim before in any case, which is what `claimTime` does.

A message that is handed back keeps no stamp, so the next claim on it is stamped with
whatever the clock reads.  Here it is shown that this is the only way in which a stamp
fails to be later than those before it: the stamps of a message go forward exactly if
the clock is ahead of all of them whenever the message is claimed while nobody holds it,
by `tokens_advance_iff` with `Advances` for the condition.  Otherwise the same stamp can
be handed out twice, and a verdict of the deliverer that had it first is taken for one
of the deliverer that has it now.  `tokens_repeat_stalledClock` is such a run.

The invariant is `Marked`, which is what is left of `Stamped` if the clock reads
anything: a message is held under the last of its stamps.  `Marked.increasing_concat` is
the step of the equivalence, and it is an equivalence at each visit, so that the
induction needs no more than that.
-/
import BalanceLedger.Proofs.Fencing

namespace BalanceLedger

open Store (Memory Verdict)
open Store.Memory (claimTime)
open Time (Instant)

/-! ## Later stamps -/

namespace Time.Instant

variable {s t u : Instant}

theorem lt_iff :
    s < t ↔ s.seconds < t.seconds ∨ s.seconds = t.seconds ∧ s.nanos < t.nanos :=
  Iff.rfl

theorem lt_trans (h : s < t) (h' : t < u) : s < u := by
  rw [lt_iff] at h h' ⊢
  omega

theorem lt_of_not_le (h : ¬ s ≤ t) : t < s :=
  Decidable.not_not.mp h

theorem lt_nextMicro (t : Instant) : t < t.nextMicro := by
  unfold nextMicro
  extract_lets limit
  split
  · exact .inr ⟨rfl, Nat.lt_add_of_pos_right (by decide)⟩
  · exact .inl (Int.lt_succ t.seconds)

end Time.Instant

theorem lt_claimTime (t now : Instant) : t < claimTime (some t) now := by
  by_cases h : now ≤ t
  · rw [claimTime, if_pos h]
    exact t.lt_nextMicro
  · rw [claimTime, if_neg h]
    exact Time.Instant.lt_of_not_le h

namespace Service

variable {s : Service} {visits : List Visit} {v : Visit} {id : Uuid}

/-! ## The last stamp -/

/-- If the message is handed out at the visit while it has no `holder?`, then the clock is ahead of
all its stamps. -/
def MovesOn (s : Service) (v : Visit) (id : Uuid) : Prop :=
  s.memory.holder? id = none → (s.exchange v).stamp? id ≠ none → ∀ t ∈ s.stamps id, t < v.now

/-- The message `MovesOn` at each of the visits. -/
def Advances (s : Service) (visits : List Visit) (id : Uuid) : Prop :=
  ∀ before v, before ++ [v] <+: visits → (s.run before).MovesOn v id

theorem advances_concat :
    s.Advances (visits ++ [v]) id ↔ s.Advances visits id ∧ (s.run visits).MovesOn v id := by
  constructor
  · intro h
    exact ⟨fun before w hw => h before w (hw.trans (List.prefix_append ..)),
      h visits v (List.prefix_refl _)⟩
  · rintro ⟨hbefore, hlast⟩ before w hw
    rcases List.prefix_concat_iff.mp hw with heq | hw
    · obtain ⟨rfl, rfl⟩ := List.concat_inj.mp (by simpa using heq)
      exact hlast
    · exact hbefore before w hw

/-- Whatever the clock does, a message is held under the last of its stamps. -/
structure Marked (s : Service) (id : Uuid) : Prop where
  /-- A message that is not held has no stamp. -/
  claimed : ∀ x, s.memory.message? id = some x → x.claimedAt = x.holder?
  last : ∀ t, s.memory.holder? id = some t → (s.stamps id).getLast? = some t

theorem Marked.serve (h : s.Marked id) (hm : s.memory.Distinct)
    (hnew : ∀ x ∈ v.request.brings, x.IsNew) : (s.serve v).Marked id := by
  obtain ⟨hclaimed, hhandles⟩ := handles hm hnew h.claimed
  refine ⟨hclaimed, fun t ht => ?_⟩
  rw [stamps_concat (past_serve s v)]
  cases hhandles with
  | quiet hholder hstamp _ =>
      rw [hholder] at ht
      rw [hstamp, Option.toList_none, List.append_nil]
      exact h.last t ht
  | claim hholder hstamp _ =>
      rw [hstamp, ← ht, hholder, Option.toList_some, List.getLast?_concat]
  | settle _ _ hholder _ _ => exact absurd (hholder.symm.trans ht) (by simp)

theorem marked_run {m : Memory} (hnew : ∀ x ∈ m.outbox, x.IsNew) (visits : List Visit)
    (hreceives : m.Receives visits) (id : Uuid) : (run { memory := m } visits).Marked id := by
  induction visits using List.reverseRecOn with
  | nil =>
      have hstart := stamped_start hnew id
      exact ⟨hstart.claimed, fun t ht => ((hstart.held_iff t).mp ht).1⟩
  | append_singleton visits v ih =>
      have hlast := receives_last { memory := m } hreceives
      rw [run_concat]
      exact (ih hreceives.earlier).serve hlast.distinct_memory
        (hlast.new v (List.mem_singleton.mpr rfl))

theorem Marked.stamp?_eq (h : s.Marked id) (hm : s.memory.Distinct)
    (hnew : ∀ x ∈ v.request.brings, x.IsNew) {t : Instant}
    (ht : (s.exchange v).stamp? id = some t) : t = claimTime (s.memory.holder? id) v.now := by
  obtain ⟨-, hhandles⟩ := handles hm hnew h.claimed
  cases hhandles with
  | quiet _ hstamp _ => exact absurd (hstamp.symm.trans ht) (by simp)
  | claim _ hstamp _ => exact Option.some.inj (ht.symm.trans hstamp)
  | settle _ _ _ hstamp _ => exact absurd (hstamp.symm.trans ht) (by simp)

theorem lt_of_lt_getLast {l : List Instant} {t u w : Instant} (h : l.Pairwise (· < ·))
    (hlast : l.getLast? = some t) (ht : t < w) (hu : u ∈ l) : u < w := by
  obtain ⟨before, rfl⟩ := List.getLast?_eq_some_iff.mp hlast
  rcases List.mem_append.mp hu with hu | hu
  · have hut := (List.pairwise_append.mp h).2.2 u hu t (List.mem_singleton.mpr rfl)
    exact Time.Instant.lt_trans hut ht
  · rwa [List.mem_singleton.mp hu]

theorem Marked.increasing_concat (h : s.Marked id) (hm : s.memory.Distinct)
    (hnew : ∀ x ∈ v.request.brings, x.IsNew) :
    ((s.serve v).stamps id).Pairwise (· < ·) ↔
      (s.stamps id).Pairwise (· < ·) ∧ s.MovesOn v id := by
  rw [stamps_concat (past_serve s v)]
  cases hstamp : (s.exchange v).stamp? id with
  | none =>
      rw [Option.toList_none, List.append_nil]
      exact (and_iff_left fun _ hne => absurd hstamp hne).symm
  | some t =>
      have htime := h.stamp?_eq hm hnew hstamp
      rw [Option.toList_some, List.pairwise_append]
      constructor
      · rintro ⟨hincreasing, -, hlater⟩
        refine ⟨hincreasing, fun hnone _ u hu => ?_⟩
        have hlt := hlater u hu t (List.mem_singleton.mpr rfl)
        rw [htime, hnone] at hlt
        exact hlt
      · rintro ⟨hincreasing, hmoves⟩
        refine ⟨hincreasing, List.pairwise_singleton .., fun u hu w hw => ?_⟩
        rw [List.mem_singleton.mp hw]
        cases hholder : s.memory.holder? id with
        | none =>
            rw [hholder] at htime
            exact htime ▸ hmoves hholder (by simp [hstamp]) u hu
        | some previous =>
            rw [hholder] at htime
            exact lt_of_lt_getLast hincreasing (h.last previous hholder)
              (htime ▸ lt_claimTime previous v.now) hu

theorem increasing_run {m : Memory} (hnew : ∀ x ∈ m.outbox, x.IsNew) (visits : List Visit)
    (hreceives : m.Receives visits) (id : Uuid) :
    ((run { memory := m } visits).stamps id).Pairwise (· < ·) ↔
      Advances { memory := m } visits id := by
  induction visits using List.reverseRecOn with
  | nil =>
      refine iff_of_true List.Pairwise.nil fun before v hv => ?_
      exact absurd (List.prefix_nil.mp hv) (by simp)
  | append_singleton visits v ih =>
      have hlast := receives_last { memory := m } hreceives
      rw [run_concat, advances_concat, ← ih hreceives.earlier]
      exact (marked_run hnew visits hreceives.earlier id).increasing_concat hlast.distinct_memory
        (hlast.new v (List.mem_singleton.mpr rfl))

/-! ## Who is taken for whom -/

/-- How far the stamps of a message tell its deliverers apart. -/
structure TellsApart (s : Service) (visits : List Visit) (id : Uuid) : Prop where
  increasing_iff : ((s.run visits).stamps id).Pairwise (· < ·) ↔ s.Advances visits id
  /-- A verdict is accepted under the last stamp only. -/
  last : ∀ (v : Visit) (verdict : Verdict), v.request.verdict? v.now = some verdict →
    verdict.id = id → ((s.run visits).exchange v).reply.toBool = true →
    ((s.run visits).stamps id).getLast? = some verdict.stamp
  /-- So a verdict under a stamp that has been superseded is refused, if no stamp has been handed
  out twice. -/
  superseded : ((s.run visits).stamps id).Nodup →
    ∀ (v : Visit) (verdict : Verdict) earlier later, v.request.verdict? v.now = some verdict →
    verdict.id = id → (s.run visits).stamps id = earlier ++ verdict.stamp :: later → later ≠ [] →
    (s.run visits).memory.answer v.now v.request =
      (.error (.notClaimed id), (s.run visits).memory)

theorem Marked.last_of_accepted (h : s.Marked id) {verdict : Verdict}
    (hq : v.request.verdict? v.now = some verdict) (hid : verdict.id = id)
    (haccepted : (s.exchange v).reply.toBool = true) :
    (s.stamps id).getLast? = some verdict.stamp := by
  subst hid
  rcases s.memory.verdict_accepted_or_refused hq with ⟨x, _, hx, hstamp, -⟩ | ⟨-, hanswer⟩
  · refine h.last _ ?_
    rw [holder?_of_message? hx]
    exact isHeld_iff.mp hstamp
  · rw [exchange, hanswer] at haccepted
    exact absurd haccepted (by simp [Except.toBool])

end Service

/-- Calls have written to a store on which nothing had happened.  Then it is visited, by any number
of deliverers and with any requests, while the clock reads whatever it reads: the stamps of a
message go forward exactly if the clock does where a message is claimed that nobody holds, and then
late deliverers are refused. -/
theorem tokens_advance_iff (steps : List (Interleaving.Step Call)) (visits : List Visit)
    (hreceives : ((Interleaving.on .empty).run steps : Traffic).memory.Receives visits)
    (id : Uuid) :
    Service.TellsApart { memory := ((Interleaving.on .empty).run steps : Traffic).memory }
      visits id := by
  obtain ⟨-, hnew⟩ := Traffic.distinct_new steps
  have hmarked := Service.marked_run hnew visits hreceives id
  refine ⟨Service.increasing_run hnew visits hreceives id,
    fun v verdict hq hid haccepted => hmarked.last_of_accepted hq hid haccepted, ?_⟩
  intro hnodup v verdict earlier later hq hid hstamps hlater
  subst hid
  rcases Store.Memory.verdict_accepted_or_refused _ hq with ⟨_, _, -, -, hreply, -⟩ | ⟨-, hanswer⟩
  · -- the stamp is the last one, so it stands in two places
    have hlast := hmarked.last_of_accepted hq rfl (by rw [Service.exchange, hreply]; rfl)
    rw [hstamps, List.append_cons, List.getLast?_append_of_ne_nil _ hlater] at hlast
    rw [hstamps] at hnodup
    have happart := (List.nodup_cons.mp (List.nodup_append.mp hnodup).2.1).1
    exact absurd (List.mem_of_getLast? hlast) happart
  · exact hanswer

/-- The clock stands still: a message is claimed, and claimed again when the first claim has grown
old; then the second deliverer hands it back, and the message is claimed a third time. -/
def stalledClock : List Visit :=
  let second (n : Nat) : Instant := { Instant.epoch with seconds := n }
  [{ now := second 1, request := .claim 10 .epoch },
    { now := second 1, request := .claim 10 (second 2) },
    { now := second 1, request := .recordFailure ⟨5⟩ (second 1).nextMicro "unreachable" 5 },
    { now := second 1, request := .claim 10 .epoch }]

/-- While the message is held, the clock may stand still. -/
theorem tokens_advance_iff_stalledClock :
    let m := ((Interleaving.on .empty).run oneCredit : Traffic).memory
    let second (n : Nat) : Instant := { seconds := n, nanos := 0 }
    let s := Service.run { memory := m } (stalledClock.take 2)
    m.Receives (stalledClock.take 2) ∧ s.stamps ⟨5⟩ = [second 1, (second 1).nextMicro] ∧
      Service.Advances { memory := m } (stalledClock.take 2) ⟨5⟩ ∧
      Service.TellsApart { memory := m } (stalledClock.take 2) ⟨5⟩ := by
  intro m second s
  have hnone : ∀ v ∈ stalledClock.take 2, v.request.brings = [] := by decide +kernel
  have hreceives : m.Receives (stalledClock.take 2) := by
    refine ⟨fun v hv x hx => ?_, by decide +kernel⟩
    rw [hnone v hv] at hx
    exact absurd hx List.not_mem_nil
  have hstamps : s.stamps ⟨5⟩ = [second 1, (second 1).nextMicro] := by
    simp only [s, stalledClock, List.take, Service.run, List.foldl, Service.serve, Memory.answer,
      Memory.claim, Memory.eligible_eq_insertionSort]
    decide +kernel
  have happart := tokens_advance_iff oneCredit (stalledClock.take 2) hreceives ⟨5⟩
  refine ⟨hreceives, hstamps, happart.increasing_iff.mp ?_, happart⟩
  show (s.stamps ⟨5⟩).Pairwise (· < ·)
  rw [hstamps]
  decide +kernel

/-- Where the clock stands still when the message is claimed a third time, the first stamp is handed
out again.  The first deliverer comes late, and its verdict is accepted. -/
theorem tokens_repeat_stalledClock :
    let m := ((Interleaving.on .empty).run oneCredit : Traffic).memory
    let second (n : Nat) : Instant := { seconds := n, nanos := 0 }
    let s := Service.run { memory := m } stalledClock
    m.Receives stalledClock ∧
      s.stamps ⟨5⟩ = [second 1, (second 1).nextMicro, second 1] ∧ ¬ (s.stamps ⟨5⟩).Nodup ∧
      (s.memory.answer (second 1) (.complete ⟨5⟩ (second 1))).1.toBool = true := by
  intro m second s
  have hnone : ∀ v ∈ stalledClock, v.request.brings = [] := by decide +kernel
  have hstamps : s.stamps ⟨5⟩ = [second 1, (second 1).nextMicro, second 1] := by
    simp only [s, stalledClock, Service.run, List.foldl, Service.serve, Memory.answer,
      Memory.claim, Memory.eligible_eq_insertionSort]
    decide +kernel
  refine ⟨⟨fun v hv x hx => ?_, by decide +kernel⟩, hstamps, ?_, ?_⟩
  · rw [hnone v hv] at hx
    exact absurd hx List.not_mem_nil
  · rw [hstamps]
    decide +kernel
  · simp only [s, stalledClock, Service.run, List.foldl, Service.serve, Memory.answer,
      Memory.claim, Memory.eligible_eq_insertionSort]
    decide +kernel

end BalanceLedger
