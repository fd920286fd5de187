/-
# `Proofs.Fencing` — claims fence off late deliverers

A deliverer that has claimed a message is told when; with that stamp it says later what
became of the message.  Deliverers can be late without bound, and a message can be
claimed again meanwhile, because the claim has grown old or because it has been handed
back.  So a stamp is what tells them apart: a message is held under the last stamp that
has been handed out for it, until a verdict is accepted under that stamp, and under no
other.

`Stamped` is the invariant, for the message of one id.  It is kept by every visit, as
long as the clock goes forward from visit to visit.  What a visit does to the three
things that matter here, who holds a message, what has been handed out for it, and how
often it has been settled under a stamp, is one of three: nothing; a claim; a verdict
under the stamp it is held under.  That is `Handles`, and there is one step lemma for
each.

`Fences` reads off the invariant what the next visit can do: a verdict is accepted if
and only if its stamp `IsCurrent`.  `claims_fence` says so after any visits, and also,
by `Orderly`, that no stamp has been handed out or settled twice.

That the clock goes forward cannot be dropped.  A claim is dated after the one before,
but a verdict forgets the date, and then a clock that has stood still gives the same
stamp again.
-/
import BalanceLedger.Proofs.Deliveries

namespace BalanceLedger

open Outbox (Message)
open Store (Memory Request Verdict messageOf? messageOf?_mem)
open Store.Memory (isHeld isEligible take claimTime)
open Time (Instant)

theorem claimTime_of_lt {previous : Option Instant} {now : Instant}
    (h : ∀ t, previous = some t → t < now) : claimTime previous now = now := by
  cases previous with
  | none => rfl
  | some t => exact if_neg (Time.Instant.not_le_of_lt (h t rfl))

/-! ## Holders -/

def Outbox.Message.holder? (x : Message) : Option Instant :=
  if x.status = .processing then x.claimedAt else none

def Store.Memory.holder? (m : Memory) (id : Uuid) : Option Instant :=
  (m.message? id).bind Message.holder?

theorem isHeld_iff {x : Message} {t : Instant} : isHeld t x = true ↔ x.holder? = some t := by
  unfold isHeld Message.holder?
  by_cases h : x.status = .processing <;> simp [h]

theorem Outbox.Message.IsNew.holder? {x : Message} (h : x.IsNew) : x.holder? = none := by
  obtain ⟨_, _, _, _, rfl⟩ := h
  rfl

/-! ## What has been handed out and settled -/

/-- The stamp that a `.claim` hands out for a message. -/
def Exchange.stamp? (id : Uuid) (e : Exchange) : Option Instant :=
  (messageOf? id (e.request.handed e.reply)).bind Message.claimedAt

/-- A verdict on a message under a stamp, which has been accepted. -/
def Exchange.settles (id : Uuid) (t : Instant) (e : Exchange) : Bool :=
  (e.request.verdict? e.now).any fun v => v.id = id && v.stamp = t && e.reply.toBool

namespace Service

def stamps (s : Service) (id : Uuid) : List Instant :=
  s.past.filterMap (Exchange.stamp? id)

/-- How many verdicts on a message have been accepted under a stamp. -/
def settlements (s : Service) (id : Uuid) (t : Instant) : Nat :=
  s.past.countP (Exchange.settles id t)

/-- The stamp is the last of the `stamps` that have been handed out for the message, and nothing has
been settled under it. -/
def IsCurrent (s : Service) (id : Uuid) (t : Instant) : Prop :=
  (s.stamps id).getLast? = some t ∧ s.settlements id t = 0

/-- The stamps of a message are in order. -/
structure Stamped (s : Service) (id : Uuid) : Prop where
  /-- A message that is not held has no stamp. -/
  claimed : ∀ x, s.memory.message? id = some x → x.claimedAt = x.holder?
  held_iff : ∀ t, s.memory.holder? id = some t ↔ s.IsCurrent id t
  /-- A stamp is the reading of the clock at a visit. -/
  dated : ∀ t ∈ s.stamps id, t ∈ s.past.map Exchange.now
  increasing : (s.stamps id).Pairwise (· < ·)
  once : ∀ t, s.settlements id t ≤ 1
  handed : ∀ t, s.settlements id t ≠ 0 → t ∈ s.stamps id

variable {s s' : Service} {id : Uuid} {now : Instant} {e : Exchange}

theorem stamps_concat (hpast : s'.past = s.past ++ [e]) (id : Uuid) :
    s'.stamps id = s.stamps id ++ (e.stamp? id).toList := by
  rw [stamps, hpast, List.filterMap_append, stamps]
  cases hstamp : e.stamp? id with
  | none => rw [List.filterMap_cons_none hstamp]; rfl
  | some t => rw [List.filterMap_cons_some hstamp]; rfl

theorem settlements_concat (hpast : s'.past = s.past ++ [e]) (id : Uuid) (t : Instant) :
    s'.settlements id t = s.settlements id t + if e.settles id t then 1 else 0 := by
  rw [settlements, hpast, List.countP_append, List.countP_singleton, settlements]

theorem Stamped.mem_now (h : s.Stamped id) (hpast : s'.past = s.past ++ [e]) {t : Instant}
    (ht : t ∈ s.stamps id) : t ∈ s'.past.map Exchange.now := by
  rw [hpast, List.map_append]
  exact List.mem_append_left _ (h.dated t ht)

theorem Stamped.quiet (h : s.Stamped id) (hpast : s'.past = s.past ++ [e])
    (hclaimed : ∀ x, s'.memory.message? id = some x → x.claimedAt = x.holder?)
    (hholder : s'.memory.holder? id = s.memory.holder? id) (hstamp : e.stamp? id = none)
    (hsettles : ∀ t, e.settles id t = false) : s'.Stamped id := by
  have hstamps : s'.stamps id = s.stamps id := by
    rw [stamps_concat hpast, hstamp, Option.toList_none, List.append_nil]
  have hsettlements : ∀ t, s'.settlements id t = s.settlements id t := by
    intro t
    rw [settlements_concat hpast, hsettles t]
    rfl
  refine ⟨hclaimed, fun t => ?_, fun t ht => ?_, ?_, fun t => ?_, fun t ht => ?_⟩
  · rw [hholder, h.held_iff, IsCurrent, IsCurrent, hstamps, hsettlements]
  · rw [hstamps] at ht
    exact h.mem_now hpast ht
  · rw [hstamps]
    exact h.increasing
  · rw [hsettlements]
    exact h.once t
  · rw [hsettlements] at ht
    rw [hstamps]
    exact h.handed t ht

theorem Stamped.claim (h : s.Stamped id) (hpast : s'.past = s.past ++ [e])
    (hlater : ∀ t ∈ s.past.map Exchange.now, t < e.now)
    (hclaimed : ∀ x, s'.memory.message? id = some x → x.claimedAt = x.holder?)
    (hholder : s'.memory.holder? id = some e.now) (hstamp : e.stamp? id = some e.now)
    (hsettles : ∀ t, e.settles id t = false) : s'.Stamped id := by
  have hstamps : s'.stamps id = s.stamps id ++ [e.now] := by
    rw [stamps_concat hpast, hstamp, Option.toList_some]
  have hsettlements : ∀ t, s'.settlements id t = s.settlements id t := by
    intro t
    rw [settlements_concat hpast, hsettles t]
    rfl
  -- no stamp is as late as this one
  have hearlier : ∀ t ∈ s.stamps id, t < e.now := fun t ht => hlater t (h.dated t ht)
  have hunsettled : s.settlements id e.now = 0 := by
    by_contra hne
    exact Time.Instant.lt_irrefl _ (hearlier _ (h.handed _ hne))
  refine ⟨hclaimed, fun t => ?_, fun t ht => ?_, ?_, fun t => ?_, fun t ht => ?_⟩
  · rw [hholder, IsCurrent, hstamps, hsettlements, List.getLast?_concat]
    constructor
    · intro ht
      obtain rfl := Option.some.inj ht
      exact ⟨rfl, hunsettled⟩
    · exact fun ht => ht.1
  · rw [hstamps] at ht
    rcases List.mem_append.mp ht with ht | ht
    · exact h.mem_now hpast ht
    · rw [hpast, List.map_append]
      exact List.mem_append_right _ ht
  · rw [hstamps]
    refine List.pairwise_append.mpr ⟨h.increasing, List.pairwise_singleton .., fun t ht u hu => ?_⟩
    rw [List.mem_singleton.mp hu]
    exact hearlier t ht
  · rw [hsettlements]
    exact h.once t
  · rw [hsettlements] at ht
    rw [hstamps]
    exact List.mem_append_left _ (h.handed t ht)

theorem Stamped.settle (h : s.Stamped id) (stamp : Instant) (hpast : s'.past = s.past ++ [e])
    (hclaimed : ∀ x, s'.memory.message? id = some x → x.claimedAt = x.holder?)
    (hheld : s.memory.holder? id = some stamp) (hholder : s'.memory.holder? id = none)
    (hstamp : e.stamp? id = none) (hsettles : ∀ t, e.settles id t = decide (t = stamp)) :
    s'.Stamped id := by
  have hstamps : s'.stamps id = s.stamps id := by
    rw [stamps_concat hpast, hstamp, Option.toList_none, List.append_nil]
  have hsettlements : ∀ t, s'.settlements id t =
      s.settlements id t + if t = stamp then 1 else 0 := by
    intro t
    rw [settlements_concat hpast, hsettles t]
    simp only [decide_eq_true_eq]
  obtain ⟨hlast, hunsettled⟩ := (h.held_iff stamp).mp hheld
  refine ⟨hclaimed, fun t => ?_, fun t ht => ?_, ?_, fun t => ?_, fun t ht => ?_⟩
  · rw [hholder, IsCurrent, hstamps, hsettlements, hlast]
    constructor
    · exact fun ht => absurd ht (by simp)
    · rintro ⟨ht, hnone⟩
      rw [if_pos (Option.some.inj ht).symm] at hnone
      exact absurd hnone (by simp)
  · rw [hstamps] at ht
    exact h.mem_now hpast ht
  · rw [hstamps]
    exact h.increasing
  · rw [hsettlements]
    by_cases ht : t = stamp
    · rw [ht, hunsettled, if_pos rfl]
    · rw [if_neg ht]
      exact h.once t
  · rw [hstamps]
    rw [hsettlements] at ht
    by_cases heq : t = stamp
    · rw [heq]
      exact List.mem_of_getLast? hlast
    · rw [if_neg heq] at ht
      exact h.handed t ht

theorem holder?_of_message? {m : Memory} {x : Message} (h : m.message? id = some x) :
    m.holder? id = x.holder? := by
  rw [Memory.holder?, h, Option.bind_some]

theorem holder?_of_none {m : Memory} (h : m.message? id = none) : m.holder? id = none := by
  rw [Memory.holder?, h, Option.bind_none]

theorem Stamped.claimedAt_take (h : s.Stamped id) {x : Message}
    (hx : s.memory.message? id = some x) (hlater : ∀ t ∈ s.past.map Exchange.now, t < now) :
    (take now x).claimedAt = some now := by
  refine congrArg some (claimTime_of_lt fun t ht => ?_)
  rw [h.claimed x hx, ← holder?_of_message? hx] at ht
  exact hlater t (h.dated t (List.mem_of_getLast? ((h.held_iff t).mp ht).1))

/-- What a visit does to who holds the message of an id, to what is handed out of it and to what is
settled: nothing, or it is a claim, or it is a verdict under the stamp that the message is held
under. -/
inductive Handles (s : Service) (v : Visit) (id : Uuid) : Prop
  | quiet : (s.serve v).memory.holder? id = s.memory.holder? id →
      (s.exchange v).stamp? id = none → (∀ t, (s.exchange v).settles id t = false) →
      s.Handles v id
  | claim : (s.serve v).memory.holder? id = some (claimTime (s.memory.holder? id) v.now) →
      (s.exchange v).stamp? id = some (claimTime (s.memory.holder? id) v.now) →
      (∀ t, (s.exchange v).settles id t = false) → s.Handles v id
  | settle (stamp : Instant) : s.memory.holder? id = some stamp →
      (s.serve v).memory.holder? id = none → (s.exchange v).stamp? id = none →
      (∀ t, (s.exchange v).settles id t = decide (t = stamp)) → s.Handles v id

theorem handles {v : Visit} (hm : s.memory.Distinct) (hnew : ∀ x ∈ v.request.brings, x.IsNew)
    (hclaimed : ∀ x, s.memory.message? id = some x → x.claimedAt = x.holder?) :
    (∀ x, (s.serve v).memory.message? id = some x → x.claimedAt = x.holder?) ∧
      s.Handles v id := by
  obtain ⟨now, q⟩ := v
  have hfate := Memory.fate hm now q id
  generalize hbefore : s.memory.message? id = before at hfate hclaimed
  generalize hafter : (s.memory.answer now q).2.message? id = after at hfate
  have hafter' : (s.serve ⟨now, q⟩).memory.message? id = after := hafter
  rw [hafter']
  cases hfate with
  | left _ hout hrefused =>
      refine ⟨hclaimed, .quiet ?_ ?_ fun t => ?_⟩
      · rw [Memory.holder?, Memory.holder?, hafter', hbefore]
      · rw [Exchange.stamp?, exchange, hout, Option.bind_none]
      · rw [Exchange.settles, Option.any_eq_false]
        intro v hv
        by_cases hid : v.id = id
        · simp [exchange, hrefused v hv hid]
        · simp [hid]
  | brought hq hx hid =>
      rename_i c x
      subst hq
      have hnone : x.holder? = none := (hnew x hx).holder?
      refine ⟨fun y hy => ?_, .quiet ?_ rfl fun t => rfl⟩
      · obtain rfl := Option.some.inj hy
        obtain ⟨_, _, _, _, rfl⟩ := hnew x hx
        rfl
      · rw [holder?_of_message? hafter', holder?_of_none hbefore, hnone]
  | taken hq heligible hout =>
      rename_i batch staleBefore x
      have hstamp : (take now x).claimedAt = some (claimTime (s.memory.holder? id) now) := by
        rw [holder?_of_message? hbefore, ← hclaimed x rfl]
        rfl
      refine ⟨fun y hy => ?_, .claim ?_ ?_ fun t => ?_⟩
      · obtain rfl := Option.some.inj hy
        rfl
      · rw [holder?_of_message? hafter']
        exact hstamp
      · rw [Exchange.stamp?, exchange, hout, Option.bind_some, hstamp]
      · subst hq
        rfl
  | changed hq hid hheld haccepted =>
      rename_i v x
      have hreleases := Store.Request.verdict?_releases hq
      have hnone : (v.change x).holder? = none := if_neg (hreleases.status x)
      refine ⟨fun y hy => ?_, .settle v.stamp ?_ ?_ ?_ fun t => ?_⟩
      · obtain rfl := Option.some.inj hy
        rw [hreleases.claimedAt x, hnone]
      · rw [holder?_of_message? hbefore]
        exact isHeld_iff.mp hheld
      · rw [holder?_of_message? hafter', hnone]
      · have hhanded : q.handed (s.memory.answer now q).1 = [] :=
          Store.Request.handed_of_verdict? hq _
        rw [Exchange.stamp?, exchange, hhanded]
        rfl
      · rw [Exchange.settles]
        simp [exchange, hq, hid, haccepted, eq_comm]
  | expired hq hexpired =>
      rename_i cutoff x
      subst hq
      have hnone : x.holder? = none := by
        refine if_neg fun hprocessing => ?_
        simp [Store.Memory.isExpired, hprocessing] at hexpired
      refine ⟨fun y hy => absurd hy (by simp), .quiet ?_ rfl fun t => rfl⟩
      rw [holder?_of_none hafter', holder?_of_message? hbefore, hnone]

/-- Stamps stay in order at a visit later than all others, whichever case of `Handles` it is. -/
theorem Stamped.serve (h : s.Stamped id) (hm : s.memory.Distinct) {v : Visit}
    (hnew : ∀ x ∈ v.request.brings, x.IsNew)
    (hlater : ∀ t ∈ s.past.map Exchange.now, t < v.now) : (s.serve v).Stamped id := by
  obtain ⟨hclaimed, hhandles⟩ := handles hm hnew h.claimed
  cases hhandles with
  | quiet hholder hstamp hsettles => exact h.quiet rfl hclaimed hholder hstamp hsettles
  | claim hholder hstamp hsettles =>
      have htime : claimTime (s.memory.holder? id) v.now = v.now :=
        claimTime_of_lt fun t ht =>
          hlater t (h.dated t (List.mem_of_getLast? ((h.held_iff t).mp ht).1))
      rw [htime] at hholder hstamp
      exact h.claim rfl hlater hclaimed hholder hstamp hsettles
  | settle stamp hheld hholder hstamp hsettles =>
      exact h.settle stamp rfl hclaimed hheld hholder hstamp hsettles

theorem stamped_start {m : Memory} (hm : ∀ x ∈ m.outbox, x.IsNew) (id : Uuid) :
    Stamped { memory := m } id := by
  have hnew : ∀ x, m.message? id = some x → x.claimedAt = none ∧ x.holder? = none := by
    intro x hx
    obtain ⟨_, _, _, _, rfl⟩ := hm x (messageOf?_mem hx).1
    exact ⟨rfl, rfl⟩
  refine ⟨fun x hx => ?_, fun t => ?_, fun t ht => ?_, List.Pairwise.nil, fun t => ?_,
    fun t ht => ?_⟩
  · rw [(hnew x hx).1, (hnew x hx).2]
  · constructor
    · intro ht
      obtain ⟨x, hx, ht⟩ := Option.bind_eq_some_iff.mp ht
      exact absurd ((hnew x hx).2.symm.trans ht) (by simp)
    · rintro ⟨ht, -⟩
      exact absurd ht (by simp [stamps])
  · exact absurd ht List.not_mem_nil
  · exact Nat.zero_le 1
  · exact absurd rfl ht

theorem stamped_run {m : Memory} (hnew : ∀ x ∈ m.outbox, x.IsNew) (visits : List Visit)
    (hreceives : m.Receives visits) (hclock : (visits.map Visit.now).Pairwise (· < ·))
    (id : Uuid) : (run { memory := m } visits).Stamped id := by
  induction visits using List.reverseRecOn with
  | nil => exact stamped_start hnew id
  | append_singleton visits v ih =>
      rw [List.map_append] at hclock
      obtain ⟨hbefore, -, hlater⟩ := List.pairwise_append.mp hclock
      have hlast := receives_last { memory := m } hreceives
      rw [run_concat]
      refine (ih hreceives.earlier hbefore).serve hlast.distinct_memory
        (hlast.new v (List.mem_singleton.mpr rfl)) fun t ht => ?_
      rw [now_past] at ht
      exact hlater t ht v.now (by simp)

/-- A visit is fenced. -/
structure Fences (s : Service) (v : Visit) : Prop where
  /-- A verdict is accepted exactly if it is given under the last stamp that has been handed out for
  its message, and none has been accepted under it. -/
  accepted_iff : ∀ verdict, v.request.verdict? v.now = some verdict →
    ((s.memory.answer v.now v.request).1.toBool = true ↔ s.IsCurrent verdict.id verdict.stamp)
  refused : ∀ verdict, v.request.verdict? v.now = some verdict →
    ¬ s.IsCurrent verdict.id verdict.stamp →
    s.memory.answer v.now v.request = (.error (.notClaimed verdict.id), s.memory)
  /-- In particular, it is refused if the message has been handed out again since. -/
  superseded : ∀ verdict earlier later, v.request.verdict? v.now = some verdict →
    s.stamps verdict.id = earlier ++ verdict.stamp :: later → later ≠ [] →
    s.memory.answer v.now v.request = (.error (.notClaimed verdict.id), s.memory)
  /-- What is handed out is held from then on under the stamp that is handed out with it. -/
  hands : ∀ x ∈ v.request.handed (s.memory.answer v.now v.request).1,
    x.claimedAt = some v.now ∧ (s.serve v).IsCurrent x.id v.now
  /-- What is held is handed out again only if its claim has grown old. -/
  again : ∀ batch staleBefore, v.request = .claim batch staleBefore →
    ∀ x ∈ v.request.handed (s.memory.answer v.now v.request).1, ∀ t, s.IsCurrent x.id t →
      t < staleBefore

/-- Nothing has been settled twice, or under a stamp that was not handed out; and no stamp has been
handed out twice for a message. -/
structure Orderly (s : Service) : Prop where
  increasing : ∀ id, (s.stamps id).Pairwise (· < ·)
  once : ∀ id t, s.settlements id t ≤ 1
  handed : ∀ id t, s.settlements id t ≠ 0 → t ∈ s.stamps id

theorem Stamped.isCurrent_iff (h : s.Stamped id) (t : Instant) :
    s.IsCurrent id t ↔ ∃ x, s.memory.message? id = some x ∧ isHeld t x = true := by
  rw [← h.held_iff, Memory.holder?, Option.bind_eq_some_iff]
  simp only [isHeld_iff]

theorem Stamped.not_isCurrent (h : s.Stamped id) {t : Instant} {earlier later : List Instant}
    (hstamps : s.stamps id = earlier ++ t :: later) (hlater : later ≠ []) : ¬ s.IsCurrent id t := by
  rintro ⟨hlast, -⟩
  have hincreasing := h.increasing
  rw [hstamps] at hincreasing
  rw [hstamps, List.append_cons, List.getLast?_append_of_ne_nil _ hlater] at hlast
  -- the last stamp would be later than itself
  obtain ⟨-, hafter, -⟩ := List.pairwise_append.mp hincreasing
  have hlt := (List.pairwise_cons.mp hafter).1 _ (List.mem_of_getLast? hlast)
  exact Time.Instant.lt_irrefl _ hlt

theorem Stamped.refused {q : Request} {v : Verdict} (h : s.Stamped v.id)
    (hq : q.verdict? now = some v) (hnot : ¬ s.IsCurrent v.id v.stamp) :
    s.memory.answer now q = (.error (.notClaimed v.id), s.memory) := by
  rcases s.memory.verdict_accepted_or_refused hq with ⟨x, _, hx, hstamp, -⟩ | ⟨-, hanswer⟩
  · exact absurd ((h.isCurrent_iff v.stamp).mpr ⟨x, hx, hstamp⟩) hnot
  · exact hanswer

theorem Stamped.accepted_iff {q : Request} {v : Verdict} (h : s.Stamped v.id)
    (hq : q.verdict? now = some v) :
    (s.memory.answer now q).1.toBool = true ↔ s.IsCurrent v.id v.stamp := by
  constructor
  · intro haccepted
    by_contra hnot
    rw [h.refused hq hnot] at haccepted
    exact absurd haccepted (by simp [Except.toBool])
  · intro hcurrent
    obtain ⟨x, hx, hstamp⟩ := (h.isCurrent_iff v.stamp).mp hcurrent
    rcases s.memory.verdict_accepted_or_refused hq with ⟨_, a, -, -, hanswer, -⟩ | ⟨hnone, -⟩
    · rw [hanswer]
      rfl
    · exact absurd (hstamp.symm.trans (hnone x hx)) (by simp)

theorem exists_taken (hm : s.memory.Distinct) {batch : Nat} {staleBefore : Instant} {x : Message}
    (hx : x ∈ (s.memory.claim batch staleBefore now).1) :
    ∃ y, s.memory.message? x.id = some y ∧ isEligible staleBefore y = true ∧ x = take now y := by
  obtain ⟨y, i, hy, heligible, -, rfl⟩ := Memory.of_mem_claimed hx
  exact ⟨y, (Store.messageOf?_eq_some_iff hm).mpr ⟨List.mem_of_getElem? hy, rfl⟩, heligible, rfl⟩

theorem Stamped.hands {batch : Nat} {staleBefore : Instant} {x : Message} (h : s.Stamped x.id)
    (hm : s.memory.Distinct) (hlater : ∀ t ∈ s.past.map Exchange.now, t < now)
    (hx : x ∈ (s.memory.claim batch staleBefore now).1) :
    x.claimedAt = some now ∧ (s.serve ⟨now, .claim batch staleBefore⟩).IsCurrent x.id now := by
  obtain ⟨y, hy, -, rfl⟩ := exists_taken hm hx
  have hstamp := h.claimedAt_take hy hlater
  have hserved := h.serve (v := ⟨now, .claim batch staleBefore⟩) hm
    (fun x hx => absurd hx List.not_mem_nil) hlater
  refine ⟨hstamp, (hserved.held_iff now).mp ?_⟩
  rcases Memory.claim_takes_or_leaves hm batch staleBefore now (take now y).id with
    ⟨z, hz, -, -, hafter⟩ | ⟨hout, -⟩
  · obtain rfl := Option.some.inj (hy.symm.trans hz)
    exact (holder?_of_message? hafter).trans hstamp
  · exact absurd (List.mem_map_of_mem hx) (Store.messageOf?_eq_none_iff.mp hout)

theorem Stamped.lt_staleBefore {batch : Nat} {staleBefore t : Instant} {x : Message}
    (h : s.Stamped x.id) (hm : s.memory.Distinct)
    (hx : x ∈ (s.memory.claim batch staleBefore now).1) (hcurrent : s.IsCurrent x.id t) :
    t < staleBefore := by
  obtain ⟨y, hy, heligible, rfl⟩ := exists_taken hm hx
  have hholder := (h.held_iff t).mpr hcurrent
  rw [holder?_of_message? hy] at hholder
  -- it is held, so it can be eligible only as a message whose claim has grown old
  have hclaimed := (h.claimed y hy).trans hholder
  unfold Message.holder? at hholder
  split at hholder
  · rename_i hprocessing
    simpa [isEligible, hprocessing, hclaimed] using heligible
  · exact absurd hholder (by simp)

/-- Where every message is `Stamped`, a visit later than all others is fenced. -/
theorem fences (h : ∀ id, s.Stamped id) (hm : s.memory.Distinct) {v : Visit}
    (hlater : ∀ t ∈ s.past.map Exchange.now, t < v.now) : s.Fences v := by
  constructor
  case accepted_iff => exact fun verdict hq => (h verdict.id).accepted_iff hq
  case refused => exact fun verdict hq => (h verdict.id).refused hq
  case superseded =>
    intro verdict earlier later hq hstamps hlast
    exact (h verdict.id).refused hq ((h verdict.id).not_isCurrent hstamps hlast)
  case hands =>
    intro x hx
    obtain ⟨now, q⟩ := v
    obtain ⟨batch, staleBefore, rfl, hx'⟩ := Memory.exists_claim_of_mem_handed hx
    exact (h x.id).hands hm hlater hx'
  case again =>
    rintro batch staleBefore hq x hx t hcurrent
    obtain ⟨now, q⟩ := v
    obtain rfl : q = .claim batch staleBefore := hq
    exact (h x.id).lt_staleBefore hm hx hcurrent

end Service

/-- Calls have written to a store on which nothing had happened. Then it is visited, by any number
of deliverers and with any requests, also with commits of new messages, while the clock goes forward
from visit to visit: the next visit is fenced (`Fences`), and nothing has been settled twice
(`Orderly`). -/
theorem claims_fence (steps : List (Interleaving.Step Call)) (visits : List Visit) (v : Visit)
    (hreceives : ((Interleaving.on .empty).run steps : Traffic).memory.Receives (visits ++ [v]))
    (hclock : ((visits ++ [v]).map Visit.now).Pairwise (· < ·)) :
    let s := Service.run { memory := ((Interleaving.on .empty).run steps : Traffic).memory } visits
    s.Fences v ∧ (s.serve v).Orderly := by
  intro s
  obtain ⟨-, hnew⟩ := Traffic.distinct_new steps
  have hlast := Service.receives_last { memory := _ } hreceives
  have hstamped := fun id => Service.stamped_run hnew (visits ++ [v]) hreceives hclock id
  rw [List.map_append] at hclock
  obtain ⟨hbefore, -, hlater⟩ := List.pairwise_append.mp hclock
  have hstamped' := fun id => Service.stamped_run hnew visits hreceives.earlier hbefore id
  refine ⟨Service.fences hstamped' hlast.distinct_memory fun t ht => ?_, ?_⟩
  · rw [Service.now_past] at ht
    exact hlater t ht v.now (by simp)
  · rw [Service.run_concat] at hstamped
    exact {
      increasing := fun id => (hstamped id).increasing
      once := fun id => (hstamped id).once
      handed := fun id => (hstamped id).handed }

/-- One credit, with its two messages. -/
def oneCredit : List (Interleaving.Step Call) :=
  .start { command := .post (.credit .nil "MAD" 100 "in") } ::
    (List.range 12).map fun n => .act 0 { now := .epoch, id := ⟨BitVec.ofNat 128 n⟩ }

/-- A message is claimed, and claimed again when the first claim has grown old; the first deliverer
comes late; the second one fails to deliver, and the message is claimed a third time. -/
def lateDeliverer : List Visit :=
  let second (n : Nat) : Instant := { Instant.epoch with seconds := n }
  [{ now := second 1, request := .claim 10 .epoch },
    { now := second 3, request := .claim 10 (second 2) },
    { now := second 4, request := .complete ⟨5⟩ (second 1) },
    { now := second 5, request := .recordFailure ⟨5⟩ (second 3) "unreachable" 5 },
    { now := second 6, request := .claim 10 .epoch }]

theorem claims_fence_lateDeliverer :
    let m := ((Interleaving.on .empty).run oneCredit : Traffic).memory
    let second (n : Nat) : Instant := { seconds := n, nanos := 0 }
    let v : Visit := { now := second 7, request := .complete ⟨5⟩ (second 6) }
    let s := Service.run { memory := m } lateDeliverer
    m.Receives (lateDeliverer ++ [v]) ∧
      ((lateDeliverer ++ [v]).map Visit.now).Pairwise (· < ·) ∧
      s.stamps ⟨5⟩ = [second 1, second 3, second 6] ∧
      (s.serve v).past.map (fun e => e.reply.toBool) = [true, true, false, true, true, true] ∧
      s.Fences v ∧ (s.serve v).Orderly := by
  intro m second v s
  have hnone : ∀ v' ∈ lateDeliverer ++ [v], v'.request.brings = [] := by decide +kernel
  have hreceives : m.Receives (lateDeliverer ++ [v]) := by
    refine ⟨fun v' hv' x hx => ?_, by decide +kernel⟩
    rw [hnone v' hv'] at hx
    exact absurd hx List.not_mem_nil
  have hclock : ((lateDeliverer ++ [v]).map Visit.now).Pairwise (· < ·) := by decide +kernel
  refine ⟨hreceives, hclock, ?_, ?_, claims_fence oneCredit lateDeliverer v hreceives hclock⟩
  · simp only [s, lateDeliverer, Service.run, List.foldl, Service.serve, Memory.answer,
      Memory.claim, Memory.eligible_eq_insertionSort]
    decide +kernel
  · simp only [s, lateDeliverer, Service.run, List.foldl, Service.serve, Memory.answer,
      Memory.claim, Memory.eligible_eq_insertionSort]
    decide +kernel

end BalanceLedger
