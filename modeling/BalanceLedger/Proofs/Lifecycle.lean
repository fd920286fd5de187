/-
# `Proofs.Lifecycle` — what becomes of a message

A message of the outbox waits, is claimed, and is delivered or given up.  Several
requests move it, and each of them writes several of its fields: where it stands, by
whom it is held and since when, what went wrong and how often.  These fields belong
together, which is `Sound`, and no request looks at the table of moves that are allowed.

So it is shown for each visit to a store, whatever is asked and at whatever reading of
the clock, that the fields agree after it if they agreed before, that the message has
made an allowed move or none, and that it is gone only if it was delivered long ago:
`Passes`.  What is never written stays, by `SameContent`; and where a message has come to
its end, an accepted verdict has brought it there.

`Tidy` is the invariant of a store.  It counts as well: `retryCount` is the number of
failures that have been accepted for a message.  `Tidy.serve` is the step and `tidy_run`
the induction.  `Lifecycle` has two parts, what has happened to the messages so far and
what more visits can do to them, and `outbox_lifecycle` proves both for any visits that
bring new messages only.

Nothing is asked of the clock.  A message can be dated before it occurred, but that has
no bearing on how its fields go together.
-/
import BalanceLedger.Proofs.Fencing

namespace BalanceLedger

open Outbox (Message Status)
open Store (Memory Request Verdict messageOf?_mem)
open Store.Memory (isHeld isEligible isExpired take)
open Time (Instant)

/-! ## Messages -/

namespace Outbox.Message

/-- What is never written again agrees. -/
structure SameContent (x y : Message) : Prop where
  id : x.id = y.id
  eventType : x.eventType = y.eventType
  payload : x.payload = y.payload
  occurredAt : x.occurredAt = y.occurredAt
  correlationId : x.correlationId = y.correlationId
  initiatedBy : x.initiatedBy = y.initiatedBy

/-- The fields of a message that belong together agree. -/
structure Sound (x : Message) : Prop where
  claimedAt : x.claimedAt.isSome = true ↔ x.status = .processing
  processedAt : x.processedAt.isSome = true ↔ x.status = .completed
  completed : x.status = .completed → x.error = none
  failed : x.status = .failed → x.error.isSome = true
  /-- While it can be tried again, one more failure can be counted. -/
  countable : x.status.isTerminal = false → x.retryCount.toInt < Word.maxInt32

variable {x y z : Message}

theorem SameContent.refl (x : Message) : x.SameContent x :=
  ⟨rfl, rfl, rfl, rfl, rfl, rfl⟩

theorem SameContent.trans (h : x.SameContent y) (h' : y.SameContent z) : x.SameContent z :=
  ⟨h.id.trans h'.id, h.eventType.trans h'.eventType, h.payload.trans h'.payload,
    h.occurredAt.trans h'.occurredAt, h.correlationId.trans h'.correlationId,
    h.initiatedBy.trans h'.initiatedBy⟩

theorem SameContent.symm (h : x.SameContent y) : y.SameContent x :=
  ⟨h.id.symm, h.eventType.symm, h.payload.symm, h.occurredAt.symm, h.correlationId.symm,
    h.initiatedBy.symm⟩

theorem IsNew.sound (h : x.IsNew) : x.Sound ∧ x.status = .pending ∧ x.retryCount = 0 := by
  obtain ⟨_, _, _, _, rfl⟩ := h
  refine ⟨⟨?_, ?_, ?_, ?_, ?_⟩, rfl, rfl⟩ <;> simp [ofEvent, Word.maxInt32]

theorem sameContent_take (now : Instant) (x : Message) : (take now x).SameContent x :=
  ⟨rfl, rfl, rfl, rfl, rfl, rfl⟩

theorem isTerminal_of_isEligible {staleBefore : Instant} (h : isEligible staleBefore x = true) :
    x.status.isTerminal = false := by
  unfold isEligible at h
  cases hs : x.status <;> simp_all [Status.isTerminal]

theorem Sound.take (h : x.Sound) {staleBefore : Instant}
    (heligible : isEligible staleBefore x = true) (now : Instant) : (take now x).Sound := by
  have hopen := isTerminal_of_isEligible heligible
  have hprocessed : x.processedAt.isSome = false := by
    rw [Bool.eq_false_iff, Ne, h.processedAt]
    intro hs
    rw [hs] at hopen
    exact absurd hopen (by simp [Status.isTerminal])
  constructor
  case countable => exact fun _ => h.countable hopen
  all_goals simp [Store.Memory.take, hprocessed]

theorem canBecome_take {staleBefore : Instant} (heligible : isEligible staleBefore x = true)
    (now : Instant) : x.status.canBecome (take now x).status = true := by
  show x.status.canBecome .processing = true
  unfold isEligible at heligible
  cases hs : x.status <;> simp_all [Status.canBecome]

/-! ## Verdicts -/

theorem status_of_isHeld {stamp : Instant} (h : isHeld stamp x = true) :
    x.status = .processing := by
  simp only [isHeld, Bool.and_eq_true, decide_eq_true_eq] at h
  exact h.1

theorem claimedAt_of_isHeld {stamp : Instant} (h : isHeld stamp x = true) :
    x.claimedAt = some stamp := by
  simp only [isHeld, Bool.and_eq_true, decide_eq_true_eq] at h
  exact h.2

theorem toInt_retryCount_succ (h : x.retryCount.toInt < Word.maxInt32) :
    (x.retryCount + 1).toInt = x.retryCount.toInt + 1 := by
  have hlow := x.retryCount.le_toInt
  rw [Int32.toInt_add, Int.bmod_eq_of_le]
  · rfl
  · show _ ≤ x.retryCount.toInt + 1
    omega
  · show x.retryCount.toInt + 1 < _
    unfold Word.maxInt32 at h
    omega

theorem Sound.change {now : Instant} {q : Request} {v : Verdict} (h : x.Sound)
    (hq : q.verdict? now = some v) (hheld : isHeld v.stamp x = true) : (v.change x).Sound := by
  have hs := status_of_isHeld hheld
  have hcount := h.countable (by rw [hs]; rfl)
  have hprocessed : x.processedAt.isSome = false := by
    rw [Bool.eq_false_iff, Ne, h.processedAt, hs]
    simp
  cases q with
  | complete id stamp =>
      obtain rfl := Option.some.inj hq
      constructor <;> simp [Store.Memory.delivered, Status.isTerminal]
  | recordFailure id stamp error maxRetries =>
      obtain rfl := Option.some.inj hq
      by_cases hlast : maxRetries ≤ x.retryCount + 1
      · constructor <;> simp [Store.Memory.undelivered, hlast, hprocessed, Status.isTerminal]
      · constructor
        case countable =>
          -- the limit itself is a number, so the count below it is one that can grow
          intro _
          have hhigh := maxRetries.toInt_lt
          have hlt := Int32.lt_iff_toInt_lt.mp (Int32.not_le.mp hlast)
          show (x.retryCount + 1).toInt < Word.maxInt32
          unfold Word.maxInt32
          omega
        all_goals simp [Store.Memory.undelivered, hlast, hprocessed]
  | markFailed id stamp error =>
      obtain rfl := Option.some.inj hq
      constructor <;> simp [Store.Memory.parked, hprocessed, Status.isTerminal]
  | _ => exact absurd hq (by simp [Store.Request.verdict?])

theorem sameContent_change {now : Instant} {q : Request} {v : Verdict}
    (hq : q.verdict? now = some v) (x : Message) : (v.change x).SameContent x := by
  cases q with
  | complete | recordFailure | markFailed =>
      obtain rfl := Option.some.inj hq
      exact ⟨rfl, rfl, rfl, rfl, rfl, rfl⟩
  | _ => exact absurd hq (by simp [Store.Request.verdict?])

end Outbox.Message

/-! ## One visit -/

def Exchange.fails (id : Uuid) : Exchange → Bool
  | ⟨_, .recordFailure id' .., .ok _⟩ => id' = id
  | _ => false

/-- Where the message of an id stands before and after a visit. -/
inductive Visit.Passes (v : Visit) : Option Message → Option Message → Prop
  /-- It stays as it is, or it is not there. -/
  | stays (found : Option Message) : v.Passes found found
  | enters {x : Message} : x ∈ v.request.brings → x.status = .pending → v.Passes none (some x)
  /-- It makes an allowed move. -/
  | moves {x y : Message} : y.SameContent x → x.status.canBecome y.status = true →
      v.Passes (some x) (some y)
  /-- It was delivered long ago and is deleted. -/
  | leaves {x : Message} {cutoff t : Instant} : v.request = .purge cutoff →
      x.status = .completed → x.processedAt = some t → t < cutoff → v.Passes (some x) none

theorem Visit.Passes.terminal {v : Visit} {x : Message} {after : Option Message}
    (h : v.Passes (some x) after) (hx : x.status.isTerminal = true) :
    after = some x ∨ after = none := by
  cases h with
  | stays => exact .inl rfl
  | moves _ hmove =>
      cases hs : x.status <;> simp_all [Status.isTerminal, Status.canBecome]
  | leaves => exact .inr rfl

/-- What is there after a visit was there before, with the `SameContent`, or it has come in. -/
theorem Visit.Passes.sameContent {v : Visit} {before : Option Message} {y : Message}
    (h : v.Passes before (some y)) :
    (∃ x, before = some x ∧ y.SameContent x) ∨ before = none ∧ y ∈ v.request.brings := by
  cases h with
  | stays => exact .inl ⟨y, rfl, .refl y⟩
  | enters hy _ => exact .inr ⟨rfl, hy⟩
  | moves hsame _ => exact .inl ⟨_, rfl, hsame⟩

theorem Exchange.fails_iff {id : Uuid} {e : Exchange} :
    e.fails id = true ↔ ∃ stamp error maxRetries,
      e.request = .recordFailure id stamp error maxRetries ∧ e.reply.toBool = true := by
  obtain ⟨now, request, reply⟩ := e
  cases request with
  | recordFailure id' stamp error maxRetries =>
      cases reply with
      | ok status =>
          constructor
          · intro h
            obtain rfl : id' = id := of_decide_eq_true h
            exact ⟨stamp, error, maxRetries, rfl, rfl⟩
          · rintro ⟨_, _, _, h, -⟩
            obtain ⟨rfl, -, -, -⟩ := Request.recordFailure.inj h
            exact decide_eq_true rfl
      | error f => simp [fails, Except.toBool]
  | _ => simp [fails]

theorem Exchange.fails_eq_false {id : Uuid} {e : Exchange}
    (h : ∀ stamp error maxRetries, e.request ≠ .recordFailure id stamp error maxRetries) :
    e.fails id = false := by
  rw [Bool.eq_false_iff, Ne, fails_iff]
  rintro ⟨stamp, error, maxRetries, hq, -⟩
  exact h _ _ _ hq

theorem Outbox.Message.retryCount_change {now : Instant} {q : Request} {v : Verdict}
    (hq : q.verdict? now = some v) (x : Message) :
    (∃ stamp error maxRetries, q = .recordFailure v.id stamp error maxRetries ∧
        (v.change x).retryCount = x.retryCount + 1) ∨
      (∀ id stamp error maxRetries, q ≠ .recordFailure id stamp error maxRetries) ∧
        (v.change x).retryCount = x.retryCount := by
  cases q with
  | recordFailure id stamp error maxRetries =>
      obtain rfl := Option.some.inj hq
      exact .inl ⟨stamp, error, maxRetries, rfl, rfl⟩
  | complete | markFailed =>
      obtain rfl := Option.some.inj hq
      exact .inr ⟨by simp, rfl⟩
  | _ => exact absurd hq (by simp [Store.Request.verdict?])

namespace Service

variable {s : Service} {visits more : List Visit} {v : Visit} {id : Uuid}

def failures (s : Service) (id : Uuid) : Nat :=
  s.past.countP (Exchange.fails id)

def brought (s : Service) : List Message :=
  s.past.flatMap fun e => e.request.brings

theorem brought_run (visits : List Visit) :
    (s.run visits).brought = s.brought ++ visits.flatMap fun v => v.request.brings := by
  induction visits using List.reverseRecOn with
  | nil => simp [run]
  | append_singleton visits v ih =>
      rw [run_concat, brought, serve, List.flatMap_append, ← brought, ih, List.flatMap_append,
        List.append_assoc]
      rfl

theorem brought_append (visits more : List Visit) :
    (s.run (visits ++ more)).brought =
      (s.run visits).brought ++ more.flatMap fun v => v.request.brings := by
  rw [run_append, brought_run]

theorem failures_serve (s : Service) (v : Visit) (id : Uuid) :
    (s.serve v).failures id = s.failures id + if (s.exchange v).fails id then 1 else 0 := by
  rw [failures, past_serve, List.countP_append, List.countP_singleton, failures]

theorem brought_serve (s : Service) (v : Visit) :
    (s.serve v).brought = s.brought ++ v.request.brings := by
  rw [brought, past_serve, List.flatMap_append, List.flatMap_singleton, brought]
  rfl

/-- The fields of a message agree, and they say what has happened to it. -/
structure Tidies (s : Service) (x : Message) : Prop where
  sound : x.Sound
  counted : x.retryCount.toInt = s.failures x.id
  /-- It is a message that has come in. -/
  brought : ∃ y ∈ s.brought, x.SameContent y
  /-- Where it has come to its end, a verdict has brought it there. -/
  judged : x.status.isTerminal = true → ∃ e ∈ s.past, ∃ v y,
    e.request.verdict? e.now = some v ∧ v.id = x.id ∧ e.reply.toBool = true ∧ x = v.change y

/-- A store is in order: ids are `Distinct`, and `Tidies` holds of every message. -/
structure Tidy (s : Service) : Prop where
  distinct : s.memory.Distinct
  tidies : ∀ id x, s.memory.message? id = some x → s.Tidies x
  /-- A failure is counted of a message that has come in. -/
  traced : ∀ id, s.failures id ≠ 0 → id ∈ s.brought.map Message.id

variable {x : Message}

theorem Tidies.left (h : s.Tidies x) (hquiet : (s.exchange v).fails x.id = false) :
    (s.serve v).Tidies x where
  sound := h.sound
  counted := by
    rw [failures_serve, hquiet]
    exact h.counted
  brought := by
    obtain ⟨y, hy, hsame⟩ := h.brought
    exact ⟨y, brought_serve s v ▸ List.mem_append_left _ hy, hsame⟩
  judged hx := by
    obtain ⟨e, he, hjudged⟩ := h.judged hx
    exact ⟨e, past_serve s v ▸ List.mem_append_left _ he, hjudged⟩

theorem Tidies.taken {staleBefore : Instant} (h : s.Tidies x)
    (heligible : isEligible staleBefore x = true) (hquiet : (s.exchange v).fails x.id = false)
    (now : Instant) : (s.serve v).Tidies (take now x) where
  sound := h.sound.take heligible now
  counted := (h.left hquiet).counted
  brought := by
    obtain ⟨y, hy, hsame⟩ := (h.left hquiet).brought
    exact ⟨y, hy, (Message.sameContent_take now x).trans hsame⟩
  judged hx := absurd hx (by simp [take, Status.isTerminal])

theorem Tidies.changed {w : Verdict} (h : s.Tidies x) (hv : v.request.verdict? v.now = some w)
    (hid : w.id = x.id) (hheld : isHeld w.stamp x = true)
    (haccepted : (s.exchange v).reply.toBool = true) : (s.serve v).Tidies (w.change x) := by
  have hsame := Message.sameContent_change hv x
  refine ⟨h.sound.change hv hheld, ?_, ?_, fun _ => ?_⟩
  · rw [hsame.id, failures_serve]
    rcases Message.retryCount_change hv x with ⟨stamp, error, maxRetries, hq, hcount⟩ | ⟨hq, hcount⟩
    · have hfails : (s.exchange v).fails x.id = true :=
        Exchange.fails_iff.mpr ⟨stamp, error, maxRetries, hid ▸ hq, haccepted⟩
      have hopen : x.status.isTerminal = false := by
        rw [Message.status_of_isHeld hheld]
        rfl
      rw [hcount, hfails, Message.toInt_retryCount_succ (h.sound.countable hopen), h.counted]
      rfl
    · rw [hcount, Exchange.fails_eq_false (hq x.id)]
      exact h.counted
  · obtain ⟨y, hy, hcontent⟩ := h.brought
    exact ⟨y, brought_serve s v ▸ List.mem_append_left _ hy, hsame.trans hcontent⟩
  · refine ⟨s.exchange v, ?_, w, x, hv, hid.trans hsame.id.symm, haccepted, rfl⟩
    rw [past_serve]
    exact List.mem_append_right _ (List.mem_singleton.mpr rfl)

theorem Tidies.entered (hnew : x.IsNew) (hx : x ∈ v.request.brings)
    (hnone : s.failures x.id = 0) (hquiet : (s.exchange v).fails x.id = false) :
    (s.serve v).Tidies x := by
  obtain ⟨hsound, hpending, hcount⟩ := hnew.sound
  refine ⟨hsound, ?_, ?_, fun h => ?_⟩
  · rw [failures_serve, hquiet, hnone, hcount]
    rfl
  · exact ⟨x, brought_serve s v ▸ List.mem_append_right _ hx, .refl x⟩
  · rw [hpending] at h
    exact absurd h (by simp [Status.isTerminal])

/-- What a visit does to the message of an id, in a store that is `Tidy`. -/
theorem Tidy.serve_message (h : s.Tidy) (hnew : ∀ x ∈ v.request.brings, x.IsNew)
    (hapart : ∀ x ∈ v.request.brings, x.id ∉ s.brought.map Message.id) (id : Uuid) :
    v.Passes (s.memory.message? id) ((s.serve v).memory.message? id) ∧
      (∀ x, (s.serve v).memory.message? id = some x → (s.serve v).Tidies x) ∧
      ((s.exchange v).fails id = true → ∃ x, s.memory.message? id = some x) := by
  have hfate := Memory.fate h.distinct v.now v.request id
  have hafter : (s.memory.answer v.now v.request).2.message? id =
    (s.serve v).memory.message? id := rfl
  have hreply : (s.memory.answer v.now v.request).1 = (s.exchange v).reply := rfl
  rw [hafter, hreply] at hfate
  generalize hbefore : s.memory.message? id = before at hfate ⊢
  generalize (s.serve v).memory.message? id = after at hfate ⊢
  cases hfate with
  | left _ _ hrefused =>
      have hquiet : (s.exchange v).fails id = false := by
        rw [Bool.eq_false_iff, Ne, Exchange.fails_iff]
        rintro ⟨stamp, error, maxRetries, hq, haccepted⟩
        have hv : v.request.verdict? v.now =
            some ⟨id, stamp, Memory.undelivered error maxRetries⟩ := by
          rw [show v.request = _ from hq]
          rfl
        exact absurd ((hrefused _ hv rfl).symm.trans haccepted) (by simp)
      refine ⟨.stays _, fun x hx => ?_, fun hfails => absurd (hquiet.symm.trans hfails) (by simp)⟩
      obtain rfl := (messageOf?_mem (hbefore.trans hx)).2
      exact (h.tidies _ x (hbefore.trans hx)).left hquiet
  | brought hq hx hid =>
      rename_i c x
      have hquiet : (s.exchange v).fails id = false :=
        Exchange.fails_eq_false fun _ _ _ h => absurd (hq.symm.trans h) (by simp)
      have hbrings : x ∈ v.request.brings := by rw [hq]; exact hx
      have hnone : s.failures x.id = 0 := by
        by_contra hne
        exact hapart x hbrings (h.traced _ hne)
      refine ⟨.enters hbrings (hnew x hbrings).sound.2.1, fun y hy => ?_,
        fun hfails => absurd (hquiet.symm.trans hfails) (by simp)⟩
      obtain rfl := Option.some.inj hy
      exact .entered (hnew x hbrings) hbrings hnone (hid ▸ hquiet)
  | taken hq heligible hout =>
      rename_i batch staleBefore x
      have hquiet : (s.exchange v).fails id = false :=
        Exchange.fails_eq_false fun _ _ _ h => absurd (hq.symm.trans h) (by simp)
      refine ⟨.moves (Message.sameContent_take v.now x) (Message.canBecome_take heligible v.now),
        fun y hy => ?_, fun _ => ⟨x, rfl⟩⟩
      obtain rfl := Option.some.inj hy
      obtain rfl := (messageOf?_mem hbefore).2
      exact (h.tidies _ x hbefore).taken heligible hquiet v.now
  | changed hq hid hheld haccepted =>
      rename_i w x
      refine ⟨.moves (Message.sameContent_change hq x) ?_, fun y hy => ?_, fun _ => ⟨x, rfl⟩⟩
      · rw [Message.status_of_isHeld hheld]
        rfl
      · obtain rfl := Option.some.inj hy
        have hx := (messageOf?_mem hbefore).2
        exact (h.tidies id x hbefore).changed hq (hid.trans hx.symm) hheld haccepted
  | expired hq hexpired =>
      rename_i cutoff x
      refine ⟨?_, fun y hy => absurd hy (by simp), fun _ => ⟨x, rfl⟩⟩
      simp only [isExpired, Bool.and_eq_true, decide_eq_true_eq, Option.any_eq_true] at hexpired
      obtain ⟨hs, t, ht, hlt⟩ := hexpired
      exact .leaves hq hs ht hlt

/-- A store that is `Tidy` is so after a visit. -/
theorem Tidy.serve (h : s.Tidy) (hnew : ∀ x ∈ v.request.brings, x.IsNew)
    (hdistinct : (s.serve v).memory.Distinct)
    (hapart : ∀ x ∈ v.request.brings, x.id ∉ s.brought.map Message.id) : (s.serve v).Tidy where
  distinct := hdistinct
  tidies id := (h.serve_message hnew hapart id).2.1
  traced id hne := by
    rw [brought_serve, List.map_append]
    refine List.mem_append_left _ ?_
    cases hfails : (s.exchange v).fails id with
    | true =>
        obtain ⟨x, hx⟩ := (h.serve_message hnew hapart id).2.2 hfails
        obtain ⟨y, hy, hsame⟩ := (h.tidies id x hx).brought
        exact List.mem_map.mpr ⟨y, hy, hsame.id.symm.trans (messageOf?_mem hx).2⟩
    | false =>
        rw [failures_serve, hfails] at hne
        exact h.traced id hne

/-! ## Many visits -/

theorem tidy_start : Tidy { memory := .empty } where
  distinct := List.nodup_nil
  tidies _ _ hx := absurd (messageOf?_mem hx).1 List.not_mem_nil
  traced _ hne := absurd rfl hne

theorem not_mem_brought (h : Memory.empty.Receives (visits ++ [v])) :
    ∀ x ∈ v.request.brings, x.id ∉ (run { memory := .empty } visits).brought.map Message.id := by
  intro x hx hid
  have hall := h.distinct
  rw [brought_run] at hid
  rw [List.flatMap_append, ← List.append_assoc, List.map_append, List.flatMap_singleton] at hall
  exact (List.nodup_append.mp hall).2.2 _ hid _ (List.mem_map_of_mem hx) rfl

/-- A store on which nothing had happened is `Tidy` after visits. -/
theorem tidy_run (h : Memory.empty.Receives visits) : (run { memory := .empty } visits).Tidy := by
  induction visits using List.reverseRecOn with
  | nil => exact tidy_start
  | append_singleton visits v ih =>
      have hlast := receives_last { memory := .empty } h
      rw [run_concat]
      refine (ih h.earlier).serve (hlast.new v (List.mem_singleton.mpr rfl)) ?_ (not_mem_brought h)
      have hids := hlast.distinct
      rw [List.flatMap_singleton, List.map_append] at hids
      exact hids.sublist (Memory.map_id_answer _ v.now v.request)

theorem nodup_brought (h : Memory.empty.Receives visits) :
    ((run { memory := .empty } visits).brought.map Message.id).Nodup := by
  rw [brought_run]
  exact h.distinct

theorem sameContent_of_id_eq {x y : Message} (h : Memory.empty.Receives visits)
    (hx : ∃ z ∈ (run { memory := .empty } visits).brought, x.SameContent z)
    (hy : ∃ z ∈ (run { memory := .empty } visits).brought, y.SameContent z) (hid : x.id = y.id) :
    x.SameContent y := by
  obtain ⟨z, hz, hx⟩ := hx
  obtain ⟨z', hz', hy⟩ := hy
  obtain rfl := List.inj_on_of_nodup_map (nodup_brought h) hz hz'
    (hx.id.symm.trans (hid.trans hy.id))
  exact hx.trans hy.symm

theorem passes (h : Memory.empty.Receives (visits ++ [v])) (id : Uuid) :
    v.Passes ((run { memory := .empty } visits).memory.message? id)
      ((run { memory := .empty } (visits ++ [v])).memory.message? id) := by
  rw [run_concat]
  exact ((tidy_run h.earlier).serve_message (h.new v (by simp)) (not_mem_brought h) id).1

theorem gone_concat (h : Memory.empty.Receives (visits ++ [v]))
    (hid : id ∈ (run { memory := .empty } visits).brought.map Message.id)
    (hgone : (run { memory := .empty } visits).memory.message? id = none) :
    (run { memory := .empty } (visits ++ [v])).memory.message? id = none := by
  have hpasses := passes h id
  rw [hgone] at hpasses
  cases hafter : (run { memory := .empty } (visits ++ [v])).memory.message? id with
  | none => rfl
  | some y =>
      rw [hafter] at hpasses
      rcases hpasses.sameContent with ⟨x, hx, -⟩ | ⟨-, hy⟩
      · exact absurd hx (by simp)
      · obtain rfl := (messageOf?_mem hafter).2
        exact absurd hid (not_mem_brought h y hy)

/-- A message that `isTerminal` is as it was, or it has been deleted. -/
theorem final_run {x : Message} (h : Memory.empty.Receives (visits ++ more))
    (hx : (run { memory := .empty } visits).memory.message? id = some x)
    (hterminal : x.status.isTerminal = true) :
    (run { memory := .empty } (visits ++ more)).memory.message? id = some x ∨
      (run { memory := .empty } (visits ++ more)).memory.message? id = none := by
  induction more using List.reverseRecOn with
  | nil => exact .inl (by rwa [List.append_nil])
  | append_singleton more v ih =>
      rw [← List.append_assoc] at h ⊢
      rcases ih h.earlier with hsame | hgone
      · have hpasses := passes h id
        rw [hsame] at hpasses
        exact hpasses.terminal hterminal
      · refine .inr (gone_concat h ?_ hgone)
        obtain ⟨y, hy, hcontent⟩ := ((tidy_run h.earlier.earlier).tidies id x hx).brought
        rw [brought_append, List.map_append]
        refine List.mem_append_left _ (List.mem_map.mpr ⟨y, hy, ?_⟩)
        exact hcontent.id.symm.trans (messageOf?_mem hx).2

/-- A message that is gone has been delivered, and a `.purge` has deleted it when that was long ago.
-/
theorem exists_purge {x : Message} (h : Memory.empty.Receives (visits ++ more))
    (hx : (run { memory := .empty } visits).memory.message? id = some x)
    (hgone : (run { memory := .empty } (visits ++ more)).memory.message? id = none) :
    ∃ before v after cutoff y t, more = before ++ v :: after ∧ v.request = .purge cutoff ∧
      (run { memory := .empty } (visits ++ before)).memory.message? id = some y ∧
      y.status = .completed ∧ y.processedAt = some t ∧ t < cutoff := by
  induction more using List.reverseRecOn with
  | nil =>
      rw [List.append_nil] at hgone
      exact absurd (hx.symm.trans hgone) (by simp)
  | append_singleton more v ih =>
      rw [← List.append_assoc] at h hgone
      cases hbefore : (run { memory := .empty } (visits ++ more)).memory.message? id with
      | none =>
          obtain ⟨before, w, after, cutoff, y, t, rfl, hw⟩ := ih h.earlier hbefore
          exact ⟨before, w, after ++ [v], cutoff, y, t, by simp, hw⟩
      | some y =>
          have hpasses := passes h id
          rw [hbefore, hgone] at hpasses
          cases hpasses with
          | leaves hq hs ht hlt => exact ⟨more, v, [], _, y, _, rfl, hq, hbefore, hs, ht, hlt⟩

/-- What has happened to the messages of a store, and what more visits can do to them. -/
structure Lifecycle (s : Service) (more : List Visit) : Prop where
  distinct : s.memory.Distinct
  sound : ∀ x ∈ s.memory.outbox, x.Sound
  /-- The count is a number of failures, so it has not gone round. -/
  counted : ∀ x ∈ s.memory.outbox, x.retryCount.toInt = s.failures x.id
  /-- Each visit makes an allowed move, or none. -/
  passes : ∀ v rest, more = v :: rest → ∀ id,
    v.Passes (s.memory.message? id) ((s.serve v).memory.message? id)
  content : ∀ x ∈ s.memory.outbox, ∀ y ∈ (s.run more).memory.outbox, y.id = x.id →
    y.SameContent x
  final : ∀ x ∈ s.memory.outbox, x.status.isTerminal = true →
    ∀ y ∈ (s.run more).memory.outbox, y.id = x.id → y = x
  /-- What is lost was delivered, and has been deleted by a purge. -/
  lost : ∀ x ∈ s.memory.outbox, (∀ y ∈ (s.run more).memory.outbox, y.id ≠ x.id) →
    ∃ before v after cutoff y t, more = before ++ v :: after ∧ v.request = .purge cutoff ∧
      y ∈ (s.run before).memory.outbox ∧ y.id = x.id ∧ y.status = .completed ∧
      y.processedAt = some t ∧ t < cutoff

end Service

/-- A store on which nothing had happened has been visited, with any requests and at any readings of
the clock, and is visited again: its messages live as they should. -/
theorem outbox_lifecycle (visits more : List Visit)
    (hreceives : Memory.empty.Receives (visits ++ more)) :
    (Service.run { memory := .empty } visits).Lifecycle more := by
  have htidy := Service.tidy_run hreceives.earlier
  have hlater := Service.tidy_run hreceives
  have hrun := Service.run_append (s := { memory := .empty }) visits more
  have hfound : ∀ x ∈ (Service.run { memory := .empty } visits).memory.outbox,
      (Service.run { memory := .empty } visits).memory.message? x.id = some x :=
    fun x hx => (Store.messageOf?_eq_some_iff htidy.distinct).mpr ⟨hx, rfl⟩
  have hfound' : ∀ y ∈ (Service.run { memory := .empty } (visits ++ more)).memory.outbox,
      (Service.run { memory := .empty } (visits ++ more)).memory.message? y.id = some y :=
    fun y hy => (Store.messageOf?_eq_some_iff hlater.distinct).mpr ⟨hy, rfl⟩
  refine ⟨htidy.distinct, fun x hx => (htidy.tidies _ x (hfound x hx)).sound,
    fun x hx => (htidy.tidies _ x (hfound x hx)).counted, ?_, ?_, ?_, ?_⟩
  · rintro v rest rfl id
    rw [List.append_cons] at hreceives
    have hpasses := Service.passes hreceives.earlier id
    rwa [Service.run_concat] at hpasses
  · intro x hx y hy hid
    rw [← hrun] at hy
    obtain ⟨z, hz, hcontent⟩ := (htidy.tidies _ x (hfound x hx)).brought
    refine Service.sameContent_of_id_eq hreceives (hlater.tidies _ y (hfound' y hy)).brought
      ⟨z, ?_, hcontent⟩ hid
    rw [Service.brought_append]
    exact List.mem_append_left _ hz
  · intro x hx hterminal y hy hid
    rw [← hrun] at hy
    have hy' := hfound' y hy
    rw [hid] at hy'
    rcases Service.final_run hreceives (hfound x hx) hterminal with h | h
    · exact Option.some.inj (hy'.symm.trans h)
    · exact absurd (hy'.symm.trans h) (by simp)
  · intro x hx hgone
    rw [← hrun] at hgone
    have hnone :
        (Service.run { memory := .empty } (visits ++ more)).memory.message? x.id = none := by
      rw [Memory.message?, Store.messageOf?_eq_none_iff, List.mem_map]
      rintro ⟨y, hy, hid⟩
      exact hgone y hy hid
    obtain ⟨before, v, after, cutoff, y, t, hmore, hq, hy, hs, ht, hlt⟩ :=
      Service.exists_purge hreceives (hfound x hx) hnone
    rw [Service.run_append] at hy
    exact ⟨before, v, after, cutoff, y, t, hmore, hq, (messageOf?_mem hy).1, (messageOf?_mem hy).2,
      hs, ht, hlt⟩

def secondAttempt : List Visit :=
  let second (n : Nat) : Instant := { Instant.epoch with seconds := n }
  (((Interleaving.on .empty).run oneCredit : Traffic).journal.map fun p =>
      { now := .epoch, request := .commit p.2 }) ++
    [{ now := second 1, request := .claim 10 .epoch },
      { now := second 2, request := .recordFailure ⟨5⟩ (second 1) "unreachable" 5 },
      { now := second 3, request := .claim 1 .epoch }]

/-- It is delivered at last, and deleted later. -/
def lateDelivery : List Visit :=
  let second (n : Nat) : Instant := { Instant.epoch with seconds := n }
  [{ now := second 4, request := .complete ⟨5⟩ (second 3) },
    { now := second 9, request := .purge (second 8) }]

theorem outbox_lifecycle_lateDelivery :
    let s := Service.run { memory := .empty } secondAttempt
    Memory.empty.Receives (secondAttempt ++ lateDelivery) ∧
      s.memory.outbox.map (fun x => (x.id, x.status, x.retryCount)) =
        [(⟨5⟩, .processing, 1), (⟨7⟩, .processing, 0)] ∧
      (s.run lateDelivery).memory.outbox.map (fun x => (x.id, x.status)) = [(⟨7⟩, .processing)] ∧
      s.Lifecycle lateDelivery := by
  intro s
  have hreceives : Memory.empty.Receives (secondAttempt ++ lateDelivery) := by
    refine ⟨fun v hv x hx => ?_, by decide +kernel⟩
    rw [secondAttempt, List.append_assoc] at hv
    rcases List.mem_append.mp hv with hv | hv
    · -- what the credit has written
      obtain ⟨p, hp, rfl⟩ := List.mem_map.mp hv
      refine (Traffic.distinct_new oneCredit).2 x ?_
      rw [Traffic.outbox_eq (Traffic.upheld Memory.indexed_empty oneCredit)]
      exact List.mem_flatMap.mpr ⟨p, hp, hx⟩
    · simp only [lateDelivery, List.mem_append, List.mem_cons, List.not_mem_nil, or_false] at hv
      rcases hv with (rfl | rfl | rfl) | rfl | rfl <;> exact absurd hx List.not_mem_nil
  refine ⟨hreceives, ?_, ?_, outbox_lifecycle secondAttempt lateDelivery hreceives⟩
  · simp only [s, secondAttempt, Service.run, List.foldl_append, List.foldl, Service.serve,
      Memory.answer, Memory.claim, Memory.eligible_eq_insertionSort]
    decide +kernel
  · simp only [s, secondAttempt, lateDelivery, Service.run, List.foldl_append, List.foldl,
      Service.serve, Memory.answer, Memory.claim, Memory.eligible_eq_insertionSort]
    decide +kernel

end BalanceLedger
