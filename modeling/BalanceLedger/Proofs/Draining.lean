/-
# `Proofs.Draining` — a processor empties the outbox

A message whose delivery fails goes back to the others, and as it is the oldest of them
it is claimed again before them.  So it has to be shown that messages that can never be
delivered do not keep a processor from the rest, whatever its publisher does and however
small its batches are.

Each message that waits can be handed to the publisher only so often: until as many
failures are counted as the processor goes through, and once in any case.  What is
`left` of that, summed over the outbox, is the `load` of the store.  Every message that
a cycle deals with takes away at least one of its own attempts, and no other message
gets any; so a cycle that claims anything lowers the load, and one that claims nothing
has nothing left to claim.  `Underway.cycle` is this step and `Underway.cycles` the
induction on the load.

For each message there is an `Account` from the start on: how often it has been handed
over, and what is left.  From one cycle to the next it never exceeds what was left at
the start, and it is closed with a delivery exactly if the message is completed.  The
load alone would not do, since it says nothing of how often a message was tried.

`outbox_drains` is about a store with any messages, readable or not, that wait or have
come to their end; `Drained` says what has become of them.  That the outbox is drained
is not the same as that it is delivered: what the publisher never takes has failed.
-/
import BalanceLedger.Proofs.Lifecycle
import BalanceLedger.Proofs.Session
import BalanceLedger.Outbox.Processor
import Mathlib.Algebra.GroupWithZero.Nat
import Mathlib.Algebra.Order.BigOperators.Group.List
import Mathlib.Algebra.Order.Group.Nat

namespace BalanceLedger

open Outbox (Message Outcome Processor Report)
open Store (Memory messageOf? messageOf?_mem messageOf?_eq_some_iff)
open Store.Memory (isHeld isEligible take delivered undelivered parked)
open Time (Instant)

/-! ## Turns with the publisher -/

theorem World.Request.store_ne_publish (q : Store.Request) (e : Outbox.PublishedEvent) :
    World.Request.store q ≠ .publish e :=
  nofun

theorem World.Request.clock_ne_publish (e : Outbox.PublishedEvent) :
    World.Request.clock ≠ .publish e :=
  nofun

theorem World.Request.log_ne_publish (line : Log.Line) (e : Outbox.PublishedEvent) :
    World.Request.log line ≠ .publish e :=
  nofun

namespace Turn

def handsOver (id : Uuid) : Turn World → Bool
  | ⟨.publish e, _⟩ => e.id = id
  | _ => false

/-- The turn hands the event of a message to the publisher, who takes it. -/
def delivers (id : Uuid) : Turn World → Bool
  | ⟨.publish e, reply⟩ => e.id = id && reply.toBool
  | _ => false

end Turn

namespace Session

def tries (s : Session) (id : Uuid) : Nat :=
  s.turns.countP (Turn.handsOver id)

/-- Has the publisher taken a message? -/
def isDelivered (s : Session) (id : Uuid) : Bool :=
  s.turns.any (Turn.delivers id)

variable {s : Session} {around : Surroundings} {request : World.Request} {id : Uuid}

theorem tries_after : (s.after around request).tries id =
    s.tries id + if Turn.handsOver id ⟨request, s.reply around request⟩ then 1 else 0 := by
  show (s.turns ++ [_]).countP _ = _
  rw [List.countP_append, List.countP_singleton]
  rfl

theorem isDelivered_after : (s.after around request).isDelivered id =
    (s.isDelivered id || Turn.delivers id ⟨request, s.reply around request⟩) := by
  show (s.turns ++ [_]).any _ = _
  rw [List.any_append, List.any_cons, List.any_nil, Bool.or_false]
  rfl

end Session

/-! ## What is left of a message -/

namespace Outbox.Message

/-- How often a message is handed to the publisher before it is given up, and once in any case. -/
def attempts (maxRetries : Int32) (x : Message) : Nat :=
  (max 1 (maxRetries.toInt - x.retryCount.toInt)).toNat

def left (maxRetries : Int32) (x : Message) : Nat :=
  if x.status.isTerminal then 0 else x.attempts maxRetries

/-- What a delivery makes of a message, how often it hands it over for that, and whether the
publisher takes it: it cannot be read, or it is delivered, or the publisher fails. -/
inductive Dealt (maxRetries : Int32) (x : Message) : (tries : Nat) → (taken : Bool) → Message → Prop
  | unread (error : String) : Dealt maxRetries x 0 false (parked error x)
  | delivered (now : Instant) : Dealt maxRetries x 1 true (delivered now x)
  | failed (error : String) : Dealt maxRetries x 1 false (undelivered error maxRetries x)

/-- The account of a message: how it was, how it is, how often it has been handed over and whether
it was taken. -/
structure Account (maxRetries : Int32) (x y : Message) (tries : Nat) (taken : Bool) : Prop where
  tries_le : tries + y.left maxRetries ≤ x.left maxRetries
  completed_iff : y.status = .completed ↔ x.status = .completed ∨ taken = true
  countable : y.status.isTerminal = false → y.retryCount.toInt < Word.maxInt32
  /-- What has come to its end before is left alone. -/
  kept : x.status.isTerminal = true → y = x

variable {maxRetries : Int32} {x y z : Message} {tries more : Nat} {taken success : Bool}

theorem one_le_attempts (maxRetries : Int32) (x : Message) : 1 ≤ x.attempts maxRetries := by
  unfold attempts
  omega

theorem left_of_open (hopen : x.status.isTerminal = false) :
    x.left maxRetries = x.attempts maxRetries := by
  rw [left, hopen]
  rfl

theorem left_of_terminal (hend : x.status.isTerminal = true) : x.left maxRetries = 0 :=
  if_pos hend

theorem Dealt.not_processing (h : x.Dealt maxRetries tries taken y) : y.status ≠ .processing := by
  cases h with
  | unread => simp [parked]
  | delivered => simp [Memory.delivered]
  | failed =>
      simp only [undelivered]
      split <;> simp

theorem Dealt.completed_iff (h : x.Dealt maxRetries tries taken y) :
    y.status = .completed ↔ taken = true := by
  cases h with
  | unread => simp [parked]
  | delivered => simp [Memory.delivered]
  | failed =>
      simp only [undelivered]
      split <;> simp

theorem left_undelivered (maxRetries : Int32) (hcount : x.retryCount.toInt < Word.maxInt32)
    (error : String) :
    (undelivered error maxRetries x).left maxRetries + 1 ≤ x.attempts maxRetries ∧
      ((undelivered error maxRetries x).status.isTerminal = false →
        (undelivered error maxRetries x).retryCount.toInt < Word.maxInt32) := by
  have hsucc := toInt_retryCount_succ hcount
  by_cases hlast : maxRetries ≤ x.retryCount + 1
  · have hterminal : (undelivered error maxRetries x).status.isTerminal = true := by
      simp [undelivered, hlast, Status.isTerminal]
    refine ⟨?_, fun hopen => ?_⟩
    · rw [left_of_terminal hterminal]
      exact one_le_attempts maxRetries x
    · rw [hterminal] at hopen
      exact absurd hopen (by simp)
  · have hopen : (undelivered error maxRetries x).status.isTerminal = false := by
      simp [undelivered, hlast, Status.isTerminal]
    have hlt := Int32.lt_iff_toInt_lt.mp (Int32.not_le.mp hlast)
    have hhigh := maxRetries.toInt_lt
    rw [hsucc] at hlt
    have hretries : (undelivered error maxRetries x).retryCount.toInt = x.retryCount.toInt + 1 :=
      hsucc
    refine ⟨?_, fun _ => ?_⟩
    · rw [left_of_open hopen, attempts, attempts, hretries]
      omega
    · rw [hretries]
      unfold Word.maxInt32
      omega

/-- Whatever becomes of a message, an attempt of its own is taken away from what is `left`. -/
theorem Dealt.left_lt (h : x.Dealt maxRetries tries taken y) (hs : x.status = .processing)
    (hcount : x.retryCount.toInt < Word.maxInt32) :
    y.left maxRetries < x.left maxRetries ∧ tries + y.left maxRetries ≤ x.left maxRetries ∧
      (y.status.isTerminal = false → y.retryCount.toInt < Word.maxInt32) := by
  have hone := one_le_attempts maxRetries x
  have hopen : x.status.isTerminal = false := by rw [hs]; rfl
  rw [left_of_open hopen]
  cases h with
  | unread error =>
      have hleft : (parked error x).left maxRetries = 0 := rfl
      exact ⟨by omega, by omega, fun _ => hcount⟩
  | delivered now =>
      have hleft : (Memory.delivered now x).left maxRetries = 0 := rfl
      exact ⟨by omega, by omega, fun _ => hcount⟩
  | failed error =>
      obtain ⟨hleft, hcountable⟩ := left_undelivered maxRetries hcount error
      exact ⟨by omega, by omega, hcountable⟩

theorem account_refl (hcount : x.retryCount.toInt < Word.maxInt32) :
    Account maxRetries x x 0 false where
  tries_le := by omega
  completed_iff := by simp
  countable _ := hcount
  kept _ := rfl

theorem left_take (hopen : x.status.isTerminal = false) (now : Instant) :
    (take now x).left maxRetries = x.left maxRetries := by
  rw [left_of_open hopen]
  exact left_of_open rfl

theorem Account.isTerminal_eq_false (h : Account maxRetries x y tries taken)
    (hopen : y.status.isTerminal = false) : x.status.isTerminal = false := by
  by_contra hterminal
  rw [Bool.not_eq_false] at hterminal
  rw [h.kept hterminal, hterminal] at hopen
  exact absurd hopen (by simp)

theorem Account.take (h : Account maxRetries x y tries taken) (hopen : y.status.isTerminal = false)
    (now : Instant) : Account maxRetries x (take now y) tries taken where
  tries_le := by
    rw [left_take hopen]
    exact h.tries_le
  completed_iff := by
    rw [← h.completed_iff]
    constructor
    · intro hprocessing
      exact absurd hprocessing (by simp [Memory.take])
    · intro hcompleted
      rw [hcompleted] at hopen
      exact absurd hopen (by simp [Status.isTerminal])
  countable _ := h.countable hopen
  kept hterminal := absurd (h.isTerminal_eq_false hopen) (by simp [hterminal])

theorem Account.deal (h : Account maxRetries x y tries taken) (hs : y.status = .processing)
    (hz : y.Dealt maxRetries more success z) :
    Account maxRetries x z (tries + more) (taken || success) where
  tries_le := by
    have hcount := h.countable (by rw [hs]; rfl)
    have hleft := (hz.left_lt hs hcount).2.1
    have htries := h.tries_le
    omega
  completed_iff := by
    have hbefore : ¬ (x.status = .completed ∨ taken = true) := by
      rw [← h.completed_iff, hs]
      simp
    rw [hz.completed_iff, Bool.or_eq_true]
    tauto
  countable := by
    have hcount := h.countable (by rw [hs]; rfl)
    exact (hz.left_lt hs hcount).2.2
  kept hterminal :=
    absurd (h.isTerminal_eq_false (by rw [hs]; rfl)) (by simp [hterminal])

end Outbox.Message

/-! ## One delivery -/

namespace Session

/-- Between two sessions one message has been `Dealt` with, and no other. -/
structure Deals (maxRetries : Int32) (x : Message) (s s' : Session) : Prop where
  ids : s'.memory.outbox.map Message.id = s.memory.outbox.map Message.id
  others : ∀ id, id ≠ x.id → s'.memory.message? id = s.memory.message? id ∧
    s'.tries id = s.tries id ∧ s'.isDelivered id = s.isDelivered id
  own : ∃ tries taken y, x.Dealt maxRetries tries taken y ∧ s'.memory.message? x.id = some y ∧
    s'.tries x.id = s.tries x.id + tries ∧ s'.isDelivered x.id = (s.isDelivered x.id || taken)

variable {s s' : Session} {around : Surroundings} {x : Message} {claim : Instant}
  {maxRetries : Int32} {tries : Nat} {taken : Bool}

theorem quiet_after (s : Session) (around : Surroundings) {request : World.Request}
    (h : ∀ e, request ≠ .publish e) (id : Uuid) :
    (s.after around request).tries id = s.tries id ∧
      (s.after around request).isDelivered id = s.isDelivered id := by
  rw [tries_after, isDelivered_after]
  cases request with
  | publish e => exact absurd rfl (h e)
  | _ => exact ⟨rfl, Bool.or_false _⟩

theorem after_publish (s : Session) (around : Surroundings) (x : Message) (event : Event)
    (id : Uuid) :
    let request := World.Request.publish (.ofMessage x event)
    (s.after around request).tries id = s.tries id + (if id = x.id then 1 else 0) ∧
      (s.after around request).isDelivered id =
        (s.isDelivered id || (decide (id = x.id) && (s.reply around request).toBool)) := by
  intro request
  rw [tries_after, isDelivered_after]
  have hid : (x.id = id) = (id = x.id) := propext eq_comm
  exact ⟨by simp [Turn.handsOver, request, Outbox.PublishedEvent.ofMessage, hid],
    by simp [Turn.delivers, request, Outbox.PublishedEvent.ofMessage, hid]⟩

/-- A verdict on a message that is held is accepted, and settles what has been made of it; what is
done about that then leaves it so. -/
theorem deals_verdict {change : Message → Message}
    (hdealt : x.Dealt maxRetries tries taken (change x)) (hx : s.memory.message? x.id = some x)
    (hheld : isHeld claim x = true) {s₁ : Session} (hmemory : s₁.memory = s.memory)
    {q : Store.Request} (hq : q.verdict? (around s₁.turns).now = some ⟨x.id, claim, change⟩)
    (hturns : ∀ id, s₁.tries id = s.tries id + (if id = x.id then tries else 0) ∧
      s₁.isDelivered id = (s.isDelivered id || (decide (id = x.id) && taken)))
    {f : q.Reply → Program World Outcome}
    (hf : ∀ a s', s.Deals maxRetries x s' → s.Deals maxRetries x ((f (.ok a)).play around s').2) :
    s.Deals maxRetries x ((World.store q >>= f).play around s₁).2 := by
  have hquiet := quiet_after s₁ around (World.Request.store_ne_publish q)
  rw [Program.play_store_bind]
  rcases s₁.memory.verdict_accepted_or_refused hq with
    ⟨y, a, hy, -, hreply, hids, hafter⟩ | ⟨hnone, -⟩
  · obtain rfl : y = x := Option.some.inj (hy.symm.trans (hmemory ▸ hx))
    rw [show s₁.reply around (.store q) = .ok a from hreply]
    refine hf a _ ⟨hids.trans (by rw [hmemory]), fun id hid => ?_,
      tries, taken, change y, hdealt, (hafter y.id).trans (if_pos rfl), ?_, ?_⟩
    · have hmessage : (s₁.after around (.store q)).memory.message? id = _ := hafter id
      rw [if_neg hid, hmemory] at hmessage
      rw [hmessage, (hquiet id).1, (hquiet id).2, (hturns id).1, (hturns id).2, if_neg hid,
        decide_eq_false hid, Bool.false_and, Bool.or_false, Nat.add_zero]
      exact ⟨rfl, rfl, rfl⟩
    · rw [(hquiet y.id).1, (hturns y.id).1, if_pos rfl]
    · rw [(hquiet y.id).2, (hturns y.id).2, decide_eq_true rfl, Bool.true_and]
  · rw [hmemory] at hnone
    exact absurd (hnone x hx) (by simp [hheld])

theorem Deals.log (h : s.Deals maxRetries x s') (line : Log.Line) :
    s.Deals maxRetries x (s'.after around (.log line)) := by
  have hquiet := quiet_after s' around (World.Request.log_ne_publish line)
  obtain ⟨tries, taken, y, hdealt, hy, htries, htaken⟩ := h.own
  refine ⟨h.ids, fun id hid => ?_, tries, taken, y, hdealt, hy, ?_, ?_⟩
  · rw [(hquiet id).1, (hquiet id).2]
    exact h.others id hid
  · rw [(hquiet x.id).1, htries]
  · rw [(hquiet x.id).2, htaken]

end Session

namespace Outbox.Processor

variable {s : Session} {x : Message} {claim : Instant}

/-- A delivery `Deals` with a message that is held: it is given up if it cannot be read, and handed
over once otherwise. -/
theorem deals_deliver (p : Processor) (around : Surroundings)
    (hx : s.memory.message? x.id = some x) (hheld : isHeld claim x = true) :
    s.Deals p.config.maxRetries x ((p.deliver x).play around s).2 := by
  rw [deliver, Message.claimedAt_of_isHeld hheld]
  cases hdecode : p.registry.decode x.eventType x.payload with
  | error e =>
      show s.Deals _ x ((park x claim e).play around s).2
      rw [park, Program.play_log_bind]
      have hdealt : x.Dealt p.config.maxRetries 0 false (parked e.message x) := .unread e.message
      refine Session.deals_verdict hdealt hx hheld ?_ ?_ (fun id => ?_) fun _ _ hdeals => ?_
      · rfl
      · rfl
      · rw [(Session.quiet_after s around (World.Request.log_ne_publish _) id).1,
          (Session.quiet_after s around (World.Request.log_ne_publish _) id).2]
        simp
      · exact hdeals
  | ok event =>
      have hpublish := s.after_publish around x event
      show s.Deals _ x ((World.publish (.ofMessage x event) >>= _).play around s).2
      rw [Program.play_publish_bind]
      cases hreply : s.reply around (.publish (.ofMessage x event)) with
      | ok u =>
          show s.Deals _ x ((complete x claim).play around _).2
          rw [complete]
          have hdealt : x.Dealt p.config.maxRetries 1 true (delivered _ x) :=
            .delivered (around (s.after around (.publish (.ofMessage x event))).turns).now
          refine Session.deals_verdict hdealt hx hheld ?_ ?_ (fun id => ?_) fun _ _ hdeals => ?_
          · rfl
          · rfl
          · rw [(hpublish id).1, (hpublish id).2, hreply]
            exact ⟨rfl, rfl⟩
          · exact hdeals
      | error e =>
          show s.Deals _ x ((p.countFailure x claim e.message).play around _).2
          rw [countFailure]
          have hdealt : x.Dealt p.config.maxRetries 1 false
              (undelivered e.message p.config.maxRetries x) := .failed e.message
          refine Session.deals_verdict hdealt hx hheld ?_ ?_ (fun id => ?_) fun status s' hdeals => ?_
          · rfl
          · rfl
          · rw [(hpublish id).1, (hpublish id).2, hreply]
            exact ⟨rfl, rfl⟩
          · cases status <;> exact hdeals.log _

end Outbox.Processor

/-! ## The load of a store -/

namespace Store.Memory

variable {m m' : Memory} {maxRetries : Int32}

def leftOf (m : Memory) (maxRetries : Int32) (id : Uuid) : Nat :=
  ((m.message? id).map (Message.left maxRetries)).getD 0

/-- What is `left` of all messages. -/
def load (m : Memory) (maxRetries : Int32) : Nat :=
  (m.outbox.map (Message.left maxRetries)).sum

def workload (m : Memory) (maxRetries : Int32) : Nat :=
  ((m.outbox.filter fun x => x.status = .pending).map (Message.attempts maxRetries)).sum

theorem message?_of_mem_outbox (hm : m.Distinct) {x : Message} (hx : x ∈ m.outbox) :
    m.message? x.id = some x :=
  (messageOf?_eq_some_iff hm).mpr ⟨hx, rfl⟩

theorem load_eq_sum_leftOf (hm : m.Distinct) :
    m.load maxRetries = ((m.outbox.map Message.id).map (m.leftOf maxRetries)).sum := by
  rw [load, List.map_map]
  refine congrArg List.sum (List.map_congr_left fun x hx => ?_)
  rw [Function.comp_apply, leftOf, message?_of_mem_outbox hm hx]
  rfl

theorem load_eq_workload (maxRetries : Int32) (hfree : ∀ x ∈ m.outbox, x.status ≠ .processing) :
    m.load maxRetries = m.workload maxRetries := by
  unfold load workload
  revert hfree
  induction m.outbox with
  | nil => exact fun _ => rfl
  | cons x rest ih =>
      intro hfree
      have hrest := ih fun y hy => hfree y (List.mem_cons_of_mem _ hy)
      have hx := hfree x List.mem_cons_self
      rw [List.map_cons, List.sum_cons, hrest, List.filter_cons]
      cases hs : x.status <;> simp_all [Message.left, Outbox.Status.isTerminal]

theorem load_eq_zero (h : ∀ x ∈ m.outbox, x.status.isTerminal = true) :
    m.load maxRetries = 0 := by
  refine List.sum_eq_zero fun n hn => ?_
  obtain ⟨x, hx, rfl⟩ := List.mem_map.mp hn
  exact Message.left_of_terminal (h x hx)

theorem load_lt (hm : m.Distinct) (hids : m'.outbox.map Message.id = m.outbox.map Message.id)
    (hle : ∀ id, m'.leftOf maxRetries id ≤ m.leftOf maxRetries id) {x : Message}
    (hx : x ∈ m.outbox) (hlt : m'.leftOf maxRetries x.id < m.leftOf maxRetries x.id) :
    m'.load maxRetries < m.load maxRetries := by
  rw [load_eq_sum_leftOf hm, load_eq_sum_leftOf (hm.of_map_id hids), hids]
  exact List.sum_lt_sum _ _ (fun id _ => hle id) ⟨x.id, List.mem_map_of_mem hx, hlt⟩

theorem nodup_claimed (hm : m.Distinct) (batch : Nat) (staleBefore now : Instant) :
    ((m.claim batch staleBefore now).1.map Message.id).Nodup := by
  have hplaces : (m.outbox.zipIdx.map fun p => p.1.id) = m.outbox.map Message.id := by
    calc m.outbox.zipIdx.map _ = (m.outbox.zipIdx.map Prod.fst).map Message.id := by
          rw [List.map_map]; rfl
      _ = m.outbox.map Message.id := by rw [List.zipIdx_map_fst]
  have heligible : ((m.eligible staleBefore).map fun p => p.1.id).Nodup := by
    refine ((List.mergeSort_perm _ _).map _).nodup_iff.mpr ?_
    refine List.Nodup.sublist (List.filter_sublist.map _) ?_
    rw [hplaces]
    exact hm
  show (((m.chosen batch staleBefore).map fun p => take now p.1).map Message.id).Nodup
  rw [List.map_map]
  exact heligible.sublist ((List.take_sublist _ _).map _)

theorem load_claim (hm : m.Distinct) (batch : Nat) (staleBefore now : Instant) :
    (m.claim batch staleBefore now).2.load maxRetries = m.load maxRetries := by
  have hids := map_id_claim m batch staleBefore now
  rw [load_eq_sum_leftOf hm, load_eq_sum_leftOf (hm.of_map_id hids), hids]
  refine congrArg List.sum (List.map_congr_left fun id _ => ?_)
  rw [leftOf, leftOf]
  rcases claim_takes_or_leaves hm batch staleBefore now id with
    ⟨x, hx, heligible, -, hnext⟩ | ⟨-, hnext⟩
  · rw [hx, hnext, Option.map_some, Option.map_some,
      Message.left_take (Message.isTerminal_of_isEligible heligible)]
  · rw [hnext]

end Store.Memory

/-! ## One cycle -/

namespace Session

/-- How a processor stands that has found a store and works on it: every message has its `Account`,
and what is held, it has in hand. -/
structure Underway (maxRetries : Int32) (m : Memory) (inHand : List Message) (s : Session) :
    Prop where
  ids : s.memory.outbox.map Message.id = m.outbox.map Message.id
  accounts : ∀ x ∈ m.outbox, ∃ y, s.memory.message? x.id = some y ∧
    Message.Account maxRetries x y (s.tries x.id) (s.isDelivered x.id)
  nodup : (inHand.map Message.id).Nodup
  held : ∀ x ∈ inHand, s.memory.message? x.id = some x ∧ ∃ claim, isHeld claim x = true
  inHand : ∀ x ∈ s.memory.outbox, x.status = .processing → x ∈ inHand

namespace Underway

variable {maxRetries : Int32} {m : Memory} {x : Message} {rest batch : List Message}
  {s s' : Session} {around : Surroundings}

theorem distinct (h : s.Underway maxRetries m rest) (hm : m.Distinct) : s.memory.Distinct :=
  hm.of_map_id h.ids

theorem countable (h : s.Underway maxRetries m rest) (hx : x ∈ rest) :
    x.status = .processing ∧ x.retryCount.toInt < Word.maxInt32 := by
  obtain ⟨hfound, claim, hheld⟩ := h.held x hx
  have hs := Message.status_of_isHeld hheld
  have hid : x.id ∈ m.outbox.map Message.id := by
    rw [← h.ids]
    exact List.mem_map_of_mem (messageOf?_mem hfound).1
  obtain ⟨x₀, hx₀, hsame⟩ := List.mem_map.mp hid
  obtain ⟨y, hy, haccount⟩ := h.accounts x₀ hx₀
  rw [hsame, hfound] at hy
  obtain rfl := Option.some.inj hy
  exact ⟨hs, haccount.countable (by rw [hs]; rfl)⟩

theorem deal (h : s.Underway maxRetries m (x :: rest)) (hm : m.Distinct)
    (hdeals : s.Deals maxRetries x s') :
    s'.Underway maxRetries m rest ∧ s'.memory.load maxRetries < s.memory.load maxRetries := by
  have hfound := (h.held x List.mem_cons_self).1
  obtain ⟨hs, hcount⟩ := h.countable List.mem_cons_self
  obtain ⟨hnot, hnodup⟩ := List.nodup_cons.mp h.nodup
  obtain ⟨tries, taken, y, hdealt, hy, htries, htaken⟩ := hdeals.own
  have hother : ∀ z ∈ rest, z.id ≠ x.id :=
    fun z hz heq => hnot (heq ▸ List.mem_map_of_mem hz)
  have hs' : s'.memory.Distinct := (h.distinct hm).of_map_id hdeals.ids
  have hleft : ∀ id, s'.memory.leftOf maxRetries id ≤ s.memory.leftOf maxRetries id ∧
      (id = x.id → s'.memory.leftOf maxRetries id < s.memory.leftOf maxRetries id) := by
    intro id
    by_cases hid : id = x.id
    · have hlt := (hdealt.left_lt hs hcount).1
      rw [hid, Memory.leftOf, Memory.leftOf, hy, hfound]
      exact ⟨Nat.le_of_lt hlt, fun _ => hlt⟩
    · rw [Memory.leftOf, Memory.leftOf, (hdeals.others id hid).1]
      exact ⟨Nat.le_refl _, fun h => absurd h hid⟩
  refine ⟨⟨hdeals.ids.trans h.ids, fun x₀ hx₀ => ?_, hnodup, fun z hz => ?_, fun z hz hsz => ?_⟩, ?_⟩
  · obtain ⟨z, hz, haccount⟩ := h.accounts x₀ hx₀
    by_cases hid : x₀.id = x.id
    · rw [hid] at hz haccount ⊢
      obtain rfl := Option.some.inj (hz.symm.trans hfound)
      rw [htries, htaken]
      exact ⟨y, hy, haccount.deal hs hdealt⟩
    · obtain ⟨hmessage, htries, htaken⟩ := hdeals.others x₀.id hid
      rw [hmessage, htries, htaken]
      exact ⟨z, hz, haccount⟩
  · rw [(hdeals.others z.id (hother z hz)).1]
    exact h.held z (List.mem_cons_of_mem _ hz)
  · have hfoundz := Memory.message?_of_mem_outbox hs' hz
    by_cases hid : z.id = x.id
    · rw [hid, hy] at hfoundz
      exact absurd hsz (Option.some.inj hfoundz ▸ hdealt.not_processing)
    · rw [(hdeals.others z.id hid).1] at hfoundz
      rcases List.mem_cons.mp (h.inHand z (messageOf?_mem hfoundz).1 hsz) with rfl | hrest
      · exact absurd rfl hid
      · exact hrest
  · exact Memory.load_lt (h.distinct hm) hdeals.ids (fun id => (hleft id).1)
      (messageOf?_mem hfound).1 ((hleft x.id).2 rfl)

/-- Every message in hand is dealt with, and the `load` falls with each. -/
theorem deliverAll (p : Processor) (around : Surroundings) (hm : m.Distinct) (r : Report)
    (h : s.Underway p.config.maxRetries m batch) :
    ((p.deliverAll r batch).play around s).2.Underway p.config.maxRetries m [] ∧
      ((p.deliverAll r batch).play around s).2.memory.load p.config.maxRetries + batch.length ≤
        s.memory.load p.config.maxRetries := by
  induction batch generalizing s r with
  | nil => exact ⟨h, Nat.le_refl _⟩
  | cons x rest ih =>
      obtain ⟨hfound, claim, hheld⟩ := h.held x List.mem_cons_self
      obtain ⟨hnext, hlt⟩ := h.deal hm (p.deals_deliver around hfound hheld)
      obtain ⟨hall, hload⟩ := ih (r.add ((p.deliver x).play around s).1) hnext
      rw [show (p.deliverAll r (x :: rest)).play around s = _ from Program.play_bind _ _ s]
      refine ⟨hall, ?_⟩
      rw [List.length_cons]
      omega

theorem claim (h : s.Underway maxRetries m []) (hm : m.Distinct) (around : Surroundings)
    (batch : Nat) (staleBefore : Instant) :
    (s.after around (.store (.claim batch staleBefore))).Underway maxRetries m
        (s.memory.claim batch staleBefore (around s.turns).now).1 ∧
      (s.after around (.store (.claim batch staleBefore))).memory.load maxRetries =
        s.memory.load maxRetries := by
  have hs := h.distinct hm
  have hquiet := quiet_after s around
    (World.Request.store_ne_publish (.claim batch staleBefore))
  have hmemory : (s.after around (.store (.claim batch staleBefore))).memory =
      (s.memory.claim batch staleBefore (around s.turns).now).2 := rfl
  have hnodup := Memory.nodup_claimed hs batch staleBefore (around s.turns).now
  have htaken := Memory.claim_takes_or_leaves hs batch staleBefore (around s.turns).now
  generalize (around s.turns).now = now at hmemory hnodup htaken ⊢
  have hids := Memory.map_id_claim s.memory batch staleBefore now
  rw [hmemory]
  refine ⟨⟨?_, fun x hx => ?_, hnodup, fun x hx => ?_, fun x hx hsx => ?_⟩, ?_⟩
  · rw [hmemory, hids, h.ids]
  · obtain ⟨y, hy, haccount⟩ := h.accounts x hx
    rw [hmemory, (hquiet x.id).1, (hquiet x.id).2]
    rcases htaken x.id with ⟨z, hz, heligible, -, hnext⟩ | ⟨-, hnext⟩
    · obtain rfl := Option.some.inj (hy.symm.trans hz)
      exact ⟨_, hnext, haccount.take (Message.isTerminal_of_isEligible heligible) now⟩
    · exact ⟨y, hnext.trans hy, haccount⟩
  · obtain ⟨-, hstored, stamp, -, hheld⟩ := Memory.held_of_mem_claimed hs hx
    exact ⟨hmemory ▸ hstored, stamp, hheld⟩
  · rw [hmemory] at hx
    have hfound := Memory.message?_of_mem_outbox (hs.of_map_id hids) hx
    rcases htaken x.id with ⟨z, -, -, hout, hnext⟩ | ⟨-, hnext⟩
    · obtain rfl := Option.some.inj (hfound.symm.trans hnext)
      exact (messageOf?_mem hout).1
    · rw [hfound] at hnext
      exact absurd (h.inHand x (messageOf?_mem hnext.symm).1 hsx) List.not_mem_nil
  · exact Memory.load_claim hs batch staleBefore now

theorem clock (h : s.Underway maxRetries m rest) (around : Surroundings) :
    (s.after around .clock).Underway maxRetries m rest where
  ids := h.ids
  accounts x hx := by
    have hquiet := quiet_after s around World.Request.clock_ne_publish x.id
    rw [hquiet.1, hquiet.2]
    exact h.accounts x hx
  nodup := h.nodup
  held := h.held
  inHand := h.inHand

end Underway

end Session

namespace Store.Memory

variable {m : Memory}

theorem claim_of_idle (hidle : ∀ x ∈ m.outbox, x.status.isTerminal = true) (batch : Nat)
    (staleBefore now : Instant) : m.claim batch staleBefore now = ([], m) := by
  have hchosen : m.chosen batch staleBefore = [] := by
    refine List.eq_nil_iff_forall_not_mem.mpr fun p hp => ?_
    obtain ⟨hplace, heligible⟩ := of_mem_eligible (List.mem_of_mem_take hp)
    have hopen := Message.isTerminal_of_isEligible heligible
    rw [hidle p.1 (List.mem_of_getElem? hplace)] at hopen
    exact absurd hopen (by simp)
  rw [claim_eq, hchosen]
  simp [List.zipIdx_map_fst]

theorem claim_ne_nil {batch : Nat} (hbatch : 1 ≤ batch) {x : Message} (hx : x ∈ m.outbox)
    (hs : x.status = .pending) (staleBefore now : Instant) :
    (m.claim batch staleBefore now).1 ≠ [] := by
  obtain ⟨i, hi⟩ := List.mem_iff_getElem?.mp hx
  have hmem : (x, i) ∈ m.eligible staleBefore := by
    refine List.mem_mergeSort.mpr (List.mem_filter.mpr ⟨List.mem_zipIdx_iff_getElem?.mpr hi, ?_⟩)
    simp [isEligible, hs]
  show ((m.eligible staleBefore).take batch).map _ ≠ []
  intro hnil
  rcases List.take_eq_nil_iff.mp (List.map_eq_nil_iff.mp hnil) with hzero | hempty
  · omega
  · rw [hempty] at hmem
    exact List.not_mem_nil hmem

end Store.Memory

/-- A cycle reads the clock, claims a batch and goes through it with `deliverAll`. -/
theorem Outbox.Processor.play_cycle (p : Processor) (around : Surroundings) (s : Session) :
    ∃ staleBefore batch,
      staleBefore = Outbox.staleBefore (s.reply around .clock) p.config.claimLease ∧
      batch = (s.memory.claim p.config.batchSize staleBefore
        (around (s.after around .clock).turns).now).1 ∧
      p.cycle.play around s = Prod.map Except.ok id
        ((p.deliverAll { claimed := batch.length } batch).play around
          ((s.after around .clock).after around
            (.store (.claim p.config.batchSize staleBefore)))) := by
  refine ⟨_, _, rfl, rfl, ?_⟩
  exact Program.play_bind (p.deliverAll _ _) _ _

namespace Session.Underway

variable {m : Memory} {s : Session} {p : Processor}

theorem isTerminal_of_not_pending {maxRetries : Int32} (h : s.Underway maxRetries m [])
    {x : Message} (hx : x ∈ s.memory.outbox) (hs : x.status ≠ .pending) :
    x.status.isTerminal = true := by
  cases hstatus : x.status with
  | pending => exact absurd hstatus hs
  | processing => exact absurd (h.inHand x hx hstatus) List.not_mem_nil
  | completed => rfl
  | failed => rfl

/-- A cycle leaves nothing in hand; it lowers the `load` if a message waits, and does nothing
otherwise. -/
theorem cycle (h : s.Underway p.config.maxRetries m []) (hm : m.Distinct)
    (hbatch : 1 ≤ p.config.batchSize) (around : Surroundings) :
    (p.cycle.play around s).2.Underway p.config.maxRetries m [] ∧
      ((∃ x ∈ s.memory.outbox, x.status = .pending) →
        (p.cycle.play around s).2.memory.load p.config.maxRetries <
          s.memory.load p.config.maxRetries) ∧
      ((∀ x ∈ s.memory.outbox, x.status ≠ .pending) →
        (p.cycle.play around s).1 = .ok {} ∧ (p.cycle.play around s).2.memory = s.memory) := by
  obtain ⟨staleBefore, batch, -, hbatch', hplay⟩ := p.play_cycle around s
  obtain ⟨hclaimed, hsame⟩ := (h.clock around).claim hm around p.config.batchSize staleBefore
  have hmemory : (s.after around .clock).memory = s.memory := rfl
  rw [hmemory] at hclaimed hsame
  rw [← hbatch'] at hclaimed
  obtain ⟨hdone, hload⟩ := hclaimed.deliverAll p around hm { claimed := batch.length }
  rw [hplay]
  refine ⟨hdone, ?_, fun hnone => ?_⟩
  · rintro ⟨x, hx, hs⟩
    have hlength := List.length_pos_iff.mpr (Memory.claim_ne_nil hbatch hx hs staleBefore
      (around (s.after around .clock).turns).now)
    rw [← hbatch'] at hlength
    show Memory.load _ _ < _
    simp only [Prod.map_snd, id]
    omega
  · have hidle := Memory.claim_of_idle
      (fun x hx => h.isTerminal_of_not_pending hx (hnone x hx)) p.config.batchSize staleBefore
      (around (s.after around .clock).turns).now
    obtain rfl : batch = [] := hbatch'.trans (congrArg Prod.fst hidle)
    exact ⟨rfl, congrArg Prod.snd hidle⟩

end Session.Underway

/-! ## Any number of cycles -/

def Outbox.Processor.cycles (p : Processor) (around : Surroundings) : Nat → Session → Session
  | 0, s => s
  | n + 1, s => p.cycles around n (p.cycle.play around s).2

namespace Session

variable {m : Memory} {s : Session} {p : Processor}

/-- As many cycles as there is `load` leave nothing that waits. -/
theorem Underway.cycles (h : s.Underway p.config.maxRetries m []) (hm : m.Distinct)
    (hbatch : 1 ≤ p.config.batchSize) (around : Surroundings) {n : Nat}
    (hn : s.memory.load p.config.maxRetries ≤ n) :
    (p.cycles around n s).Underway p.config.maxRetries m [] ∧
      ∀ x ∈ (p.cycles around n s).memory.outbox, x.status ≠ .pending := by
  induction n generalizing s with
  | zero =>
      refine ⟨h, fun x hx hs => ?_⟩
      have hleft : x.left p.config.maxRetries = x.attempts p.config.maxRetries :=
        Message.left_of_open (by rw [hs]; rfl)
      have hone := x.one_le_attempts p.config.maxRetries
      have hsum : x.left p.config.maxRetries ≤ s.memory.load p.config.maxRetries :=
        List.single_le_sum (fun _ _ => Nat.zero_le _) _ (List.mem_map_of_mem hx)
      omega
  | succ n ih =>
      obtain ⟨hnext, hlower, hnothing⟩ := h.cycle hm hbatch around
      refine ih hnext ?_
      by_cases hwaits : ∃ x ∈ s.memory.outbox, x.status = .pending
      · have hlt := hlower hwaits
        omega
      · have hnone : ∀ x ∈ s.memory.outbox, x.status ≠ .pending :=
          fun x hx hs => hwaits ⟨x, hx, hs⟩
        rw [(hnothing hnone).2, Memory.load_eq_zero fun x hx =>
          h.isTerminal_of_not_pending hx (hnone x hx)]
        exact Nat.zero_le _

theorem underway_start (maxRetries : Int32) (hm : m.Distinct)
    (hcount : ∀ x ∈ m.outbox, x.retryCount.toInt < Word.maxInt32)
    (hfree : ∀ x ∈ m.outbox, x.status ≠ .processing) :
    Session.Underway maxRetries m [] { memory := m } where
  ids := rfl
  accounts x hx :=
    ⟨x, Memory.message?_of_mem_outbox hm hx, Message.account_refl (hcount x hx)⟩
  nodup := List.nodup_nil
  held _ h := absurd h List.not_mem_nil
  inHand x hx hs := absurd hs (hfree x hx)

/-- The outbox that a processor has found has been drained: every message has come to its end, and
what waited is completed if the publisher has taken it, and failed otherwise. -/
structure Drained (p : Processor) (around : Surroundings) (m : Memory) (s : Session) : Prop where
  ids : s.memory.outbox.map Message.id = m.outbox.map Message.id
  settled : ∀ x ∈ s.memory.outbox, x.status = .completed ∨ x.status = .failed
  completed_iff : ∀ x ∈ m.outbox, x.status = .pending → ∃ y ∈ s.memory.outbox, y.id = x.id ∧
    (y.status = .completed ↔ ∃ t ∈ s.turns, t.delivers x.id = true)
  tries_le : ∀ x ∈ m.outbox, x.status = .pending →
    s.turns.countP (Turn.handsOver x.id) ≤ x.attempts p.config.maxRetries
  /-- What had come to its end before is as it was, and is not handed over. -/
  kept : ∀ x ∈ m.outbox, x.status ≠ .pending → x ∈ s.memory.outbox ∧
    s.turns.countP (Turn.handsOver x.id) = 0
  /-- One more cycle claims nothing. -/
  idle : (p.cycle.play around s).1 = .ok {} ∧ (p.cycle.play around s).2.memory = s.memory

theorem Underway.drained (h : s.Underway p.config.maxRetries m []) (hm : m.Distinct)
    (hfree : ∀ x ∈ m.outbox, x.status ≠ .processing) (hbatch : 1 ≤ p.config.batchSize)
    (around : Surroundings) (hnone : ∀ x ∈ s.memory.outbox, x.status ≠ .pending) :
    s.Drained p around m := by
  refine ⟨h.ids, fun x hx => ?_, fun x hx hs => ?_, fun x hx hs => ?_, fun x hx hs => ?_,
    (h.cycle hm hbatch around).2.2 hnone⟩
  · have hend := h.isTerminal_of_not_pending hx (hnone x hx)
    cases hs : x.status with
    | completed => exact .inl rfl
    | failed => exact .inr rfl
    | pending | processing => rw [hs] at hend; exact absurd hend (by simp [Outbox.Status.isTerminal])
  · obtain ⟨y, hy, haccount⟩ := h.accounts x hx
    refine ⟨y, (messageOf?_mem hy).1, (messageOf?_mem hy).2, ?_⟩
    rw [haccount.completed_iff, hs, isDelivered, List.any_eq_true]
    simp
  · obtain ⟨y, -, haccount⟩ := h.accounts x hx
    have htries := haccount.tries_le
    have hopen : x.status.isTerminal = false := by rw [hs]; rfl
    rw [Message.left_of_open hopen] at htries
    exact Nat.le_of_add_right_le htries
  · obtain ⟨y, hy, haccount⟩ := h.accounts x hx
    have hend : x.status.isTerminal = true := by
      cases hx' : x.status with
      | pending => exact absurd hx' hs
      | processing => exact absurd hx' (hfree x hx)
      | completed | failed => rfl
    have htries := haccount.tries_le
    rw [Message.left_of_terminal hend] at htries
    have hnever : s.tries x.id = 0 := by omega
    obtain rfl := haccount.kept hend
    exact ⟨(messageOf?_mem hy).1, hnever⟩

end Session

/-- A processor that has a store to itself drains its outbox, in as many cycles as its `workload`
has attempts, whatever the clock shows and the publisher does. -/
theorem outbox_drains (p : Processor) (around : Surroundings) (m : Memory) (hm : m.Distinct)
    (hcount : ∀ x ∈ m.outbox, x.retryCount.toInt < Word.maxInt32)
    (hfree : ∀ x ∈ m.outbox, x.status ≠ .processing) (hbatch : 1 ≤ p.config.batchSize)
    (more : Nat) :
    (p.cycles around (m.workload p.config.maxRetries + more) { memory := m }).Drained p around
      m := by
  have hload : m.load p.config.maxRetries ≤ m.workload p.config.maxRetries + more := by
    rw [Memory.load_eq_workload _ hfree]
    exact Nat.le_add_right ..
  have hstart := Session.underway_start p.config.maxRetries hm hcount hfree
  obtain ⟨hend, hnone⟩ := hstart.cycles hm hbatch around hload
  exact hend.drained hm hfree hbatch around hnone

def threeFailures : Surroundings := fun turns =>
  let tried := turns.countP fun t => match t.request with
    | .publish _ => true
    | _ => false
  { now := .epoch, published := if tried < 3 then .error (.transport "down") else .ok () }

/-- The messages of one credit, one at a time, and a publisher that is down at first. -/
theorem outbox_drains_threeFailures :
    let m := ((Interleaving.on .empty).run oneCredit : Traffic).memory
    let p : Processor := { config := { batchSize := 1 } }
    (m.Distinct ∧ (∀ x ∈ m.outbox, x.retryCount.toInt < Word.maxInt32) ∧
        (∀ x ∈ m.outbox, x.status ≠ .processing) ∧ 1 ≤ p.config.batchSize) ∧
      m.workload p.config.maxRetries = 6 ∧
      (p.cycles threeFailures 6 { memory := m }).Drained p threeFailures m := by
  intro m p
  have hm : m.Distinct := by
    unfold Memory.Distinct
    decide +kernel
  have hcount : ∀ x ∈ m.outbox, x.retryCount.toInt < Word.maxInt32 := by decide +kernel
  have hfree : ∀ x ∈ m.outbox, x.status ≠ .processing := by decide +kernel
  have hload : m.workload p.config.maxRetries = 6 := by decide +kernel
  refine ⟨⟨hm, hcount, hfree, Nat.le_refl 1⟩, hload, ?_⟩
  have hdrained := outbox_drains p threeFailures m hm hcount hfree (Nat.le_refl 1) 0
  rwa [hload] at hdrained

end BalanceLedger
