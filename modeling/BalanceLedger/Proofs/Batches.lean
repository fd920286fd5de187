/-
# `Proofs.Batches` — what a cycle makes of its batch

A cycle claims a batch and goes through it, message by message.  For each one it may
publish an event, and then it writes what has become of the message, which it finds
again by id and claim.  Its report is counted along the way.

So there are three records of a cycle: the turns that it has taken with its
surroundings, the outbox that it leaves, and its report.  Here they are shown to agree,
for any mixture of messages that can be read, that cannot, that are delivered, that fail
and that fail once too often.  `Accounts` is the agreement, and
`cycle_accounts_for_batch` proves it for any store with messages to be claimed, any
processor and any surroundings.

What becomes of a message is read off the message, the configuration and the answer to
the one event that is published for it: `Settles`, which has one constructor for each of
these ways.  So it has nothing to do with the rest of the batch, and `Accounts.alike`
says that another cycle which claims the message and is answered so leaves it there too.

The proof goes from one message (`Concludes`) to a batch (`Clears`) to a cycle.  The
invariant of the batch is that whatever has not been gone through is still held; it
needs that no two messages have the same id.
-/
import BalanceLedger.Proofs.Draining
import BalanceLedger.Proofs.Payload

namespace BalanceLedger

open Outbox (Message Outcome Processor PublishedEvent PublishError Report Status)
open Store (Memory messageOf?_mem messageOf?_eq_some_iff)
open Store.Memory (changeHeld delivered isHeld parked undelivered)
open Time (Instant)

/-! ## Writing one message -/

namespace Store.Memory

variable {m : Memory} {messages : List Message} {x y : Message} {stamp : Instant}
  {change : Message → Message}

def replace (m : Memory) (y : Message) : Memory :=
  { m with outbox := m.outbox.map fun z => if z.id = y.id then y else z }

theorem map_id_replace (m : Memory) (y : Message) :
    (m.replace y).outbox.map Message.id = m.outbox.map Message.id := by
  rw [replace, List.map_map]
  refine List.map_congr_left fun z _ => ?_
  show (if z.id = y.id then y else z).id = z.id
  split
  · rename_i hid
    exact hid.symm
  · rfl

theorem message?_replace (hx : m.message? y.id = some x) (id : Uuid) :
    (m.replace y).message? id = if id = y.id then some y else m.message? id := by
  show messageOf? id (m.outbox.map _) = _
  unfold message? messageOf? at *
  rw [List.find?_map]
  have hsame : ((fun z : Message => decide (z.id = id)) ∘ fun z => if z.id = y.id then y else z) =
      fun z => decide (z.id = id) := by
    funext z
    show decide ((if z.id = y.id then y else z).id = id) = decide (z.id = id)
    split
    · rename_i hid
      rw [hid]
    · rfl
  rw [hsame]
  split
  · rename_i hid
    rw [hid, hx, Option.map_some, if_pos (messageOf?_mem hx).2]
  · rename_i hid
    cases hfound : m.outbox.find? fun z => decide (z.id = id) with
    | none => rfl
    | some z =>
        have hz : z.id = id := (messageOf?_mem hfound).2
        rw [Option.map_some, if_neg (hz ▸ hid)]

theorem changeHeld_of_held (hnodup : (messages.map Message.id).Nodup) (hx : x ∈ messages)
    (hheld : isHeld stamp x = true) (hkeep : (change x).id = x.id) :
    changeHeld x.id stamp change messages =
      .ok (change x, messages.map fun z => if z.id = (change x).id then change x else z) := by
  induction messages with
  | nil => exact absurd hx List.not_mem_nil
  | cons z rest ih =>
      obtain ⟨hnot, hrest⟩ := List.nodup_cons.mp hnodup
      rw [changeHeld, List.map_cons, hkeep]
      by_cases hz : z.id = x.id
      · obtain rfl : x = z := by
          refine (List.mem_cons.mp hx).resolve_right fun hmem => hnot ?_
          exact hz ▸ List.mem_map_of_mem hmem
        have hothers : rest.map (fun y => if y.id = x.id then change x else y) = rest := by
          refine (List.map_congr_left fun y hy => if_neg fun hid => hnot ?_).trans (List.map_id rest)
          exact hid ▸ List.mem_map_of_mem hy
        rw [if_pos rfl, if_pos hheld, if_pos rfl, hothers]
      · have hmem : x ∈ rest := (List.mem_cons.mp hx).resolve_left fun heq => hz (heq ▸ rfl)
        rw [if_neg hz, if_neg hz, ih hrest hmem, hkeep]
        rfl

theorem finish_of_held (hm : m.Distinct) (hx : m.message? x.id = some x)
    (hheld : isHeld stamp x = true) (hkeep : (change x).id = x.id) :
    m.finish x.id stamp change = .ok (change x, m.replace (change x)) := by
  rw [finish, changeHeld_of_held hm (messageOf?_mem hx).1 hheld hkeep]
  rfl

theorem settle_finish_of_held {α : Type} (hm : m.Distinct) (hx : m.message? x.id = some x)
    (hheld : isHeld stamp x = true) (hkeep : (change x).id = x.id) (f : Message × Memory → α × Memory) :
    m.settle ((m.finish x.id stamp change).map f) =
      (.ok (f (change x, m.replace (change x))).1, (f (change x, m.replace (change x))).2) := by
  rw [finish_of_held hm hx hheld hkeep]
  rfl

end Store.Memory

/-! ## What is said to the publisher -/

namespace Turn

def published? : Turn World → Option PublishedEvent
  | ⟨.publish e, _⟩ => some e
  | _ => none

def answer? (id : Uuid) : Turn World → Option (Except PublishError Unit)
  | ⟨.publish e, reply⟩ => if e.id = id then some reply else none
  | _ => none

theorem filterMap_answer?_eq_nil {turns : List (Turn World)} {id : Uuid}
    (h : id ∉ (turns.filterMap published?).map PublishedEvent.id) :
    turns.filterMap (answer? id) = [] := by
  refine List.filterMap_eq_nil_iff.mpr fun t ht => ?_
  obtain ⟨request, reply⟩ := t
  cases request with
  | publish e =>
      refine if_neg fun hid => h ?_
      exact hid ▸ List.mem_map_of_mem (List.mem_filterMap.mpr ⟨_, ht, rfl⟩)
  | _ => rfl

end Turn

namespace Session

variable {s : Session} {around : Surroundings} {q : Store.Request} {r : q.Reply} {m : Memory}

def answersTo (s : Session) (id : Uuid) : List (Except PublishError Unit) :=
  s.turns.filterMap (Turn.answer? id)

theorem after_store (h : s.memory.answer (around s.turns).now q = (r, m)) :
    s.reply around (.store q) = r ∧
      s.after around (.store q) = { memory := m, turns := s.turns ++ [⟨.store q, r⟩] } := by
  have hreply : s.reply around (.store q) = r := congrArg Prod.fst h
  refine ⟨hreply, ?_⟩
  rw [after, hreply]
  exact congrArg (fun m => ({ memory := m, turns := _ } : Session)) (congrArg Prod.snd h)

end Session

/-! ## One message -/

namespace Outbox.Outcome

def ofStatus : Status → Outcome
  | .pending => .retried
  | .processing => .abandoned
  | .completed => .completed
  | .failed => .failed

end Outbox.Outcome

namespace Outbox.Processor

/-- What a cycle makes of a message that it holds, by what the publisher has answered to its event.
A message that cannot be read is given up, and the publisher is not asked.  Otherwise it is asked
once: the message is delivered, or its failures are one more, and it waits again unless they have
become too many. -/
inductive Settles (p : Processor) (x : Message) : List (Except PublishError Unit) → Message → Prop
  | unread {e : OutboxError} : p.registry.decode x.eventType x.payload = .error e →
      Settles p x [] { x with status := .failed, error := some e.message, claimedAt := none }
  | delivered {event : Event} (now : Instant) :
      p.registry.decode x.eventType x.payload = .ok event →
      Settles p x [.ok ()]
        { x with status := .completed, processedAt := some now, claimedAt := none, error := none }
  | retried {event : Event} {e : PublishError} {n : Int32} :
      p.registry.decode x.eventType x.payload = .ok event →
      n.toInt = x.retryCount.toInt + 1 → n.toInt < p.config.maxRetries.toInt →
      Settles p x [.error e]
        { x with retryCount := n, status := .pending, error := some e.message, claimedAt := none }
  | exhausted {event : Event} {e : PublishError} {n : Int32} :
      p.registry.decode x.eventType x.payload = .ok event →
      n.toInt = x.retryCount.toInt + 1 → p.config.maxRetries.toInt ≤ n.toInt →
      Settles p x [.error e]
        { x with retryCount := n, status := .failed, error := some e.message, claimedAt := none }

variable {p : Processor} {x y z : Message} {answers : List (Except PublishError Unit)} {s : Session}
  {around : Surroundings} {claim : Instant}

theorem Settles.id (h : p.Settles x answers y) : y.id = x.id := by
  cases h <;> rfl

theorem Settles.not_processing (h : p.Settles x answers y) : y.status ≠ .processing := by
  cases h <;> simp

/-- What `Settles` a message is the answer to its own event, but for when it is. -/
theorem Settles.unique (h : p.Settles x answers y) (h' : p.Settles x answers z) :
    z = { y with processedAt := z.processedAt } := by
  cases h with
  | unread hdecode =>
      cases h' with
      | unread hdecode' =>
          obtain rfl := Except.error.inj (hdecode.symm.trans hdecode')
          rfl
  | delivered now hdecode =>
      cases h' with
      | delivered now' hdecode' => rfl
  | retried hdecode hcount hlt =>
      -- the same count is below the bound in both, or in neither
      cases h' with
      | retried hdecode' hcount' hlt' =>
          rw [Int32.toInt_inj.mp (hcount.trans hcount'.symm)]
      | exhausted hdecode' hcount' hle' => omega
  | exhausted hdecode hcount hle =>
      cases h' with
      | retried hdecode' hcount' hlt' => omega
      | exhausted hdecode' hcount' hle' =>
          rw [Int32.toInt_inj.mp (hcount.trans hcount'.symm)]

theorem status_undelivered (error : String) (maxRetries : Int32) (x : Message) :
    (undelivered error maxRetries x).status = .failed ∨
      (undelivered error maxRetries x).status = .pending := by
  simp only [undelivered]
  split
  · exact .inl rfl
  · exact .inr rfl

theorem settles_undelivered {event : Event} {e : PublishError}
    (hdecode : p.registry.decode x.eventType x.payload = .ok event)
    (hcount : x.retryCount.toInt < Word.maxInt32) :
    p.Settles x [.error e] (undelivered e.message p.config.maxRetries x) := by
  have hsucc := Message.toInt_retryCount_succ hcount
  by_cases hlast : p.config.maxRetries ≤ x.retryCount + 1
  · rw [undelivered, if_pos hlast]
    exact .exhausted hdecode hsucc (Int32.le_iff_toInt_le.mp hlast)
  · rw [undelivered, if_neg hlast]
    exact .retried hdecode hsucc (Int32.lt_iff_toInt_lt.mp (Int32.not_le.mp hlast))

/-- A cycle has gone through one message: it has published its event if it can be read, and written
what it makes of it. -/
structure Concludes (p : Processor) (x y : Message) (s : Session) (outcome : Outcome) (s' : Session) :
    Prop where
  outcome_eq : outcome = .ofStatus y.status
  memory : s'.memory = s.memory.replace y
  turns : ∃ more, s'.turns = s.turns ++ more ∧
    more.filterMap Turn.published? = [x].filterMap p.event? ∧
    p.Settles x (more.filterMap (Turn.answer? x.id)) y

theorem Concludes.id {outcome : Outcome} {s' : Session} (h : p.Concludes x y s outcome s') :
    y.id = x.id := by
  obtain ⟨_, -, -, hsettles⟩ := h.turns
  exact hsettles.id

theorem Concludes.log {outcome : Outcome} {s' : Session} (h : p.Concludes x y s outcome s')
    (line : Log.Line) : p.Concludes x y s outcome (s'.after around (.log line)) := by
  obtain ⟨more, hturns, hpublished, hsettles⟩ := h.turns
  refine ⟨h.outcome_eq, h.memory, more ++ [⟨.log line, s'.reply around (.log line)⟩], ?_, ?_, ?_⟩
  · rw [← List.append_assoc, ← hturns]
    rfl
  · rw [List.filterMap_append, hpublished]
    exact List.append_nil _
  · rw [List.filterMap_append]
    exact (List.append_nil _).symm ▸ hsettles

/-- What has been made of the message is written, after its event has been published or not. -/
theorem concludes_verdict {q : Store.Request} {a : q.Answer} {t : Session}
    {f : q.Reply → Program World Outcome} (hmemory : t.memory = s.memory)
    (hturns : ∃ before, t.turns = s.turns ++ before ∧
      before.filterMap Turn.published? = [x].filterMap p.event? ∧
      p.Settles x (before.filterMap (Turn.answer? x.id)) y)
    (hanswer : s.memory.answer (around t.turns).now q = (.ok a, s.memory.replace y))
    (hf : ∀ s', p.Concludes x y s (.ofStatus y.status) s' →
      p.Concludes x y s ((f (.ok a)).play around s').1 ((f (.ok a)).play around s').2) :
    p.Concludes x y s ((World.store q >>= f).play around t).1
      ((World.store q >>= f).play around t).2 := by
  rw [← hmemory] at hanswer
  obtain ⟨hreply, hafter⟩ := Session.after_store hanswer
  obtain ⟨before, hbefore, hpublished, hsettles⟩ := hturns
  rw [Program.play_store_bind, hreply, hafter]
  refine hf _ ⟨rfl, by rw [hmemory], before ++ [⟨.store q, .ok a⟩], ?_, ?_, ?_⟩
  · rw [← List.append_assoc, ← hbefore]
  · rw [List.filterMap_append, hpublished]
    exact List.append_nil _
  · rw [List.filterMap_append]
    exact (List.append_nil _).symm ▸ hsettles

/-- A message that is held is gone through: `deliver` concludes it. -/
theorem exists_concludes_deliver (p : Processor) (around : Surroundings) (hm : s.memory.Distinct)
    (hx : s.memory.message? x.id = some x) (hheld : isHeld claim x = true)
    (hcount : x.retryCount.toInt < Word.maxInt32) :
    ∃ y, p.Concludes x y s ((p.deliver x).play around s).1 ((p.deliver x).play around s).2 := by
  rw [deliver, Message.claimedAt_of_isHeld hheld]
  cases hdecode : p.registry.decode x.eventType x.payload with
  | error e =>
      have hevent : [x].filterMap p.event? = [] :=
        List.filterMap_cons_none (event?_eq_none_of_decode hdecode)
      refine ⟨parked e.message x, ?_⟩
      show p.Concludes x _ s ((park x claim e).play around s).1 ((park x claim e).play around s).2
      rw [park, Program.play_log_bind]
      refine concludes_verdict (a := ()) rfl ⟨_, rfl, ?_, .unread hdecode⟩ ?_ fun _ h => h
      · rw [hevent]
        rfl
      · exact Memory.settle_finish_of_held hm hx hheld rfl _
  | ok event =>
      have hevent : [x].filterMap p.event? = [.ofMessage x event] :=
        List.filterMap_cons_some (event?_of_decode hdecode)
      have hpublished (y : Message)
          (hsettles : p.Settles x [s.reply around (.publish (.ofMessage x event))] y) :
          ∃ before, (s.after around (.publish (.ofMessage x event))).turns = s.turns ++ before ∧
            before.filterMap Turn.published? = [x].filterMap p.event? ∧
            p.Settles x (before.filterMap (Turn.answer? x.id)) y := by
        refine ⟨_, rfl, ?_, ?_⟩
        · rw [hevent]
          rfl
        · have hanswer : Turn.answer? x.id ⟨.publish (.ofMessage x event),
              s.reply around (.publish (.ofMessage x event))⟩ = some _ := if_pos rfl
          rw [List.filterMap_cons_some hanswer]
          exact hsettles
      -- what becomes of the message depends on the answer, but not that it is published
      show ∃ y, p.Concludes x y s ((World.publish (.ofMessage x event) >>= _).play around s).1
        ((World.publish (.ofMessage x event) >>= _).play around s).2
      rw [Program.play_publish_bind]
      cases hreply : s.reply around (.publish (.ofMessage x event)) with
      | ok u =>
          rw [hreply] at hpublished
          refine ⟨delivered (around (s.after around (.publish (.ofMessage x event))).turns).now x, ?_⟩
          show p.Concludes x _ s ((complete x claim).play around _).1
            ((complete x claim).play around _).2
          rw [complete]
          refine concludes_verdict (a := ()) rfl (hpublished _ (.delivered _ hdecode)) ?_
            fun _ h => h
          exact Memory.settle_finish_of_held hm hx hheld rfl _
      | error e =>
          rw [hreply] at hpublished
          refine ⟨undelivered e.message p.config.maxRetries x, ?_⟩
          show p.Concludes x _ s ((p.countFailure x claim e.message).play around _).1
            ((p.countFailure x claim e.message).play around _).2
          rw [countFailure]
          refine concludes_verdict (a := (undelivered e.message p.config.maxRetries x).status) rfl
            (hpublished _ (settles_undelivered hdecode hcount)) ?_ fun s' h => ?_
          · exact Memory.settle_finish_of_held hm hx hheld rfl _
          · rcases status_undelivered e.message p.config.maxRetries x with hstatus | hstatus
            · rw [hstatus] at h ⊢
              exact h.log _
            · rw [hstatus] at h ⊢
              exact h.log _

/-! ## A batch -/

theorem answers_eq_nil {turns : List (Turn World)} {batch : List Message} {id : Uuid}
    (hpublished : turns.filterMap Turn.published? = batch.filterMap p.event?)
    (hid : id ∉ batch.map Message.id) : turns.filterMap (Turn.answer? id) = [] := by
  refine Turn.filterMap_answer?_eq_nil fun hmem => hid ?_
  rw [hpublished] at hmem
  obtain ⟨e, he, rfl⟩ := List.mem_map.mp hmem
  obtain ⟨x, hx, hevent⟩ := List.mem_filterMap.mp he
  exact event?_id hevent ▸ List.mem_map_of_mem hx

end Outbox.Processor

namespace Store.Memory

variable {m : Memory} {batch : List Message} {x y : Message} {status : Status}

/-- How many messages of a batch stand there by now. -/
def standing (m : Memory) (batch : List Message) (status : Status) : Nat :=
  batch.countP fun x => (m.message? x.id).any fun y => y.status = status

theorem standing_cons (h : m.message? x.id = some y) :
    m.standing (x :: batch) status =
      m.standing batch status + if y.status = status then 1 else 0 := by
  rw [standing, List.countP_cons, h]
  simp [standing]

theorem length_eq_standing
    (h : ∀ x ∈ batch, ∃ y, m.message? x.id = some y ∧ y.status ≠ .processing) :
    batch.length =
      m.standing batch .completed + m.standing batch .pending + m.standing batch .failed := by
  induction batch with
  | nil => rfl
  | cons x rest ih =>
      obtain ⟨y, hy, hnot⟩ := h x List.mem_cons_self
      rw [List.length_cons, ih fun z hz => h z (List.mem_cons_of_mem _ hz), standing_cons hy,
        standing_cons hy, standing_cons hy]
      cases hs : y.status with
      | processing => exact absurd hs hnot
      | completed | pending | failed => simp only [reduceCtorEq, if_true, if_false]; omega

end Store.Memory

namespace Outbox

def Report.addBatch (r : Report) (m : Memory) (batch : List Message) : Report :=
  { r with
    completed := r.completed + m.standing batch .completed
    retried := r.retried + m.standing batch .pending
    failed := r.failed + m.standing batch .failed }

theorem Report.add_ofStatus (r : Report) {m : Memory} {batch : List Message} {x y : Message}
    (h : m.message? x.id = some y) :
    (r.add (.ofStatus y.status)).addBatch m batch = r.addBatch m (x :: batch) := by
  rw [addBatch, addBatch, Memory.standing_cons h, Memory.standing_cons h, Memory.standing_cons h]
  cases y.status <;> simp [add, Outcome.ofStatus] <;> omega

namespace Processor

variable {p : Processor} {around : Surroundings} {batch : List Message} {s s' : Session}

/-- Between two sessions a batch has been gone through, and nothing else: the events of its messages
have been published in order, what becomes of each message is stored, and it is counted. -/
structure Clears (p : Processor) (batch : List Message) (s : Session) (r : Report) (s' : Session)
    (r' : Report) : Prop where
  ids : s'.memory.outbox.map Message.id = s.memory.outbox.map Message.id
  ledger : s'.memory = { s.memory with outbox := s'.memory.outbox }
  others : ∀ id, id ∉ batch.map Message.id → s'.memory.message? id = s.memory.message? id
  turns : ∃ more, s'.turns = s.turns ++ more ∧
    more.filterMap Turn.published? = batch.filterMap p.event? ∧
    ∀ x ∈ batch, ∃ y, s'.memory.message? x.id = some y ∧
      p.Settles x (more.filterMap (Turn.answer? x.id)) y
  report : r' = r.addBatch s'.memory batch

theorem clears_nil (p : Processor) (s : Session) (r : Report) : p.Clears [] s r s r where
  ids := rfl
  ledger := rfl
  others _ _ := rfl
  turns := ⟨[], (List.append_nil _).symm, rfl, fun _ h => absurd h List.not_mem_nil⟩
  report := rfl

/-- One message is gone through, as `Concludes` says, and then the others. -/
theorem Concludes.clears {x y : Message} {rest : List Message} {outcome : Outcome} {s₁ : Session}
    {r r' : Report} (h : p.Concludes x y s outcome s₁) (hx : s.memory.message? x.id = some x)
    (hnodup : ((x :: rest).map Message.id).Nodup)
    (hrest : p.Clears rest s₁ (r.add outcome) s' r') : p.Clears (x :: rest) s r s' r' := by
  obtain ⟨hnot, -⟩ := List.nodup_cons.mp hnodup
  obtain ⟨first, hfirst, hpublished₁, hsettles⟩ := h.turns
  obtain ⟨later, hlater, hpublished₂, hsettled⟩ := hrest.turns
  have hid : y.id = x.id := h.id
  -- the message is written now, and not again: the others have other ids
  have hwritten : ∀ id, s₁.memory.message? id = if id = x.id then some y else s.memory.message? id := by
    intro id
    rw [h.memory, Memory.message?_replace (hid ▸ hx), hid]
  have hy : s'.memory.message? x.id = some y := by
    rw [hrest.others x.id hnot, hwritten, if_pos rfl]
  refine ⟨hrest.ids.trans ?ids, hrest.ledger.trans ?ledger, fun id hother => ?others,
    ⟨first ++ later, ?turns, ?published, fun z hz => ?settled⟩, ?report⟩
  case ids => rw [h.memory, Memory.map_id_replace]
  case ledger => rw [h.memory]; rfl
  case others =>
    rw [List.map_cons, List.mem_cons, not_or] at hother
    rw [hrest.others id hother.2, hwritten, if_neg hother.1]
  case turns => rw [hlater, hfirst, List.append_assoc]
  case published =>
    rw [List.filterMap_append, hpublished₁, hpublished₂, ← List.filterMap_append]
    rfl
  case settled =>
    rw [List.filterMap_append]
    rcases List.mem_cons.mp hz with rfl | hz
    · rw [answers_eq_nil hpublished₂ hnot, List.append_nil]
      exact ⟨y, hy, hsettles⟩
    · have hne : z.id ∉ [x].map Message.id := by
        rw [List.map_singleton, List.mem_singleton]
        exact fun heq => hnot (heq ▸ List.mem_map_of_mem hz)
      rw [answers_eq_nil hpublished₁ hne, List.nil_append]
      exact hsettled z hz
  case report =>
    rw [hrest.report, h.outcome_eq, Report.add_ofStatus r hy]

theorem clears_deliverAll (p : Processor) (around : Surroundings) (r : Report)
    (hm : s.memory.Distinct) (hnodup : (batch.map Message.id).Nodup)
    (hheld : ∀ x ∈ batch, s.memory.message? x.id = some x ∧
      (∃ claim, isHeld claim x = true) ∧ x.retryCount.toInt < Word.maxInt32) :
    p.Clears batch s r ((p.deliverAll r batch).play around s).2
      ((p.deliverAll r batch).play around s).1 := by
  induction batch generalizing s r with
  | nil => exact p.clears_nil s r
  | cons x rest ih =>
      obtain ⟨hx, ⟨claim, hclaim⟩, hcount⟩ := hheld x List.mem_cons_self
      obtain ⟨y, hconcludes⟩ := p.exists_concludes_deliver around hm hx hclaim hcount
      obtain ⟨hnot, hrest⟩ := List.nodup_cons.mp hnodup
      rw [show (p.deliverAll r (x :: rest)).play around s = _ from Program.play_bind _ _ s]
      refine hconcludes.clears hx hnodup (ih _ ?_ hrest fun z hz => ?_)
      · rw [hconcludes.memory]
        exact hm.of_map_id (Memory.map_id_replace _ _)
      · obtain ⟨hz', hheldz⟩ := hheld z (List.mem_cons_of_mem _ hz)
        have hne : z.id ≠ x.id := fun heq => hnot (heq ▸ List.mem_map_of_mem hz)
        rw [hconcludes.memory, Memory.message?_replace (hconcludes.id ▸ hx), hconcludes.id, if_neg hne]
        exact ⟨hz', hheldz⟩

/-! ## A cycle -/

/-- A cycle that has found a store has accounted for the batch that it has claimed. -/
structure Accounts (p : Processor) (m : Memory) (batch : List Message) (r : Report) (s : Session) :
    Prop where
  /-- The clock is read, and a batch is claimed. -/
  claimed : ∃ now later more, s.turns = ⟨.clock, now⟩ :: ⟨.store (.claim p.config.batchSize
      (staleBefore now p.config.claimLease)), .ok batch⟩ :: more ∧
    batch = (m.claim p.config.batchSize (staleBefore now p.config.claimLease) later).1
  /-- Every message of the batch is released, and stands where the publisher's answer to its own event
  puts it. -/
  settled : ∀ x ∈ batch, ∃ y, s.memory.message? x.id = some y ∧ y.status ≠ .processing ∧
    p.Settles x (s.answersTo x.id) y
  /-- What is reported is how many messages stand where. -/
  counted : r =
    { claimed := batch.length
      completed := s.memory.standing batch .completed
      retried := s.memory.standing batch .pending
      failed := s.memory.standing batch .failed }
  total : r.claimed = r.completed + r.retried + r.failed
  /-- The events of the messages that can be read are published once each, in order, and no others. -/
  published : s.turns.filterMap Turn.published? = batch.filterMap p.event?
  /-- What has not been claimed is as it was. -/
  others : ∀ id, id ∉ batch.map Message.id → s.memory.message? id = m.message? id
  ids : s.memory.outbox.map Message.id = m.outbox.map Message.id
  ledger : s.memory = { m with outbox := s.memory.outbox }

/-- What two cycles make of one message that they have found alike is the same if the publisher
answers alike, but for the time, whatever else they claim. -/
theorem Accounts.alike {m m' : Memory} {batch batch' : List Message} {r r' : Report} {x : Message}
    (h : p.Accounts m batch r s) (h' : p.Accounts m' batch' r' s') (hx : x ∈ batch)
    (hx' : x ∈ batch') (hanswers : s.answersTo x.id = s'.answersTo x.id) :
    ∃ y z, s.memory.message? x.id = some y ∧ s'.memory.message? x.id = some z ∧
      z = { y with processedAt := z.processedAt } := by
  obtain ⟨y, hy, -, hsettles⟩ := h.settled x hx
  obtain ⟨z, hz, -, hsettles'⟩ := h'.settled x hx'
  exact ⟨y, z, hy, hz, hsettles.unique (hanswers ▸ hsettles')⟩

theorem Clears.accounts {m : Memory} {now later : Instant} {r : Report} (hm : m.Distinct)
    (hbatch : batch = (m.claim p.config.batchSize (staleBefore now p.config.claimLease) later).1)
    (hmemory : s.memory =
      (m.claim p.config.batchSize (staleBefore now p.config.claimLease) later).2)
    (hturns : s.turns = [⟨.clock, now⟩, ⟨.store (.claim p.config.batchSize
      (staleBefore now p.config.claimLease)), .ok batch⟩])
    (h : p.Clears batch s { claimed := batch.length } s' r) : p.Accounts m batch r s' := by
  obtain ⟨more, hmore, hpublished, hsettled⟩ := h.turns
  rw [hturns] at hmore
  have hstood : ∀ x ∈ batch, ∃ y, s'.memory.message? x.id = some y ∧ y.status ≠ .processing ∧
      p.Settles x (s'.answersTo x.id) y := by
    intro x hx
    obtain ⟨y, hy, hsettles⟩ := hsettled x hx
    rw [Session.answersTo, hmore]
    exact ⟨y, hy, hsettles.not_processing, hsettles⟩
  have hcounted := h.report
  simp only [Report.addBatch, Nat.zero_add] at hcounted
  refine ⟨⟨now, later, more, hmore, hbatch⟩, hstood, hcounted, ?total, ?published,
    fun id hid => ?others, ?ids, ?ledger⟩
  case total =>
    rw [hcounted]
    exact Memory.length_eq_standing fun x hx =>
      have ⟨y, hy, hnot, _⟩ := hstood x hx
      ⟨y, hy, hnot⟩
  case published => rw [hmore]; exact hpublished
  case others =>
    rw [h.others id hid, hmemory]
    rcases Memory.claim_takes_or_leaves hm p.config.batchSize (staleBefore now p.config.claimLease)
      later id with ⟨x, -, -, hout, -⟩ | ⟨-, hkept⟩
    · rw [← hbatch] at hout
      obtain ⟨hmem, rfl⟩ := messageOf?_mem hout
      exact absurd (List.mem_map_of_mem hmem) hid
    · exact hkept
  case ids => rw [h.ids, hmemory, Memory.map_id_claim]
  case ledger =>
    rw [h.ledger, hmemory]
    rfl

theorem accounts_cycle (p : Processor) (around : Surroundings) {m : Memory} (hm : m.Distinct)
    (hcount : ∀ x ∈ m.outbox, x.retryCount.toInt < Word.maxInt32) :
    ∃ batch r, (p.cycle.play around { memory := m }).1 = .ok r ∧
      p.Accounts m batch r (p.cycle.play around { memory := m }).2 := by
  obtain ⟨stale, batch, hstale, hbatch, hplay⟩ := p.play_cycle around { memory := m }
  have hclears := p.clears_deliverAll around { claimed := batch.length } (s := (Session.after
    { memory := m } around .clock).after around (.store (.claim p.config.batchSize stale)))
    (hm.of_map_id (m.map_id_claim p.config.batchSize stale _))
    (hbatch ▸ Memory.nodup_claimed hm p.config.batchSize stale _) fun x hx => ?_
  · rw [hplay]
    subst hstale
    exact ⟨batch, _, rfl, hclears.accounts hm hbatch rfl (by rw [hbatch]; rfl)⟩
  · rw [hbatch] at hx
    obtain ⟨⟨z, hz, -, htaken⟩, hstored, claim, -, hheld⟩ := Memory.held_of_mem_claimed hm hx
    refine ⟨hstored, ⟨claim, hheld⟩, ?_⟩
    rw [htaken]
    exact hcount z (messageOf?_mem hz).1

end Processor

end Outbox

/-- A cycle that has a store to itself accounts for every message that it claims, whatever the clock
shows and the publisher does. What becomes of a message is up to the answer to its own event, as
`Settles` has it: any other cycle of the processor that claims it and is answered so leaves it there
too. -/
theorem cycle_accounts_for_batch (p : Processor) (around : Surroundings) (m : Memory)
    (hm : m.Distinct) (hcount : ∀ x ∈ m.outbox, x.retryCount.toInt < Word.maxInt32) :
    let s := (p.cycle.play around { memory := m }).2
    ∃ batch r, (p.cycle.play around { memory := m }).1 = .ok r ∧ p.Accounts m batch r s ∧
      ∀ m' batch' r' s', p.Accounts m' batch' r' s' → ∀ x ∈ batch, x ∈ batch' →
        s.answersTo x.id = s'.answersTo x.id →
          ∃ y z, s.memory.message? x.id = some y ∧ s'.memory.message? x.id = some z ∧
            z = { y with processedAt := z.processedAt } := by
  intro s
  obtain ⟨batch, r, hanswer, haccounts⟩ := p.accounts_cycle around hm hcount
  exact ⟨batch, r, hanswer, haccounts, fun m' batch' r' s' haccounts' x hx hx' hanswers =>
    haccounts.alike haccounts' hx hx' hanswers⟩

/-- The messages of one credit, and one of an unknown kind that nobody can read. -/
def creditAndStray : Memory :=
  let m := ((Interleaving.on .empty).run oneCredit : Traffic).memory
  { m with outbox := m.outbox ++
      [{ id := ⟨99⟩, eventType := "Unknown", payload := .null, occurredAt := .epoch,
         processedAt := none, claimedAt := none, status := .pending, retryCount := 2, error := none,
         correlationId := none, initiatedBy := none }] }

/-- Two messages that can be read and one that cannot, and a publisher that is down at first. -/
theorem cycle_accounts_for_batch_creditAndStray :
    let m := creditAndStray
    let p : Processor := { config := { batchSize := 3, maxRetries := 1 } }
    let s := (p.cycle.play threeFailures { memory := m }).2
    (m.Distinct ∧ ∀ x ∈ m.outbox, x.retryCount.toInt < Word.maxInt32) ∧
      m.outbox.map (fun x => (p.event? x).isSome) = [true, true, false] ∧
      ∃ batch r, (p.cycle.play threeFailures { memory := m }).1 = .ok r ∧ p.Accounts m batch r s ∧
        ∀ m' batch' r' s', p.Accounts m' batch' r' s' → ∀ x ∈ batch, x ∈ batch' →
          s.answersTo x.id = s'.answersTo x.id →
            ∃ y z, s.memory.message? x.id = some y ∧ s'.memory.message? x.id = some z ∧
              z = { y with processedAt := z.processedAt } := by
  intro m p s
  have hm : m.Distinct := by
    unfold Memory.Distinct
    decide +kernel
  have hcount : ∀ x ∈ m.outbox, x.retryCount.toInt < Word.maxInt32 := by decide +kernel
  have hreadable : m.outbox.map (fun x => (p.event? x).isSome) = [true, true, false] := by
    decide +kernel
  exact ⟨⟨hm, hcount⟩, hreadable, cycle_accounts_for_batch p threeFailures m hm hcount⟩

end BalanceLedger
