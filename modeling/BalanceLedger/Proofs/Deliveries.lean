/-
# `Proofs.Deliveries` — a store that is visited

Those who deliver the messages of a store, any number of them, visit it one after the
other: each makes a request at a reading of the clock and is answered.  Between their
visits calls commit, which is a visit too.  A `Service` is the store with everything
that has been asked of it and answered so far, and `run` has it visited.

Messages come in with commits only, as they are made for an event.  If what comes in has
identifiers of its own, no two messages ever have the same.  `Receives` says this of
visits, and it is what the modules about messages ask for; that calls write such
messages is `distinct_new`.

No program is mentioned here.  A visit is any request, so what is shown of visits holds
of deliverers that keep no rules at all, and it is carried over to interleavings by the
exchanges of their transcript.
-/
import BalanceLedger.Proofs.Messages
import BalanceLedger.Proofs.Traffic

namespace BalanceLedger

open Outbox (Message)
open Store (Memory Request)
open Time (Instant)

/-- A request at a reading of the clock. -/
structure Visit where
  now : Instant
  request : Request

structure Exchange where
  now : Instant
  request : Request
  reply : request.Reply

/-- A store, and each `Exchange` that it has had. -/
structure Service where
  memory : Memory
  past : List Exchange := []

/-- The messages that a request brings. -/
def Store.Request.brings : Request → List Message
  | .commit c => c.outbox
  | _ => []

/-- The message is as it is made for an event. -/
def Outbox.Message.IsNew (x : Message) : Prop :=
  ∃ event origin id now, x = .ofEvent event origin id now

/-- What visits bring to a store are new messages, with identifiers that nothing else has. -/
structure Store.Memory.Receives (m : Memory) (visits : List Visit) : Prop where
  new : ∀ v ∈ visits, ∀ x ∈ v.request.brings, x.IsNew
  distinct : ((m.outbox ++ visits.flatMap fun v => v.request.brings).map Message.id).Nodup

namespace Store.Memory.Receives

variable {m : Memory} {visits more : List Visit}

theorem distinct_memory (h : m.Receives visits) : m.Distinct := by
  have hall := h.distinct
  rw [List.map_append] at hall
  exact (List.nodup_append.mp hall).1

theorem earlier (h : m.Receives (visits ++ more)) : m.Receives visits where
  new v hv := h.new v (List.mem_append_left _ hv)
  distinct := by
    have hall := h.distinct
    rw [List.flatMap_append, ← List.append_assoc, List.map_append] at hall
    exact (List.nodup_append.mp hall).1

end Store.Memory.Receives

namespace Service

def serve (s : Service) (x : Visit) : Service where
  memory := (s.memory.answer x.now x.request).2
  past := s.past ++
    [{ now := x.now, request := x.request, reply := (s.memory.answer x.now x.request).1 }]

def exchange (s : Service) (v : Visit) : Exchange where
  now := v.now
  request := v.request
  reply := (s.memory.answer v.now v.request).1

theorem past_serve (s : Service) (v : Visit) : (s.serve v).past = s.past ++ [s.exchange v] :=
  rfl

def run (s : Service) (visits : List Visit) : Service :=
  visits.foldl serve s

variable {s : Service} {visits : List Visit} {x : Visit}

theorem run_concat : s.run (visits ++ [x]) = (s.run visits).serve x := by
  simp [run]

theorem run_append (s : Service) (visits more : List Visit) :
    s.run (visits ++ more) = (s.run visits).run more :=
  List.foldl_append

theorem now_past (visits : List Visit) :
    (s.run visits).past.map Exchange.now = s.past.map Exchange.now ++ visits.map Visit.now := by
  induction visits using List.reverseRecOn with
  | nil => simp [run]
  | append_singleton visits x ih =>
      rw [run_concat, serve, List.map_append, ih, List.map_append, List.append_assoc]
      rfl

end Service

namespace Store.Memory

/-- Only what a request `brings` is new in the outbox. -/
theorem map_id_answer (m : Memory) (now : Instant) (q : Request) :
    ((m.answer now q).2.outbox.map Message.id).Sublist
      (m.outbox.map Message.id ++ q.brings.map Message.id) := by
  have hsame : ∀ m' : Memory, m'.outbox.map Message.id = m.outbox.map Message.id →
      (m'.outbox.map Message.id).Sublist (m.outbox.map Message.id ++ q.brings.map Message.id) :=
    fun m' h => h ▸ List.sublist_append_left _ _
  cases hq : q.verdict? now with
  | some v =>
      rcases m.verdict_accepted_or_refused hq with ⟨_, _, -, -, -, hids, -⟩ | ⟨-, hanswer⟩
      · exact hsame _ hids
      · exact hsame _ (by rw [hanswer])
  | none =>
      cases q with
      | commit c =>
          cases hfault : m.fault? c with
          | some f => exact hsame _ (by rw [answer_commit_refused hfault])
          | none =>
              rw [answer_commit_accepted hfault, outbox_write, List.map_append]
              exact List.Sublist.refl _
      | claim batch staleBefore => exact hsame _ (m.map_id_claim batch staleBefore now)
      | purge cutoff =>
          exact (List.filter_sublist.map _).trans (List.sublist_append_left _ _)
      | complete => exact absurd hq (by simp [Request.verdict?])
      | recordFailure => exact absurd hq (by simp [Request.verdict?])
      | markFailed => exact absurd hq (by simp [Request.verdict?])
      | _ => exact hsame m rfl

end Store.Memory

namespace Service

variable {s : Service} {visits : List Visit} {x : Visit}

theorem map_id_run (visits : List Visit) :
    ((s.run visits).memory.outbox.map Message.id).Sublist
      (s.memory.outbox.map Message.id ++
        (visits.flatMap fun v => v.request.brings).map Message.id) := by
  induction visits using List.reverseRecOn with
  | nil => simp [run]
  | append_singleton visits x ih =>
      have hstep := (s.run visits).memory.map_id_answer x.now x.request
      rw [run_concat, List.flatMap_append, List.map_append, ← List.append_assoc]
      refine hstep.trans ?_
      rw [List.flatMap_singleton]
      exact ih.append_right _

theorem receives_last (s : Service) (h : s.memory.Receives (visits ++ [x])) :
    (s.run visits).memory.Receives [x] where
  new v hv := h.new v (List.mem_append_right _ hv)
  distinct := by
    have hall := h.distinct
    rw [List.flatMap_append, ← List.append_assoc, List.map_append, List.map_append] at hall
    rw [List.map_append]
    exact hall.sublist ((map_id_run visits).append_right _)

end Service

namespace Traffic

/-- The messages that calls have written are new, and no two of them have the same id. -/
theorem distinct_new (steps : List (Interleaving.Step Call)) :
    let m := ((Interleaving.on .empty).run steps : Traffic).memory
    m.Distinct ∧ ∀ x ∈ m.outbox, x.IsNew := by
  intro m
  have h : (Call.charter .empty).Upheld .empty ((Interleaving.on .empty).run steps) :=
    upheld Memory.indexed_empty steps
  refine ⟨?_, fun x hx => ?_⟩
  · unfold Memory.Distinct
    rw [outbox_eq h]
    exact nodup_message_ids h
  · obtain ⟨_, _, hc, hx⟩ := exists_commit_of_mem_outbox h hx
    obtain ⟨_, _, _, -, -, -, hstaged⟩ := exists_staged h hc
    obtain ⟨event, id, now, -, rfl⟩ := hstaged.exists_event x hx
    exact ⟨event, _, id, now, rfl⟩

end Traffic

end BalanceLedger
