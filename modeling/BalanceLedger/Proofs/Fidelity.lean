/-
# `Proofs.Fidelity` — an event is published as it was emitted

What a call emits and what a publisher is handed have nothing in common but a message
between them.  The event is written down as the name of its kind and a bare payload,
other parties claim the message, lose it and claim it again, and in the end one of them
reads the payload as an event of the kind that is named.

It is shown that what is published is the event that was emitted, with everything that
belongs to it, where processors read with `Registry.ledgerEvents`.  There are three
parts to this:

  * a message of the ledger is read as the event that it was made for, `Emits.decode`;

  * every message in the store has come in with a change set that was accepted, so it
    was made by a call, `exists_emits`;

  * whatever becomes of a message, its content stays, so that this is so of what a cycle
    has in hand, `exists_emits_of_inHand`.

So a processor that can read all events of the ledger gives up no message but for
failures to publish it.  `Faithful` says so of an interleaving, and
`events_published_faithfully` proves it.  The registry is a hypothesis there: a registry
can also read a name in a way of its own, and then what is published is what it reads.
-/
import BalanceLedger.Proofs.Verdicts

namespace BalanceLedger

open Outbox (Message Processor PublishedEvent Registry)
open Store (ChangeSet Memory)
open Time (Instant)

theorem exists_ok_of_toBool {ε α : Type} {r : Except ε α} (h : r.toBool = true) :
    ∃ a, r = .ok a := by
  cases r with
  | ok a => exact ⟨a, rfl⟩
  | error e => exact absurd h (by simp [Except.toBool])

/-! ## Where messages come from -/

theorem Store.Memory.answer_recordFailure_ok {m : Memory} {now : Instant} {id : Uuid}
    {stamp : Instant} {reason : String} {maxRetries : Int32} {status : Outbox.Status}
    (h : (m.answer now (.recordFailure id stamp reason maxRetries)).1 = .ok status) :
    ∃ x, m.message? id = some x ∧ status = (undelivered reason maxRetries x).status := by
  cases hheld : changeHeld id stamp (undelivered reason maxRetries) m.outbox with
  | ok r =>
      obtain ⟨changed, after⟩ := r
      have hkeep : ∀ x, (undelivered reason maxRetries x).id = x.id := fun _ => rfl
      obtain ⟨x, hx, -, rfl, -⟩ := changeHeld_ok hkeep hheld
      simp only [answer, finish, hheld, settle, Except.map, Except.ok.injEq] at h
      exact ⟨x, hx, h.symm⟩
  | error f => simp [answer, finish, hheld, settle, Except.map] at h

namespace Service

variable {visits : List Visit} {v : Visit} {id : Uuid} {x : Message}

theorem fate_concat (h : Memory.empty.Receives (visits ++ [v])) (id : Uuid) :
    Store.Fate v.now v.request ((run { memory := .empty } visits).exchange v).reply id
      ((run { memory := .empty } visits).memory.message? id)
      ((run { memory := .empty } (visits ++ [v])).memory.message? id) := by
  rw [run_concat]
  exact Memory.fate (tidy_run h.earlier).distinct v.now v.request id

theorem exists_commit (h : Memory.empty.Receives visits)
    (hx : (run { memory := .empty } visits).memory.message? id = some x) :
    ∃ now c y, ⟨now, .commit c, .ok ()⟩ ∈ (run { memory := .empty } visits).past ∧
      y ∈ c.outbox ∧ x.SameContent y := by
  induction visits using List.reverseRecOn generalizing x with
  | nil => exact absurd (Store.messageOf?_mem hx).1 List.not_mem_nil
  | append_singleton visits v ih =>
      have hlater : ∀ y, (run { memory := .empty } visits).memory.message? id = some y →
          x.SameContent y → ∃ now c z,
            ⟨now, .commit c, .ok ()⟩ ∈ (run { memory := .empty } (visits ++ [v])).past ∧
              z ∈ c.outbox ∧ x.SameContent z := by
        intro y hy hsame
        obtain ⟨now, c, z, hpast, hz, hcontent⟩ := ih h.earlier hy
        refine ⟨now, c, z, ?_, hz, hsame.trans hcontent⟩
        rw [run_concat, past_serve]
        exact List.mem_append_left _ hpast
      have hfate := fate_concat h id
      rw [hx] at hfate
      generalize hbefore : (run { memory := .empty } visits).memory.message? id = before at hfate
      cases hfate with
      | left => exact hlater x hbefore (.refl x)
      | taken => exact hlater _ hbefore (Message.sameContent_take ..)
      | changed hq => exact hlater _ hbefore (Message.sameContent_change hq _)
      | @brought c _ hq hmem =>
          obtain ⟨now, request⟩ := v
          obtain rfl : request = .commit c := hq
          cases hfault : (run { memory := .empty } visits).memory.fault? c with
          | some f =>
              -- a change set that is refused brings nothing
              rw [run_concat, serve, Memory.answer_commit_refused hfault] at hx
              exact absurd (hbefore.symm.trans hx) (by simp)
          | none =>
              refine ⟨now, c, x, ?_, hmem, .refl x⟩
              rw [run_concat, past_serve, exchange, Memory.answer_commit_accepted hfault]
              exact List.mem_append_right _ (List.mem_singleton.mpr rfl)

theorem surrender_of_verdict? {s : Service} {w : Store.Verdict}
    (hw : v.request.verdict? v.now = some w) (hid : w.id = id)
    (hx : s.memory.message? id = some x) (haccepted : (s.exchange v).reply.toBool = true)
    (hfailed : (w.change x).status = .failed) : ∃ stamp reason,
      s.exchange v = ⟨v.now, .markFailed id stamp reason, .ok ()⟩ ∨
      ∃ maxRetries, s.exchange v = ⟨v.now, .recordFailure id stamp reason maxRetries, .ok .failed⟩ ∧
        maxRetries ≤ (w.change x).retryCount := by
  obtain ⟨now, request⟩ := v
  obtain ⟨a, ha⟩ : ∃ a, (s.memory.answer now request).1 = .ok a := exists_ok_of_toBool haccepted
  rw [exchange, ha]
  cases request with
  | complete =>
      obtain rfl := Option.some.inj hw
      exact absurd hfailed (by simp [Memory.delivered])
  | markFailed id' stamp reason =>
      obtain rfl := Option.some.inj hw
      obtain rfl : id' = id := hid
      exact ⟨stamp, reason, .inl rfl⟩
  | recordFailure id' stamp reason maxRetries =>
      obtain rfl := Option.some.inj hw
      obtain rfl : id' = id := hid
      obtain ⟨y, hy, rfl⟩ := Memory.answer_recordFailure_ok ha
      obtain rfl := Option.some.inj (hx.symm.trans hy)
      refine ⟨stamp, reason, .inr ⟨maxRetries, by rw [hfailed], ?_⟩⟩
      by_contra hlt
      have hpending : (Memory.undelivered reason maxRetries x).status = .pending := if_neg hlt
      exact absurd (hpending.symm.trans hfailed) (by simp)
  | _ => exact absurd hw (by simp [Store.Request.verdict?])

theorem exists_surrender (h : Memory.empty.Receives visits)
    (hx : (run { memory := .empty } visits).memory.message? id = some x)
    (hfailed : x.status = .failed) : ∃ now stamp reason,
      ⟨now, .markFailed id stamp reason, .ok ()⟩ ∈ (run { memory := .empty } visits).past ∨
      ∃ maxRetries, ⟨now, .recordFailure id stamp reason maxRetries, .ok .failed⟩ ∈
        (run { memory := .empty } visits).past ∧ maxRetries ≤ x.retryCount := by
  induction visits using List.reverseRecOn generalizing x with
  | nil => exact absurd (Store.messageOf?_mem hx).1 List.not_mem_nil
  | append_singleton visits v ih =>
      have hfate := fate_concat h id
      rw [hx] at hfate
      rw [run_concat, past_serve]
      generalize hbefore : (run { memory := .empty } visits).memory.message? id = before at hfate
      cases hfate with
      | left =>
          obtain ⟨now, stamp, reason, hpast⟩ := ih h.earlier hbefore hfailed
          refine ⟨now, stamp, reason, hpast.imp (List.mem_append_left _) ?_⟩
          rintro ⟨maxRetries, hmem, hle⟩
          exact ⟨maxRetries, List.mem_append_left _ hmem, hle⟩
      | brought hq hmem =>
          have hnew := h.new v (by simp) x (by rw [hq]; exact hmem)
          exact absurd (hnew.sound.2.1.symm.trans hfailed) (by simp)
      | taken => exact absurd hfailed (by simp [Memory.take])
      | changed hw hid _ haccepted =>
          obtain ⟨stamp, reason, hlast⟩ :=
            surrender_of_verdict? hw hid hbefore haccepted hfailed
          refine ⟨v.now, stamp, reason, hlast.imp (fun he => ?_) ?_⟩
          · exact List.mem_append_right _ (List.mem_singleton.mpr he.symm)
          · rintro ⟨maxRetries, he, hle⟩
            exact ⟨maxRetries, List.mem_append_right _ (List.mem_singleton.mpr he.symm), hle⟩

end Service

/-! ## What calls emit -/

namespace Interleaving

theorem start_mem {τ α : Type} [Task τ α] {base : Memory} {steps : List (Step τ)} {place : Nat}
    {q : Party τ α} (hq : ((on base).run steps).parties[place]? = some q) :
    .start q.task ∈ steps := by
  induction steps using List.reverseRecOn generalizing q with
  | nil => exact absurd hq (by simp [run, on])
  | append_singleton steps x ih =>
      have hearlier : ∀ p : Party τ α, ((on base).run steps).parties[place]? = some p →
          q.task = p.task → .start q.task ∈ steps ++ [x] :=
        fun p hp htask => htask ▸ List.mem_append_left _ (ih hp)
      rw [run_concat] at hq
      cases x with
      | start task =>
          rcases getElem?_concat_cases hq with hp | ⟨-, rfl⟩
          · exact hearlier q hp rfl
          · exact List.mem_append_right _ (List.mem_singleton.mpr rfl)
      | stop n =>
          obtain ⟨p, hp, htask, -⟩ := getElem?_stop hq
          exact hearlier p hp htask
      | act n w =>
          rcases act_cases ((on base).run steps) n w with hsame | ⟨p, _, _, hp, -, -, hact⟩
          · rw [step, hsame] at hq
            exact hearlier q hq rfl
          · rw [step, hact] at hq
            rcases getElem?_answered hq with ⟨rfl, rfl⟩ | ⟨-, hq⟩
            · exact hearlier p hp rfl
            · exact hearlier q hq rfl

/-- With an utterance, a call has committed a message for an event, under its own origin. -/
def Emits (s : Interleaving Errand Errand.Result) (u : Utterance) (x : Message)
    (event : Event) : Prop :=
  ∃ q call c id now, s.parties[u.place]? = some q ∧ q.task = .call call ∧
    u.turn = ⟨.store (.commit c), .ok ()⟩ ∧ x ∈ c.outbox ∧ x = .ofEvent event call.origin id now

variable {steps before : List (Step Errand)} {u : Utterance} {x y : Message} {event : Event}

/-- What is emitted is read by `ledgerEvents` as it was emitted, and so is everything with its
content. -/
theorem Emits.decode {s : Interleaving Errand Errand.Result} (h : s.Emits u x event)
    (hsame : y.SameContent x) :
    Registry.ledgerEvents.decode y.eventType y.payload = .ok event := by
  obtain ⟨q, call, c, id, now, -, -, -, -, rfl⟩ := h
  rw [hsame.eventType, hsame.payload]
  exact Registry.decode_ofEvent ..

theorem exists_emits_of_commit {now : Instant} {c : ChangeSet}
    (hu : u ∈ (on .empty).transcript steps)
    (he : u.exchange? = some ⟨now, .commit c, .ok ()⟩) (hx : x ∈ c.outbox) :
    ∃ event, ((on .empty).run steps).Emits u x event := by
  obtain ⟨q, before, hq, -, hallows⟩ := exists_allows hu
  have hrequest : u.turn.request = .store (.commit c) ∨ u.turn.request = .plan (.commit c) :=
    (Turn.eq_of_exchange? he).imp (congrArg Turn.request) (congrArg Turn.request)
  cases htask : q.task with
  | call call =>
      rw [htask] at hallows
      have hmay := (Conduct.allows_concat_iff.mp hallows).2
      rcases Turn.eq_of_exchange? he with hturn | hturn
      · rw [hturn] at hmay
        obtain ⟨-, _, _, hstaged, -⟩ := hmay
        obtain ⟨event, id, later, -, hofEvent⟩ := hstaged.exists_event x hx
        exact ⟨event, q, call, c, id, later, hq, htask, hturn, hx, hofEvent⟩
      · rw [hturn] at hmay
        exact absurd hmay.2 (by simp [Store.Request.isLookup])
  | deliver p =>
      rw [htask] at hallows
      have hmay := (Conduct.allows_concat_iff.mp hallows).2
      rcases hrequest with hcommit | hcommit <;> exact (hcommit ▸ hmay).elim
  | purge cutoff =>
      rw [htask] at hallows
      have hpurge : u.turn.request = .store (.purge cutoff) :=
        (Conduct.allows_concat_iff.mp hallows).2
      rcases hrequest with hcommit | hcommit <;> exact absurd (hcommit.symm.trans hpurge) (by simp)

/-- Every message of the store was emitted. -/
theorem exists_emits {id : Uuid} (hpre : before <+: steps)
    (hx : ((on .empty).run before).memory.message? id = some x) :
    ∃ u ∈ (on .empty).transcript before, ∃ y event,
      ((on .empty).run steps).Emits u y event ∧ x.SameContent y := by
  obtain ⟨after, rfl⟩ := hpre
  rw [show ((on .empty).run before).memory = _ from
    (congrArg Service.memory (run_visits before)).symm] at hx
  obtain ⟨now, c, y, hpast, hy, hsame⟩ := Service.exists_commit (receives_exchanges before) hx
  rw [run_visits] at hpast
  obtain ⟨u, hu, he⟩ := List.mem_filterMap.mp hpast
  obtain ⟨event, hemits⟩ := exists_emits_of_commit
    (transcript_append _ before after ▸ List.mem_append_left _ hu) he hy
  exact ⟨u, hu, y, event, hemits, hsame⟩

/-- What a cycle has in hand was emitted before it was handed out. -/
theorem exists_emits_of_inHand {p : Processor} {turns : List (Turn World)} {place : Nat}
    (hpre : before <+: steps) (hturns : turns <+: (on .empty).dialogue before place)
    (hy : y ∈ (p.conduct.after {} turns).handed) :
    ∃ u ∈ (on .empty).transcript before, ∃ x event,
      ((on .empty).run steps).Emits u x event ∧ y.SameContent x := by
  obtain ⟨batch, staleBefore, messages, hclaim, hy⟩ := Processor.exists_claim_of_mem_handed hy
  obtain ⟨now, hclaim⟩ := mem_dialogue.mp (hturns.subset hclaim)
  have hclaim : ⟨place, now, ⟨.store (.claim batch staleBefore), .ok messages⟩⟩ ∈
    ((on .empty).run []).transcript before := hclaim
  obtain ⟨earlier, x, hearlier, hx, -, hsame⟩ := exists_of_handed hclaim rfl hy
  obtain ⟨u, hu, z, event, hemits, hcontent⟩ := exists_emits (hearlier.trans hpre) hx
  obtain ⟨rest, rfl⟩ := hearlier
  exact ⟨u, transcript_append _ earlier rest ▸ List.mem_append_left _ hu, z, event, hemits,
    hsame.trans hcontent⟩

/-! ## What cycles make of it -/

theorem not_markFailed (hregistry : ∀ p, .start (.deliver p) ∈ steps → p.registry = .ledgerEvents)
    (hu : u ∈ (on .empty).transcript steps) (id : Uuid) (stamp : Instant) (reason : String) :
    u.turn.request ≠ .store (.markFailed id stamp reason) := by
  intro hrequest
  obtain ⟨place, now, request, reply⟩ := u
  obtain rfl : request = .store (.markFailed id stamp reason) := hrequest
  have he : Turn.exchange? now ⟨.store (.markFailed id stamp reason), reply⟩ =
      some ⟨now, .markFailed id stamp reason, reply⟩ := rfl
  obtain ⟨q, turns, hq, hpre, hallows⟩ := exists_allows hu
  obtain ⟨p, htask, -, hmay⟩ := hallows.exists_deliver he rfl
  obtain ⟨y, hy, -, error, hdecode⟩ := hmay
  obtain ⟨_, _, x, event, hemits, hsame⟩ := exists_emits_of_inHand (List.prefix_refl steps)
    ((List.prefix_append ..).trans hpre) hy
  rw [hregistry p (htask ▸ start_mem hq), hemits.decode hsame] at hdecode
  exact absurd hdecode (by simp)

/-- What is published was emitted before, if every processor reads with `ledgerEvents`. -/
theorem exists_emits_of_publish
    (hregistry : ∀ p, .start (.deliver p) ∈ steps → p.registry = .ledgerEvents)
    {past later : List Utterance} {e : PublishedEvent}
    (hsplit : (on .empty).transcript steps = past ++ u :: later)
    (hpublish : u.turn.request = .publish e) :
    ∃ v ∈ past, ∃ x event, ((on .empty).run steps).Emits v x event ∧ e = .ofMessage x event := by
  obtain ⟨before, step, after, rfl, rfl, hheard⟩ := exists_step_of_transcript hsplit
  have hu : u ∈ (on .empty).transcript (before ++ [step]) := by
    rw [transcript_concat, hheard]
    exact List.mem_append_right _ (List.mem_singleton.mpr rfl)
  obtain ⟨q, turns, hq, hpre, hallows⟩ := exists_allows hu
  obtain ⟨p, htask, y, hy, payload, hdecode, rfl⟩ := hallows.exists_publisher hpublish
  have hstart : .start (.deliver p) ∈ before ++ [step] := htask ▸ start_mem hq
  -- what comes before this turn in its place was said in the past
  have hturns : turns <+: (on .empty).dialogue before u.place := by
    rw [dialogue_concat, dialogue_singleton hheard, if_pos rfl] at hpre
    rcases List.prefix_concat_iff.mp hpre with heq | hpre
    · exact (List.append_inj' heq rfl).1 ▸ List.prefix_refl _
    · exact (List.prefix_append ..).trans hpre
  obtain ⟨v, hv, x, event, hemits, hsame⟩ :=
    exists_emits_of_inHand (List.prefix_append before (step :: after)) hturns hy
  have hmem : .start (.deliver p) ∈ before ++ step :: after := by
    rw [List.append_cons]
    exact List.mem_append_left after hstart
  rw [hregistry p hmem, hemits.decode hsame] at hdecode
  obtain rfl := Except.ok.inj hdecode
  refine ⟨v, hv, x, event, hemits, ?_⟩
  rw [PublishedEvent.ofMessage, hsame.id, hsame.eventType, hsame.occurredAt, hsame.correlationId,
    hsame.initiatedBy, PublishedEvent.ofMessage]

/-- Events are published as they were emitted, and nothing that was emitted is taken for unreadable.
-/
structure Faithful (steps : List (Step Errand)) : Prop where
  /-- The message of an event is read as that event. -/
  read : ∀ event origin id now,
    Registry.ledgerEvents.decode (Message.ofEvent event origin id now).eventType
      (Message.ofEvent event origin id now).payload = .ok event
  /-- No message is given up as unreadable. -/
  readable : ∀ u ∈ (on .empty).transcript steps, ∀ id stamp reason,
    u.turn.request ≠ .store (.markFailed id stamp reason)
  /-- What is published was emitted before, with the same identifier, time and origin. -/
  published : ∀ past u later, (on .empty).transcript steps = past ++ u :: later →
    ∀ e, u.turn.request = .publish e →
      ∃ v ∈ past, ∃ x event, ((on .empty).run steps).Emits v x event ∧ e = .ofMessage x event
  /-- A message is given up by a processor that has as many failures counted as it goes through. -/
  failed : ∀ x ∈ ((on .empty).run steps).memory.outbox, x.status = .failed →
    ∃ u ∈ (on .empty).transcript steps, ∃ p stamp reason,
      ((on .empty).run steps).IsCycleOf u.place p ∧
      u.turn = ⟨.store (.recordFailure x.id stamp reason p.config.maxRetries), .ok .failed⟩ ∧
      p.config.maxRetries ≤ x.retryCount

theorem failed_by_failures
    (hregistry : ∀ p, .start (.deliver p) ∈ steps → p.registry = .ledgerEvents)
    (hx : x ∈ ((on .empty).run steps).memory.outbox) (hfailed : x.status = .failed) :
    ∃ u ∈ (on .empty).transcript steps, ∃ p stamp reason,
      ((on .empty).run steps).IsCycleOf u.place p ∧
      u.turn = ⟨.store (.recordFailure x.id stamp reason p.config.maxRetries), .ok .failed⟩ ∧
      p.config.maxRetries ≤ x.retryCount := by
  have hfound := message?_of_mem hx
  rw [show ((on .empty).run steps).memory = _ from
    (congrArg Service.memory (run_visits steps)).symm] at hfound
  obtain ⟨now, stamp, reason, hsurrender⟩ :=
    Service.exists_surrender (receives_exchanges steps) hfound hfailed
  rw [run_visits] at hsurrender
  rcases hsurrender with hpast | ⟨maxRetries, hpast, hcount⟩
  all_goals
    obtain ⟨u, hu, he⟩ := List.mem_filterMap.mp hpast
    obtain ⟨q, turns, hq, hpre, hallows⟩ := exists_allows hu
    obtain ⟨p, htask, hturn, hmay⟩ := hallows.exists_deliver he rfl
  · exact (not_markFailed hregistry hu _ _ _ (congrArg Turn.request hturn)).elim
  · obtain ⟨rfl, -⟩ := hmay
    exact ⟨u, hu, p, stamp, reason, ⟨q, hq, htask⟩, hturn, hcount⟩

end Interleaving

/-- Callers, purges and the cycles of processors that can read all events of the ledger work on a
store on which nothing had happened: events are published as they were emitted. -/
theorem events_published_faithfully (steps : List (Interleaving.Step Errand))
    (hregistry : ∀ p, .start (.deliver p) ∈ steps → p.registry = .ledgerEvents) :
    Interleaving.Faithful steps where
  read := Registry.decode_ofEvent
  readable _ := Interleaving.not_markFailed hregistry
  published _ _ _ hsplit _ := Interleaving.exists_emits_of_publish hregistry hsplit
  failed _ := Interleaving.failed_by_failures hregistry

/-- One credit, and one cycle of a processor that tries once only, which fails to publish the first
of its two messages. -/
def onlyTry : List (Interleaving.Step Errand) :=
  .start (.call { command := .post (.credit .nil "MAD" 100 "in") }) ::
    (List.range 12).map (fun n => .act 0 { now := .epoch, id := ⟨BitVec.ofNat 128 n⟩ }) ++
  .start (.deliver { config := { maxRetries := 1 } }) ::
    (List.range 7).map fun n =>
      .act 1 { now := .epoch, published := if n = 2 then .error (.transport "down") else .ok () }

theorem events_published_faithfully_onlyTry :
    ((Interleaving.on .empty : Interleaving Errand Errand.Result).run
      onlyTry).memory.outbox.map (fun x => (x.status, x.retryCount)) =
        [(.failed, 1), (.completed, 0)] ∧ Interleaving.Faithful onlyTry := by
  refine ⟨?_, events_published_faithfully onlyTry fun p hp => ?_⟩
  · unfold Interleaving.run Interleaving.step Interleaving.act Interleaving.answered Moment.reply
      Memory.answer Memory.claim
    simp only [Memory.eligible_eq_insertionSort]
    decide +kernel
  · simp only [onlyTry, List.mem_append, List.mem_cons, List.mem_map] at hp
    rcases hp with (hp | ⟨_, _, hp⟩) | hp | ⟨_, _, hp⟩
    all_goals simp at hp
    rw [hp]

end BalanceLedger
