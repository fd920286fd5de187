/-
# `Proofs.Errands` — deliverers and purges among callers

The store of the ledger is also the store of those who deliver its messages.  So three
kinds of parties meet on it, request by request, each with an `Errand`: callers, the
cycles of processors, and purges.  Processors differ in what they can read, in how often
they try and in whom they publish to; what a publisher replies is up to the step, so it
can be anything.

A cycle has rules of conduct too, as a call has them, and `keeps_cycle` says that it
keeps them.  It publishes what has been handed out to it and nothing else; it writes
down that a message was delivered, or that it was not, only as the last attempt to
publish it went, and each failed attempt counts once; and it gives up only what it
cannot read.  What it can read is up to its registry, which may hold any decoders.

Whoever brings messages to the store keeps the rules for calls, so the messages that
come in are new ones with identifiers of their own.  That is `receives_exchanges`, and
by it all that is known of a store that is visited holds here.

`Allows` joins the rules of the three kinds.  The lemmas about it say who can have taken
a turn: verdicts and events come from deliverers only, by `Allows.exists_deliver` and
`Allows.exists_publisher`, and messages from callers only.
-/
import BalanceLedger.Outbox.Processor
import BalanceLedger.Proofs.Procedure

namespace BalanceLedger

open Outbox (Message Processor PublishedEvent)
open Store (Memory)
open Time (Instant)

theorem Turn.eq_of_exchange? {t : Turn World} {now : Instant} {e : Exchange}
    (h : t.exchange? now = some e) :
    t = ⟨.store e.request, e.reply⟩ ∨ t = ⟨.plan e.request, some e.reply⟩ := by
  obtain ⟨request, reply⟩ := t
  cases request with
  | store q =>
      obtain rfl := Option.some.inj h
      exact .inl rfl
  | plan q =>
      cases reply with
      | none => exact absurd h (by simp [Turn.exchange?])
      | some reply =>
          obtain rfl := Option.some.inj h
          exact .inr rfl
  | _ => exact absurd h (by simp [Turn.exchange?])

theorem Call.verdict?_of_may {origin : Origin} {s : Call.Progress} {q : Store.Request}
    {now : Instant} (h : Call.may origin s (.store q)) : q.verdict? now = none := by
  cases q with
  | complete | recordFailure | markFailed => exact h.elim
  | _ => rfl

theorem Store.Request.verdict?_of_isLookup {q : Store.Request} {now : Instant}
    (h : q.isLookup = true) : q.verdict? now = none := by
  cases q with
  | complete | recordFailure | markFailed => exact absurd h (by simp [isLookup])
  | _ => rfl

/-! ## Cycles of a processor -/

namespace Outbox.Processor

/-- What a cycle goes by. -/
structure Progress where
  /-- The messages that have been handed out to it. -/
  handed : List Message := []
  /-- The event that it has last tried to publish, and whether it was published, as long as no
  failure has been counted for that. -/
  tried : Option (PublishedEvent × Bool) := none

/-- What a cycle may ask. -/
def may (p : Processor) (s : Progress) : World.Request → Prop
  | .publish e => ∃ x ∈ s.handed, ∃ event,
      p.registry.decode x.eventType x.payload = .ok event ∧ e = .ofMessage x event
  | .store (.complete id _) => ∃ e, s.tried = some (e, true) ∧ e.id = id
  | .store (.recordFailure id _ _ maxRetries) =>
    maxRetries = p.config.maxRetries ∧ ∃ e, s.tried = some (e, false) ∧ e.id = id
  | .store (.markFailed id _ _) => ∃ x ∈ s.handed, x.id = id ∧
      ∃ error, p.registry.decode x.eventType x.payload = .error error
  | .store (.claim ..) | .clock | .log _ => True
  | _ => False

/-- What a cycle goes by after a reply.  A `.claim` starts it anew. -/
def moved (s : Progress) : (request : World.Request) → World.Reply request → Progress
  | .store (.claim ..), .ok messages => { s with handed := messages }
  | .publish e, reply => { s with tried := some (e, reply.toBool) }
  | .store (.recordFailure ..), _ => { s with tried := none }
  | _, _ => s

/-- The rules for the cycles of a processor. -/
def conduct (p : Processor) : Conduct World Progress where
  may := p.may
  hears := World.IsGiven
  moved := moved

variable {p : Processor} {s : Progress} {x : Message}

section

variable {Q : Outcome → Progress → Prop}

theorem wp_abandon {id : Uuid} {e : StoreError} (h : Q .abandoned s) :
    (abandon id e).wp p.conduct.asks Q s :=
  ⟨trivial, fun _ _ => h⟩

theorem wp_park {claim : Instant} {e : OutboxError} (hx : x ∈ s.handed)
    (herror : p.registry.decode x.eventType x.payload = .error e) (h : ∀ o, Q o s) :
    (park x claim e).wp p.conduct.asks Q s := by
  refine ⟨trivial, fun _ _ => ⟨⟨x, hx, rfl, e, herror⟩, fun reply _ => ?_⟩⟩
  cases reply with
  | ok _ => exact h .failed
  | error e => exact wp_abandon (h .abandoned)

theorem wp_complete {claim : Instant} {e : PublishedEvent} (htried : s.tried = some (e, true))
    (hid : e.id = x.id) (h : ∀ o, Q o s) : (complete x claim).wp p.conduct.asks Q s := by
  refine ⟨⟨e, htried, hid⟩, fun reply _ => ?_⟩
  cases reply with
  | ok _ => exact h .completed
  | error e => exact wp_abandon (h .abandoned)

theorem wp_countFailure {claim : Instant} {reason : String} {e : PublishedEvent}
    (htried : s.tried = some (e, false)) (hid : e.id = x.id)
    (h : ∀ o, Q o { s with tried := none }) :
    (p.countFailure x claim reason).wp p.conduct.asks Q s := by
  refine ⟨⟨rfl, e, htried, hid⟩, fun reply _ => ?_⟩
  match reply with
  | .ok .failed => exact ⟨trivial, fun _ _ => h .failed⟩
  | .ok .pending | .ok .processing | .ok .completed => exact ⟨trivial, fun _ _ => h .retried⟩
  | .error e => exact wp_abandon (h .abandoned)

theorem keeps_deliver (hx : x ∈ s.handed) :
    p.conduct.Keeps (p.deliver x) (fun _ t => t.handed = s.handed) s := by
  unfold deliver
  split
  · exact wp_abandon rfl
  · split
    · rename_i e herror
      exact wp_park hx herror fun _ => rfl
    · rename_i event hdecode
      refine ⟨⟨x, hx, event, hdecode, rfl⟩, fun reply _ => ?_⟩
      cases reply with
      | ok _ => exact wp_complete rfl rfl fun _ => rfl
      | error e => exact wp_countFailure rfl rfl fun _ => rfl

end

theorem keeps_deliverAll (messages : List Message) :
    ∀ r s, (∀ x ∈ messages, x ∈ s.handed) →
      p.conduct.Keeps (p.deliverAll r messages) (fun _ _ => True) s := by
  induction messages with
  | nil => exact fun _ _ _ => trivial
  | cons x rest ih =>
      intro r s hhanded
      refine (congrFun (Program.wp_bind (p.deliver x) _ _) s).mpr ?_
      refine Program.wp_mono Conduct.mono_asks (fun o t ht => ?_) _ s
        (keeps_deliver (hhanded x List.mem_cons_self))
      refine ih _ t fun y hy => ?_
      rw [ht]
      exact hhanded y (List.mem_cons_of_mem _ hy)

/-- Every `cycle` keeps the rules. -/
theorem keeps_cycle (p : Processor) : p.conduct.Keeps p.cycle (fun _ _ => True) {} := by
  refine ⟨trivial, fun now _ => ⟨trivial, fun reply _ => ?_⟩⟩
  cases reply with
  | error e => trivial
  | ok batch =>
      refine (congrFun (Program.wp_bind (p.deliverAll _ batch) _ _) _).mpr ?_
      exact keeps_deliverAll batch _ _ fun _ hx => hx

end Outbox.Processor

/-! ## Errands -/

/-- What a party does: it executes a command, or it carries out one `cycle` of a processor, or it
deletes what was delivered long ago. -/
inductive Errand where
  | call (c : Call)
  | deliver (p : Processor)
  | purge (cutoff : Instant)

namespace Errand

inductive Result where
  | call (r : Except LedgerError Answer)
  | deliver (r : Except Outbox.OutboxError Outbox.Report)
  | purge (r : Except StoreError Nat)

instance : Task Errand Result where
  program
    | .call c => Result.call <$> c.execute.run
    | .deliver p => Result.deliver <$> p.cycle
    | .purge cutoff => Result.purge <$> World.store (.purge cutoff)

def purging (cutoff : Instant) : Conduct World Unit where
  may _ request := request = .store (.purge cutoff)
  hears := World.IsGiven
  moved s _ _ := s

/-- The turns are allowed for the errand, by the `Conduct` of its kind. -/
def Allows : Errand → List (Turn World) → Prop
  | .call c, turns => (Call.conduct c.origin).Allows {} turns
  | .deliver p, turns => p.conduct.Allows {} turns
  | .purge cutoff, turns => (purging cutoff).Allows () turns

variable {errand : Errand} {turns : List (Turn World)} {turn : Turn World}

theorem Allows.earlier {more : List (Turn World)} (h : errand.Allows more) (hpre : turns <+: more) :
    errand.Allows turns := by
  cases errand with
  | call | deliver | purge => exact Conduct.Allows.earlier h hpre

theorem Allows.exists_deliver {now : Instant} {e : Exchange} {v : Store.Verdict}
    (h : errand.Allows (turns ++ [turn])) (he : turn.exchange? now = some e)
    (hv : e.request.verdict? e.now = some v) :
    ∃ p, errand = .deliver p ∧ turn = ⟨.store e.request, e.reply⟩ ∧
      p.may (p.conduct.after {} turns) (.store e.request) := by
  cases errand with
  | call c =>
      have hmay := (Conduct.allows_concat_iff.mp h).2
      rcases Turn.eq_of_exchange? he with rfl | rfl
      · exact absurd (hv.symm.trans (Call.verdict?_of_may hmay)) (by simp)
      · exact absurd (hv.symm.trans (Store.Request.verdict?_of_isLookup hmay.2)) (by simp)
  | deliver p =>
      have hmay := (Conduct.allows_concat_iff.mp h).2
      rcases Turn.eq_of_exchange? he with rfl | rfl
      · exact ⟨p, rfl, rfl, hmay⟩
      · exact hmay.elim
  | purge cutoff =>
      have hpurge : turn.request = .store (.purge cutoff) := (Conduct.allows_concat_iff.mp h).2
      rcases Turn.eq_of_exchange? he with rfl | rfl
      · obtain hq : e.request = .purge cutoff := World.Request.store.inj hpurge
        rw [hq] at hv
        exact absurd hv (by simp [Store.Request.verdict?])
      · exact absurd hpurge (by simp)

theorem Allows.exists_publisher {e : PublishedEvent}
    (h : errand.Allows (turns ++ [turn])) (he : turn.request = .publish e) :
    ∃ p, errand = .deliver p ∧ p.may (p.conduct.after {} turns) (.publish e) := by
  cases errand with
  | call c =>
      have hmay := (Conduct.allows_concat_iff.mp h).2
      rw [he] at hmay
      exact hmay.elim
  | deliver p =>
      have hmay := (Conduct.allows_concat_iff.mp h).2
      rw [he] at hmay
      exact ⟨p, rfl, hmay⟩
  | purge cutoff =>
      have hpurge : turn.request = .store (.purge cutoff) := (Conduct.allows_concat_iff.mp h).2
      exact absurd (he.symm.trans hpurge) (by simp)

end Errand

/-! ## What comes in -/

def Turn.brings : Turn World → List Message
  | ⟨.store q, _⟩ | ⟨.plan q, some _⟩ => q.brings
  | _ => []

theorem Turn.flatMap_brings_exchange? (t : Turn World) (now : Instant) :
    ((t.exchange? now).toList.flatMap fun e => e.request.brings) = t.brings := by
  match t with
  | ⟨.store q, _⟩ | ⟨.plan q, some _⟩ => exact List.flatMap_singleton ..
  | ⟨.plan q, none⟩ => rfl
  | ⟨.stopping, _⟩ | ⟨.clock, _⟩ | ⟨.freshId, _⟩ | ⟨.jitter _, _⟩ | ⟨.pause _, _⟩ | ⟨.timer, _⟩
  | ⟨.waitUntil _, _⟩ | ⟨.publish _, _⟩ | ⟨.log _, _⟩ => rfl

namespace Call

variable {origin : Origin} {s : Progress} {turns : List (Turn World)} {t : Turn World}

theorem brings_of_isLookup {q : Store.Request} {reply : World.Reply (.plan q)}
    (h : q.isLookup = true) : (⟨.plan q, reply⟩ : Turn World).brings = [] := by
  cases reply with
  | none => rfl
  | some r =>
      cases q with
      | commit => exact absurd h (by simp [Store.Request.isLookup])
      | _ => rfl

theorem new_of_may (h : may origin s t.request) : ∀ x ∈ t.brings, x.IsNew := by
  obtain ⟨request, reply⟩ := t
  intro x hx
  cases request with
  | store q =>
      cases q with
      | commit c =>
          obtain ⟨-, _, _, hstaged, -⟩ := h
          obtain ⟨event, id, now, -, rfl⟩ := hstaged.exists_event x hx
          exact ⟨event, origin, id, now, rfl⟩
      | _ => exact absurd hx List.not_mem_nil
  | plan q =>
      rw [brings_of_isLookup h.2] at hx
      exact absurd hx List.not_mem_nil
  | _ => exact absurd hx List.not_mem_nil

/-- What a call writes bears what it has drawn and has not written before. -/
theorem sublist_moved (h : may origin s t.request) :
    (t.brings.map Message.id ++ (moved s t.request t.reply).fresh.reverse).Sublist
      (s.fresh.reverse ++ t.drawn) := by
  obtain ⟨request, reply⟩ := t
  have hsame : ∀ r : Turn World, r.brings = [] →
      (r.brings.map Message.id ++ s.fresh.reverse).Sublist (s.fresh.reverse ++ r.drawn) := by
    intro r hr
    rw [hr]
    exact List.sublist_append_left _ _
  cases request with
  | store q =>
      cases q with
      | commit c =>
          obtain ⟨-, _, ids, hstaged, hfresh⟩ := h
          have hreset : (moved s (.store (.commit c)) reply).fresh = [] := by
            match reply with
            | .ok () => rfl
            | .error e =>
                show Progress.fresh (if e.isVersionConflict then {} else
                  { stage := .reporting c (.error e) 3 }) = []
                split <;> rfl
          have hids : ids.Sublist s.fresh.reverse := by
            have hreverse := hfresh.sublist.reverse
            rwa [List.reverse_reverse] at hreverse
          show (c.outbox.map Message.id ++
            (moved s (.store (.commit c)) reply).fresh.reverse).Sublist _
          rw [hreset, hstaged.map_id, List.reverse_nil, List.append_nil]
          exact hids.trans (List.sublist_append_left _ _)
      | findByKey => exact hsame _ rfl
      | _ => exact h.elim
  | plan q => exact hsame _ (brings_of_isLookup h.2)
  | freshId =>
      show (List.reverse (reply :: s.fresh)).Sublist (s.fresh.reverse ++ [reply])
      rw [List.reverse_cons]
  | _ => exact hsame _ rfl

theorem sublist_after (h : (conduct origin).Allows {} turns) :
    ((turns.flatMap Turn.brings).map Message.id ++
      ((conduct origin).after {} turns).fresh.reverse).Sublist (turns.flatMap Turn.drawn) := by
  induction turns using List.reverseRecOn with
  | nil => exact List.nil_sublist _
  | append_singleton turns t ih =>
      obtain ⟨hbefore, hmay⟩ := Conduct.allows_concat_iff.mp h
      have hmoved := sublist_moved hmay
      rw [List.flatMap_append, List.map_append, List.flatMap_singleton, List.append_assoc,
        Conduct.after_concat, List.flatMap_append, List.flatMap_singleton]
      refine (List.Sublist.append_left hmoved _).trans ?_
      rw [← List.append_assoc]
      exact (ih hbefore).append_right _

end Call

namespace Errand

variable {errand : Errand} {turns : List (Turn World)}

/-- What an errand brings are new messages, with identifiers that it has drawn for them. -/
theorem Allows.brings (h : errand.Allows turns) :
    (∀ x ∈ turns.flatMap Turn.brings, x.IsNew) ∧
      ((turns.flatMap Turn.brings).map Message.id).Sublist (turns.flatMap Turn.drawn) := by
  have hmay : ∀ t ∈ turns, ∃ before, errand.Allows (before ++ [t]) := by
    intro t ht
    obtain ⟨before, after, rfl⟩ := List.append_of_mem ht
    exact ⟨before, h.earlier (by simp)⟩
  have hnothing : (∀ t ∈ turns, t.brings = []) →
      (∀ x ∈ turns.flatMap Turn.brings, x.IsNew) ∧
        ((turns.flatMap Turn.brings).map Message.id).Sublist (turns.flatMap Turn.drawn) := by
    intro h
    rw [List.flatMap_eq_nil_iff.mpr h]
    exact ⟨fun x hx => absurd hx List.not_mem_nil, List.nil_sublist _⟩
  cases errand with
  | call c =>
      refine ⟨fun x hx => ?_, (List.sublist_append_left _ _).trans (Call.sublist_after h)⟩
      obtain ⟨t, ht, hx⟩ := List.mem_flatMap.mp hx
      obtain ⟨before, hbefore⟩ := hmay t ht
      exact Call.new_of_may (Conduct.allows_concat_iff.mp hbefore).2 x hx
  | deliver p =>
      refine hnothing fun t ht => ?_
      obtain ⟨before, hbefore⟩ := hmay t ht
      have hmay := (Conduct.allows_concat_iff.mp hbefore).2
      obtain ⟨request, reply⟩ := t
      cases request with
      | store q =>
          cases q with
          | commit => exact hmay.elim
          | _ => rfl
      | plan q => exact hmay.elim
      | _ => rfl
  | purge cutoff =>
      refine hnothing fun t ht => ?_
      obtain ⟨before, hbefore⟩ := hmay t ht
      obtain ⟨request, reply⟩ := t
      obtain rfl : request = .store (.purge cutoff) := (Conduct.allows_concat_iff.mp hbefore).2
      rfl

end Errand

namespace Interleaving

section

variable {τ α : Type} [Task τ α] {steps : List (Step τ)} {base : Memory}

theorem exists_drawn (hbrings : ∀ place,
      ((((on base : Interleaving τ α).dialogue steps place).flatMap Turn.brings).map
        Message.id).Sublist (((on base).dialogue steps place).flatMap Turn.drawn))
    {u : Utterance} {id : Uuid} (hu : u ∈ (on base : Interleaving τ α).transcript steps)
    (hid : id ∈ u.turn.brings.map Message.id) :
    ∃ v ∈ (on base : Interleaving τ α).transcript steps, v.place = u.place ∧
      id ∈ v.turn.drawn := by
  have hmem : id ∈ (((on base : Interleaving τ α).dialogue steps u.place).flatMap
      Turn.brings).map Message.id := by
    rw [List.map_flatMap]
    exact List.mem_flatMap.mpr ⟨u.turn, mem_dialogue.mpr ⟨u.now, hu⟩, hid⟩
  obtain ⟨t, ht, hid⟩ := List.mem_flatMap.mp ((hbrings u.place).subset hmem)
  obtain ⟨now, ht⟩ := mem_dialogue.mp ht
  exact ⟨⟨u.place, now, t⟩, ht, rfl, hid⟩

theorem nodup_brings_of_dialogues (hbrings : ∀ place,
      ((((on base : Interleaving τ α).dialogue steps place).flatMap Turn.brings).map
        Message.id).Sublist (((on base).dialogue steps place).flatMap Turn.drawn)) :
    (((on base : Interleaving τ α).transcript steps).flatMap fun u =>
      u.turn.brings.map Message.id).Nodup := by
  have hplace : ∀ place, (((on base : Interleaving τ α).transcript steps).filter fun u =>
      u.place = place).flatMap (fun u => u.turn.brings.map Message.id) |>.Nodup := by
    intro place
    have hnodup := (hbrings place).nodup (nodup_drawn_dialogue base steps place)
    rwa [dialogue, List.flatMap_map, List.map_flatMap] at hnodup
  rw [List.nodup_flatMap]
  refine ⟨fun u hu => ?_, pairwise_of_places (fun place => ?_) fun u hu v hv hne => ?_⟩
  · exact (List.nodup_flatMap.mp (hplace u.place)).1 u
      (List.mem_filter.mpr ⟨hu, decide_eq_true rfl⟩)
  · exact (List.nodup_flatMap.mp (hplace place)).2
  · -- what different parties have drawn is different
    intro id hid hid'
    obtain ⟨u', hu', hplace, hid⟩ := exists_drawn hbrings hu hid
    obtain ⟨v', hv', hplace', hid'⟩ := exists_drawn hbrings hv hid'
    exact hne (hplace.symm.trans ((place_eq_of_drawn hu' hv' hid hid').trans hplace'))

end

variable {steps : List (Step Errand)} {place : Nat} {base : Memory}

/-- Every party keeps the rules for its errand. -/
theorem allows_dialogue {q : Party Errand Errand.Result}
    (hq : ((on base).run steps).parties[place]? = some q) :
    q.task.Allows ((on base).dialogue steps place) := by
  have hcall : ∀ c, (Call.conduct (Call.origin c)).Keeps (Task.program (Errand.call c))
      (fun _ _ => True) {} := by
    intro c
    refine (congrFun (Program.wp_map _ _ _) _).mpr ?_
    exact Program.wp_mono Conduct.mono_asks (fun _ _ _ => trivial) _ _ c.keeps_execute
  have hdeliver : ∀ p, (Processor.conduct p).Keeps (Task.program (Errand.deliver p))
      (fun _ _ => True) {} := by
    intro p
    refine (congrFun (Program.wp_map _ _ _) _).mpr ?_
    exact Program.wp_mono Conduct.mono_asks (fun _ _ _ => trivial) _ _ p.keeps_cycle
  have hpurge : ∀ cutoff, (Errand.purging cutoff).Keeps (Task.program (Errand.purge cutoff))
      (fun _ _ => True) () := fun cutoff => ⟨rfl, fun _ _ => trivial⟩
  cases htask : q.task with
  | call c => exact (keeps_run hq (htask ▸ hcall c) fun _ _ h => h).1
  | deliver p => exact (keeps_run hq (htask ▸ hdeliver p) fun _ _ h => h).1
  | purge cutoff => exact (keeps_run hq (htask ▸ hpurge cutoff) fun _ _ h => h).1

/-- A turn of the transcript was allowed for the errand of its party. -/
theorem exists_allows {u : Utterance}
    (hu : u ∈ (on base : Interleaving Errand Errand.Result).transcript steps) :
    ∃ q before, ((on base).run steps).parties[u.place]? = some q ∧
      before ++ [u.turn] <+: (on base).dialogue steps u.place ∧
      q.task.Allows (before ++ [u.turn]) := by
  obtain ⟨q, hq⟩ := exists_party_of_mem_transcript hu
  obtain ⟨before, after, hsplit⟩ := List.append_of_mem (mem_dialogue.mpr ⟨u.now, hu⟩)
  have hpre : before ++ [u.turn] <+: (on base).dialogue steps u.place := by
    rw [hsplit]
    simp
  exact ⟨q, before, hq, hpre, (allows_dialogue hq).earlier hpre⟩

theorem flatMap_brings_exchanges (s : Interleaving Errand Errand.Result) :
    (((s.exchanges steps).map Exchange.visit).flatMap fun v => v.request.brings) =
      (s.transcript steps).flatMap fun u => u.turn.brings := by
  rw [List.flatMap_map, exchanges]
  induction s.transcript steps with
  | nil => rfl
  | cons u l ih =>
      rw [List.flatMap_cons, ← ih, ← u.turn.flatMap_brings_exchange? u.now, List.filterMap_cons]
      show _ = (u.exchange?.toList.flatMap fun e => e.request.brings) ++ _
      cases u.exchange? <;> simp [Exchange.visit]

theorem brings_dialogue (steps : List (Step Errand)) (place : Nat) :
    (∀ x ∈ ((on base).dialogue steps place).flatMap Turn.brings, x.IsNew) ∧
      ((((on base).dialogue steps place).flatMap Turn.brings).map Message.id).Sublist
        (((on base).dialogue steps place).flatMap Turn.drawn) := by
  cases hq : ((on base).run steps).parties[place]? with
  | none =>
      rw [dialogue_eq_nil hq]
      exact ⟨fun x hx => absurd hx List.not_mem_nil, List.Sublist.refl _⟩
  | some q => exact (allows_dialogue hq).brings

theorem nodup_brings (base : Memory) (steps : List (Step Errand)) :
    (((on base).transcript steps).flatMap fun u => u.turn.brings.map Message.id).Nodup :=
  nodup_brings_of_dialogues fun place => (brings_dialogue steps place).2

/-- A store on which nothing had happened `Receives` new messages only, with identifiers that
nothing else has. -/
theorem receives_exchanges (steps : List (Step Errand)) :
    Memory.empty.Receives (((on .empty).exchanges steps).map Exchange.visit) := by
  constructor
  case new =>
    intro v hv x hx
    have hx : x ∈ ((on .empty).transcript steps).flatMap fun u => u.turn.brings := by
      rw [← flatMap_brings_exchanges]
      exact List.mem_flatMap.mpr ⟨v, hv, hx⟩
    obtain ⟨u, hu, hx⟩ := List.mem_flatMap.mp hx
    exact (brings_dialogue steps u.place).1 x
      (List.mem_flatMap.mpr ⟨u.turn, mem_dialogue.mpr ⟨u.now, hu⟩, hx⟩)
  case distinct =>
    show ((((on .empty).exchanges steps).map Exchange.visit).flatMap fun v =>
      v.request.brings).map Message.id |>.Nodup
    rw [flatMap_brings_exchanges, List.map_flatMap]
    exact nodup_brings .empty steps

end Interleaving

end BalanceLedger
