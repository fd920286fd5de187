/-
# `Proofs.Fanout` — every subscriber is reached

A publisher inside the process hands an event to the subscribers that want it, one after
the other, and it fails with the first that fails.  What has been handed over by then is
not taken back: the same event comes again with the next attempt.  `FansOut` is what one
publication says, and `converses_dispatch_iff` that `dispatch` says exactly that.

To a processor, publishing is one request.  Here it is taken apart: a party whose
request is to publish waits until its publisher is done, and between any two subscribers
anything can happen elsewhere, on the store or with other publishers.  That is a
`Broadcast`.  Subscribers reply what they like.

The steps on the store, each publication taken as one, are an interleaving as before, so
what is known of verdicts is known here.  It remains to say what a publication that
succeeded stands for: that each subscriber that wants the event has taken it.
`Accounted` is the invariant for that.  It has one lemma for each kind of step, a
publication that begins, a subscriber that replies, a publication that is over, and
everything else.

`events_reach_subscribers` has both parts, with `Reaches` for the second.  Which event a
message stands for is decided by the registry of the cycle that publishes it, whatever
its decoders are.
-/
import BalanceLedger.Proofs.Verdicts
import Mathlib.Logic.Function.Basic

namespace BalanceLedger

open Outbox (Delivery Message Processor PublishError PublishedEvent Subscriber dispatch dispatchFrom)
open Store (Memory)

/-! ## One event -/

namespace Outbox

def interested (subscribers : List Subscriber) (event : PublishedEvent) :
    List (Subscriber × Nat) :=
  subscribers.zipIdx.filter fun p => p.1.wants event

/-- Of the chosen subscribers, all are handed the event and take it; or those up to the first that
fails are, and what it fails with is what the publisher answers. -/
inductive FansOut (event : PublishedEvent) (chosen : List (Subscriber × Nat)) :
    List (Turn Delivery) → Except PublishError Unit → Prop
  | all : FansOut event chosen (chosen.map fun p => ⟨(p.2, event), .ok ()⟩) (.ok ())
  | upTo {before after : List (Subscriber × Nat)} {p : Subscriber × Nat} (reason : String) :
      chosen = before ++ p :: after →
      FansOut event chosen
        (before.map (fun q => ⟨(q.2, event), .ok ()⟩) ++ [⟨(p.2, event), .error reason⟩])
        (.error (.subscriber p.1.name reason))

variable {event : PublishedEvent} {chosen : List (Subscriber × Nat)} {turns : List (Turn Delivery)}
  {r : Except PublishError Unit}

theorem FansOut.request (h : FansOut event chosen turns r) {t : Turn Delivery} (ht : t ∈ turns) :
    ∃ p ∈ chosen, t.request = (p.2, event) := by
  cases h with
  | all =>
      obtain ⟨p, hp, rfl⟩ := List.mem_map.mp ht
      exact ⟨p, hp, rfl⟩
  | upTo reason hchosen =>
      rename_i before after p
      rw [hchosen]
      rcases List.mem_append.mp ht with ht | ht
      · obtain ⟨q, hq, rfl⟩ := List.mem_map.mp ht
        exact ⟨q, List.mem_append_left _ hq, rfl⟩
      · rw [List.mem_singleton.mp ht]
        exact ⟨p, by simp, rfl⟩

theorem FansOut.taken (h : FansOut event chosen turns (.ok ())) {p : Subscriber × Nat}
    (hp : p ∈ chosen) : ⟨(p.2, event), .ok ()⟩ ∈ turns := by
  cases h with
  | all => exact List.mem_map.mpr ⟨p, hp, rfl⟩

theorem fansOut_nil_iff : FansOut event [] turns r ↔ turns = [] ∧ r = .ok () := by
  constructor
  · intro h
    cases h with
    | all => exact ⟨rfl, rfl⟩
    | upTo reason hchosen => exact absurd hchosen (by simp)
  · rintro ⟨rfl, rfl⟩
    exact .all

theorem fansOut_cons_iff {p : Subscriber × Nat} :
    FansOut event (p :: chosen) turns r ↔
      (∃ rest, turns = ⟨(p.2, event), .ok ()⟩ :: rest ∧ FansOut event chosen rest r) ∨
        ∃ reason, turns = [⟨(p.2, event), .error reason⟩] ∧
          r = .error (.subscriber p.1.name reason) := by
  constructor
  · intro h
    cases h with
    | all => exact .inl ⟨_, rfl, .all⟩
    | upTo reason hchosen =>
        rename_i before after q
        cases before with
        | nil =>
            obtain ⟨rfl, -⟩ := List.cons.inj hchosen
            exact .inr ⟨reason, rfl, rfl⟩
        | cons first before =>
            obtain ⟨rfl, rfl⟩ := List.cons.inj hchosen
            exact .inl ⟨_, rfl, .upTo reason rfl⟩
  · rintro (⟨rest, rfl, h⟩ | ⟨reason, rfl, rfl⟩)
    · cases h with
      | all => exact .all
      | upTo reason hchosen =>
          rename_i before after q
          subst hchosen
          exact @FansOut.upTo event _ (p :: before) after q reason rfl
    · exact @FansOut.upTo event _ [] chosen p reason rfl

theorem converses_dispatchFrom_iff {subscribers : List Subscriber} {place : Nat} :
    (dispatchFrom event place subscribers).Converses turns (.done r) ↔
      FansOut event ((subscribers.zipIdx place).filter fun p => p.1.wants event) turns r := by
  induction subscribers generalizing place turns with
  | nil =>
      rw [List.zipIdx_nil, List.filter_nil, fansOut_nil_iff]
      exact Program.converses_done_iff
  | cons s rest ih =>
      rw [List.zipIdx_cons]
      by_cases hwants : s.wants event = true
      · rw [List.filter_cons_of_pos (by exact hwants), fansOut_cons_iff]
        -- the program asks this subscriber first
        obtain ⟨next, hnext, hok, herror⟩ : ∃ next, dispatchFrom event place (s :: rest) =
              .ask (I := Delivery) (place, event) next ∧
            next (.ok ()) = dispatchFrom event (place + 1) rest ∧
            ∀ reason, next (.error reason) = .done (.error (.subscriber s.name reason)) := by
          refine ⟨_, by rw [dispatchFrom, if_pos hwants]; rfl, rfl, fun _ => rfl⟩
        rw [hnext]
        constructor
        · intro h
          rcases h.cases_head with ⟨-, hdone⟩ | ⟨_, _, reply, turns, hask, rfl, hrest⟩
          · exact absurd hdone (by simp)
          · obtain ⟨rfl, hsame⟩ := Program.ask.inj hask
            obtain rfl := eq_of_heq hsame
            cases reply with
            | ok _ => exact .inl ⟨turns, rfl, ih.mp (hok ▸ hrest)⟩
            | error reason =>
                rw [herror] at hrest
                obtain ⟨rfl, rfl⟩ := Program.converses_done_iff.mp hrest
                exact .inr ⟨reason, rfl, rfl⟩
        · rintro (⟨turns, rfl, h⟩ | ⟨reason, rfl, rfl⟩)
          · exact .cons (by rw [hok]; exact ih.mpr h)
          · exact .cons (by rw [herror]; exact .nil _)
      · rw [List.filter_cons_of_neg (by exact hwants), dispatchFrom, if_neg hwants]
        exact ih

/-- A publisher has said all that it will exactly if the event `FansOut` to those that want it, up
to the first that failed. -/
theorem converses_dispatch_iff {subscribers : List Subscriber} :
    (dispatch subscribers event).Converses turns (.done r) ↔
      FansOut event (interested subscribers event) turns r :=
  converses_dispatchFrom_iff

theorem mem_interested_iff {subscribers : List Subscriber} {s : Subscriber} {n : Nat} :
    (s, n) ∈ interested subscribers event ↔ subscribers[n]? = some s ∧ s.wants event = true := by
  rw [interested, List.mem_filter, List.mem_zipIdx_iff_getElem?]

theorem request_of_converses {subscribers : List Subscriber} {request : Nat × PublishedEvent}
    {next : Except String Unit → Program Delivery (Except PublishError Unit)}
    (h : (dispatch subscribers event).Converses turns (.ask request next)) :
    ∃ p ∈ interested subscribers event, request = (p.2, event) := by
  -- the conversation goes on with a turn for this request, and it comes to an end
  have hturn := Program.Converses.concat (Except.ok () : Except String Unit) h
  obtain ⟨more, -, hmore⟩ :=
    (next (.ok ())).converses_converse (fun _ _ => (Except.ok () : Except String Unit)) []
  have hall := converses_dispatch_iff.mp (hturn.trans hmore)
  have hmem : (⟨request, (Except.ok () : Except String Unit)⟩ : Turn Delivery) ∈
      turns ++ [⟨request, (Except.ok () : Except String Unit)⟩] ++ more := by simp
  exact hall.request hmem

end Outbox

/-! ## Publishers among parties -/

/-- The event that the party at a place waits to be published: its next request is to `.publish` it.
-/
def Interleaving.publishing? {τ α : Type} (s : Interleaving τ α) (place : Nat) :
    Option PublishedEvent :=
  match s.parties[place]?.map Party.rest with
  | some (.ask (.publish event) _) => some event
  | _ => none

theorem Interleaving.publishing?_eq_some_iff {τ α : Type} {s : Interleaving τ α} {place : Nat}
    {event : PublishedEvent} : s.publishing? place = some event ↔
      ∃ p next, s.parties[place]? = some p ∧ p.rest = .ask (.publish event) next := by
  constructor
  · intro h
    unfold publishing? at h
    split at h
    · rename_i next hrest
      obtain rfl := Option.some.inj h
      obtain ⟨p, hp, hrest⟩ := Option.map_eq_some_iff.mp hrest
      exact ⟨p, next, hp, hrest⟩
    · exact absurd h (by simp)
  · rintro ⟨p, next, hp, hrest⟩
    rw [publishing?, hp, Option.map_some, hrest]

/-- An interleaving in which publishing goes from subscriber to subscriber. -/
structure Broadcast where
  /-- The steps on the store so far, each publication taken as the step in which it is over. -/
  steps : List (Interleaving.Step Errand) := []
  /-- What is left of the publications that are under way, by the places of the parties that wait. -/
  underway : Nat → Option (Program Delivery (Except PublishError Unit)) := fun _ => none
  /-- What subscribers have been handed and what they replied, with the place of the party that
  published. -/
  handed : List (Nat × Turn Delivery) := []

namespace Broadcast

inductive Step where
  /-- A step on the store, or the beginning or the end of a publication. -/
  | world (x : Interleaving.Step Errand)
  /-- The subscriber that has been handed the event of the party at a place replies. -/
  | reply (place : Nat) (reply : Except String Unit)

def floor (b : Broadcast) : Interleaving Errand Errand.Result :=
  (Interleaving.on .empty).run b.steps

/-- The broadcast after a step, where the parties have publishers with these subscribers.  A
`.publish` of a party is not answered by the step itself. -/
def step (subscribers : Nat → List Subscriber) (b : Broadcast) : Step → Broadcast
  | .world (.act place w) =>
    match b.floor.publishing? place, b.underway place with
    | none, _ => { b with steps := b.steps ++ [.act place w] }
    | some event, none =>
      { b with
        underway := Function.update b.underway place (some (dispatch (subscribers place) event)) }
    | some _, some (.done published) =>
      { b with
        steps := b.steps ++ [.act place { w with published }]
        underway := Function.update b.underway place none }
    | some _, some (.ask ..) => b
  | .world x => { b with steps := b.steps ++ [x] }
  | .reply place reply =>
    match b.underway place with
    | some (.ask request next) =>
      { b with
        underway := Function.update b.underway place (some (next reply))
        handed := b.handed ++ [(place, ⟨request, reply⟩)] }
    | _ => b

def run (subscribers : Nat → List Subscriber) (b : Broadcast) (steps : List Step) : Broadcast :=
  steps.foldl (step subscribers) b

end Broadcast

namespace Interleaving

variable {steps : List (Step Errand)} {place : Nat} {event : PublishedEvent}

def HandsOut (steps : List (Step Errand)) (place : Nat) (x : Message) : Prop :=
  ∃ batch staleBefore messages,
    ⟨.store (.claim batch staleBefore), .ok messages⟩ ∈ (on .empty).dialogue steps place ∧
      x ∈ messages

def HasRead (steps : List (Step Errand)) (place : Nat) (event : PublishedEvent) : Prop :=
  ∃ p x payload, ((on .empty).run steps).IsCycleOf place p ∧ HandsOut steps place x ∧
    p.registry.decode x.eventType x.payload = .ok payload ∧ event = .ofMessage x payload

theorem HandsOut.later {x : Message} (h : HandsOut steps place x) (more : List (Step Errand)) :
    HandsOut (steps ++ more) place x := by
  obtain ⟨batch, staleBefore, messages, hclaim, hx⟩ := h
  refine ⟨batch, staleBefore, messages, ?_, hx⟩
  rw [dialogue_append]
  exact List.mem_append_left _ hclaim

theorem HasRead.later (h : HasRead steps place event) (more : List (Step Errand)) :
    HasRead (steps ++ more) place event := by
  obtain ⟨p, x, payload, ⟨q, hq, htask⟩, hx, hdecode, rfl⟩ := h
  obtain ⟨q', hq', hgoes⟩ := exists_goesOn_run hq more
  rw [← run_append] at hq'
  exact ⟨p, x, payload, ⟨q', hq', hgoes.task.trans htask⟩, hx.later more, hdecode, rfl⟩

theorem publishes_of_publishing? (h : ((on .empty).run steps).publishing? place = some event)
    (w : Moment) :
    ((on .empty).run steps).heard? (.act place w) =
      some ⟨place, w.now, ⟨.publish event, w.published⟩⟩ := by
  obtain ⟨p, next, hp, hrest⟩ := publishing?_eq_some_iff.mp h
  exact (act_of_drawn_eq_nil hp hrest rfl).1

theorem hasRead_of_publishing? (h : ((on .empty).run steps).publishing? place = some event) :
    HasRead steps place event := by
  obtain ⟨q, next, hq, -⟩ := publishing?_eq_some_iff.mp h
  -- the rules allow the turn that would come next
  let w : Moment := { now := .epoch }
  obtain ⟨q', hq', hgoes⟩ := exists_goesOn_step hq (.act place w)
  rw [← run_concat] at hq'
  have hallows := allows_dialogue hq'
  rw [dialogue_append, dialogue_singleton (publishes_of_publishing? h w), if_pos rfl] at hallows
  obtain ⟨p, hp, x, hx, payload, hdecode, rfl⟩ := hallows.exists_publisher rfl
  exact ⟨p, x, payload, ⟨q, hq, hgoes.task.symm.trans hp⟩,
    Processor.exists_claim_of_mem_handed hx, hdecode, rfl⟩

theorem sameContent_of_handsOut {place' : Nat} {x y : Message} (hx : HandsOut steps place x)
    (hy : HandsOut steps place' y) (hid : x.id = y.id) : x.SameContent y := by
  have hbrought : ∀ {n z}, HandsOut steps n z → ∃ z' ∈ (Service.run { memory := .empty }
      (((on .empty).exchanges steps).map Exchange.visit)).brought, z.SameContent z' := by
    rintro n z ⟨batch, staleBefore, messages, hclaim, hz⟩
    obtain ⟨now, hu⟩ := mem_dialogue.mp hclaim
    have hu : _ ∈ ((on .empty).run []).transcript steps := hu
    obtain ⟨before, z', hpre, hz', -, hsame⟩ := exists_of_handed hu rfl hz
    obtain ⟨z'', hz'', hsame'⟩ := exists_brought hpre hz'
    exact ⟨z'', hz'', hsame.trans hsame'⟩
  exact Service.sameContent_of_id_eq (receives_exchanges steps) (hbrought hx) (hbrought hy) hid

/-- A party waits until it is answered itself. -/
theorem publishing?_step {x : Step Errand} (hx : x.isAct place = false)
    {s : Interleaving Errand Errand.Result} (h : s.publishing? place = some event) :
    (s.step x).publishing? place = some event := by
  obtain ⟨p, next, hp, hrest⟩ := publishing?_eq_some_iff.mp h
  obtain ⟨q, hq, -⟩ := exists_goesOn_step hp x
  rcases hears_step hq with ⟨p', hp', hears⟩ | ⟨hnone, -⟩
  · obtain rfl := Option.some.inj (hp.symm.trans hp')
    have hconverse := hears.converse
    rw [dialogue_singleton_of_not_isAct hx] at hconverse
    rcases hconverse.cases_head with ⟨-, hsame⟩ | ⟨_, _, _, _, -, hturns, -⟩
    · exact publishing?_eq_some_iff.mpr ⟨q, next, hq, hsame.trans hrest⟩
    · exact absurd hturns (by simp)
  · exact absurd (hp.symm.trans hnone) (by simp)

end Interleaving

namespace Broadcast

variable {subscribers : Nat → List Subscriber} {b : Broadcast}

/-- Every publication is accounted for by what subscribers have been handed. -/
structure Accounted (subscribers : Nat → List Subscriber) (b : Broadcast) : Prop where
  underway : ∀ place rest, b.underway place = some rest → ∃ event turns,
    b.floor.publishing? place = some event ∧
      (dispatch (subscribers place) event).Converses turns rest ∧ ∀ t ∈ turns, (place, t) ∈ b.handed
  closed : ∀ place now event published,
    ⟨place, now, ⟨.publish event, published⟩⟩ ∈ (Interleaving.on .empty).transcript b.steps →
    ∃ turns, (dispatch (subscribers place) event).Converses turns (.done published) ∧
      ∀ t ∈ turns, (place, t) ∈ b.handed
  wanted : ∀ place t, (place, t) ∈ b.handed →
    Interleaving.HasRead b.steps place t.request.2 ∧
      ∃ p ∈ Outbox.interested (subscribers place) t.request.2, t.request.1 = p.2

theorem Accounted.quiet (h : b.Accounted subscribers) {x : Interleaving.Step Errand}
    (hwaits : ∀ place, x.isAct place = true → b.floor.publishing? place = none) :
    ({ b with steps := b.steps ++ [x] } : Broadcast).Accounted subscribers := by
  have hfloor : ({ b with steps := b.steps ++ [x] } : Broadcast).floor = b.floor.step x :=
    Interleaving.run_concat ..
  refine ⟨fun place rest hrest => ?_, fun place now event published hu => ?_, fun place t ht => ?_⟩
  · obtain ⟨event, turns, hevent, hconverse, hturns⟩ := h.underway place rest hrest
    refine ⟨event, turns, ?_, hconverse, hturns⟩
    rw [hfloor]
    refine Interleaving.publishing?_step (Bool.eq_false_iff.mpr fun hx => ?_) hevent
    exact absurd (hevent.symm.trans (hwaits place hx)) (by simp)
  · rw [Interleaving.transcript_concat] at hu
    rcases List.mem_append.mp hu with hu | hu
    · exact h.closed place now event published hu
    · -- nobody publishes at this step
      cases x with
      | act n w =>
          rcases b.floor.act_heard n w with ⟨hnone, -⟩ | ⟨p, request, next, hp, hrest, -, hsome, -⟩
          · exact absurd (hnone.symm.trans (Option.mem_toList.mp hu)) (by simp)
          · obtain ⟨rfl, -, hturn⟩ := Utterance.mk.inj
              (Option.some.inj (hsome.symm.trans (Option.mem_toList.mp hu)))
            obtain ⟨rfl, -⟩ := Turn.mk.inj hturn
            have hevent := Interleaving.publishing?_eq_some_iff.mpr ⟨p, next, hp, hrest⟩
            exact absurd (hevent.symm.trans (hwaits n (decide_eq_true rfl))) (by simp)
      | _ => exact absurd hu (by simp [Interleaving.heard?])
  · exact (h.wanted place t ht).imp (fun hread => hread.later [x]) id

theorem Accounted.begin (h : b.Accounted subscribers) {place : Nat} {event : PublishedEvent}
    (hevent : b.floor.publishing? place = some event) :
    ({ b with
      underway := Function.update b.underway place
        (some (dispatch (subscribers place) event)) } : Broadcast).Accounted subscribers := by
  refine ⟨fun n rest hrest => ?_, h.closed, h.wanted⟩
  by_cases hn : n = place
  · subst hn
    obtain rfl := Option.some.inj ((Function.update_self n _ b.underway).symm.trans hrest)
    exact ⟨event, [], hevent, .nil _, fun t ht => absurd ht List.not_mem_nil⟩
  · exact h.underway n rest ((Function.update_of_ne hn _ b.underway).symm.trans hrest)

theorem Accounted.handOver (h : b.Accounted subscribers) {place : Nat}
    {request : Nat × PublishedEvent}
    {next : Except String Unit → Program Delivery (Except PublishError Unit)}
    (hrest : b.underway place = some (.ask request next)) (reply : Except String Unit) :
    ({ b with
      underway := Function.update b.underway place (some (next reply))
      handed := b.handed ++ [(place, ⟨request, reply⟩)] } : Broadcast).Accounted subscribers := by
  obtain ⟨event, turns, hevent, hconverse, hturns⟩ := h.underway place _ hrest
  refine ⟨fun n rest hn => ?_, fun n now e published hu => ?_, fun n t ht => ?_⟩
  · by_cases hplace : n = place
    · subst hplace
      obtain rfl := Option.some.inj ((Function.update_self n _ b.underway).symm.trans hn)
      refine ⟨event, turns ++ [⟨request, reply⟩], hevent, hconverse.concat reply, fun t ht => ?_⟩
      rcases List.mem_append.mp ht with ht | ht
      · exact List.mem_append_left _ (hturns t ht)
      · rw [List.mem_singleton.mp ht]
        exact List.mem_append_right _ (List.mem_singleton.mpr rfl)
    · obtain ⟨e, before, he, hbefore, hmem⟩ :=
        h.underway n rest ((Function.update_of_ne hplace _ b.underway).symm.trans hn)
      exact ⟨e, before, he, hbefore, fun t ht => List.mem_append_left _ (hmem t ht)⟩
  · obtain ⟨all, hall, hmem⟩ := h.closed n now e published hu
    exact ⟨all, hall, fun t ht => List.mem_append_left _ (hmem t ht)⟩
  · rcases List.mem_append.mp ht with ht | ht
    · exact h.wanted n t ht
    · obtain ⟨rfl, rfl⟩ := Prod.mk.inj (List.mem_singleton.mp ht)
      obtain ⟨p, hp, rfl⟩ := Outbox.request_of_converses hconverse
      exact ⟨Interleaving.hasRead_of_publishing? hevent, p, hp, rfl⟩

theorem Accounted.finish (h : b.Accounted subscribers) {place : Nat} {event : PublishedEvent}
    {published : Except PublishError Unit} (hevent : b.floor.publishing? place = some event)
    (hrest : b.underway place = some (.done published)) (w : Moment) :
    ({ b with
      steps := b.steps ++ [.act place { w with published }]
      underway := Function.update b.underway place none } : Broadcast).Accounted subscribers := by
  obtain ⟨event', turns, hevent', hconverse, hturns⟩ := h.underway place _ hrest
  obtain rfl := Option.some.inj (hevent.symm.trans hevent')
  refine ⟨fun n rest hn => ?_, fun n now e result hu => ?_, fun n t ht => ?_⟩
  · by_cases hplace : n = place
    · subst hplace
      exact absurd ((Function.update_self n _ b.underway).symm.trans hn) (by simp)
    · obtain ⟨e, before, he, hbefore, hmem⟩ :=
        h.underway n rest ((Function.update_of_ne hplace _ b.underway).symm.trans hn)
      refine ⟨e, before, ?_, hbefore, hmem⟩
      rw [floor, Interleaving.run_concat]
      refine Interleaving.publishing?_step ?_ he
      exact decide_eq_false (Ne.symm hplace)
  · rw [Interleaving.transcript_concat] at hu
    rcases List.mem_append.mp hu with hu | hu
    · exact h.closed n now e result hu
    · have hheard := Interleaving.publishes_of_publishing? hevent { w with published }
      obtain ⟨rfl, -, hturn⟩ := Utterance.mk.inj
        (Option.some.inj (hheard.symm.trans (Option.mem_toList.mp hu)))
      obtain ⟨hrequest, hreply⟩ := Turn.mk.inj hturn
      obtain rfl := World.Request.publish.inj hrequest
      obtain rfl := eq_of_heq hreply
      exact ⟨turns, hconverse, hturns⟩
  · exact (h.wanted n t ht).imp (fun hread => hread.later _) id

theorem accounted_step (h : b.Accounted subscribers) (x : Step) :
    (b.step subscribers x).Accounted subscribers := by
  cases x with
  | world x =>
      cases x with
      | act place w =>
          cases hevent : b.floor.publishing? place with
          | none =>
              have hstep : b.step subscribers (.world (.act place w)) =
                  { b with steps := b.steps ++ [.act place w] } := by simp [step, hevent]
              rw [hstep]
              refine h.quiet fun n hn => ?_
              rwa [← of_decide_eq_true hn]
          | some event =>
              cases hrest : b.underway place with
              | none =>
                  have hstep : b.step subscribers (.world (.act place w)) = { b with
                      underway := Function.update b.underway place
                        (some (dispatch (subscribers place) event)) } := by
                    simp [step, hevent, hrest]
                  rw [hstep]
                  exact h.begin hevent
              | some rest =>
                  cases rest with
                  | done published =>
                      have hstep : b.step subscribers (.world (.act place w)) = { b with
                          steps := b.steps ++ [.act place { w with published }]
                          underway := Function.update b.underway place none } := by
                        simp [step, hevent, hrest]
                      rw [hstep]
                      exact h.finish hevent hrest w
                  | ask request next =>
                      have hstep : b.step subscribers (.world (.act place w)) = b := by
                        simp [step, hevent, hrest]
                      rwa [hstep]
      | start errand => exact h.quiet fun n hn => absurd hn (by simp [Interleaving.Step.isAct])
      | stop place => exact h.quiet fun n hn => absurd hn (by simp [Interleaving.Step.isAct])
  | reply place reply =>
      cases hrest : b.underway place with
      | none =>
          have hstep : b.step subscribers (.reply place reply) = b := by simp [step, hrest]
          rwa [hstep]
      | some rest =>
          cases rest with
          | done published =>
              have hstep : b.step subscribers (.reply place reply) = b := by simp [step, hrest]
              rwa [hstep]
          | ask request next =>
              have hstep : b.step subscribers (.reply place reply) = { b with
                  underway := Function.update b.underway place (some (next reply))
                  handed := b.handed ++ [(place, ⟨request, reply⟩)] } := by simp [step, hrest]
              rw [hstep]
              exact h.handOver hrest reply

theorem accounted_run (steps : List Step) : (run subscribers {} steps).Accounted subscribers := by
  induction steps using List.reverseRecOn with
  | nil =>
      refine ⟨fun _ _ h => absurd h (by simp [run]), fun _ _ _ _ h => ?_, fun _ _ h => ?_⟩
      · exact absurd h List.not_mem_nil
      · exact absurd h List.not_mem_nil
  | append_singleton steps x ih =>
      rw [run, List.foldl_append]
      exact accounted_step ih x

/-- Every subscriber is reached, and only with what could be read. -/
structure Reaches (subscribers : Nat → List Subscriber) (b : Broadcast) : Prop where
  /-- Whoever has completed a message has published it before, as its own registry reads it, and all
  subscribers of its publisher that want the event have taken it. -/
  completed : ∀ x ∈ b.floor.memory.outbox, x.status = .completed → ∃ place stamp event,
    b.floor.eventAt? place x = some event ∧
      [⟨.publish event, .ok ()⟩, ⟨.store (.complete x.id stamp), .ok ()⟩].Sublist
        ((Interleaving.on .empty).dialogue b.steps place) ∧
      ∀ n s, (subscribers place)[n]? = some s → s.wants event = true →
        (place, ⟨(n, event), .ok ()⟩) ∈ b.handed
  /-- What a subscriber is handed, it wants, and the cycle that publishes it has read it. -/
  wanted : ∀ place t, (place, t) ∈ b.handed → Interleaving.HasRead b.steps place t.request.2 ∧
    ∃ s, (subscribers place)[t.request.1]? = some s ∧ s.wants t.request.2 = true
  /-- Nobody is handed anything for a message that the processor cannot read. -/
  unread : ∀ place p x error, b.floor.IsCycleOf place p → Interleaving.HandsOut b.steps place x →
    p.registry.decode x.eventType x.payload = .error error →
    ∀ t, (place, t) ∈ b.handed → t.request.2.id ≠ x.id

theorem Accounted.completed (h : b.Accounted subscribers) {x : Message}
    (hx : x ∈ b.floor.memory.outbox) (hcompleted : x.status = .completed) :
    ∃ place stamp event, b.floor.eventAt? place x = some event ∧
      [⟨.publish event, .ok ()⟩, ⟨.store (.complete x.id stamp), .ok ()⟩].Sublist
        ((Interleaving.on .empty).dialogue b.steps place) ∧
      ∀ n s, (subscribers place)[n]? = some s → s.wants event = true →
        (place, ⟨(n, event), .ok ()⟩) ∈ b.handed := by
  obtain ⟨place, stamp, event, hevent, hturns⟩ := Interleaving.completed_on hx hcompleted
  refine ⟨place, stamp, event, hevent, hturns, fun n s hs hwants => ?_⟩
  obtain ⟨now, hu⟩ := Interleaving.mem_dialogue.mp (hturns.subset List.mem_cons_self)
  obtain ⟨turns, hconverse, hmem⟩ := h.closed place now event (.ok ()) hu
  exact hmem _ ((Outbox.converses_dispatch_iff.mp hconverse).taken
    (Outbox.mem_interested_iff.mpr ⟨hs, hwants⟩))

theorem Accounted.unread (h : b.Accounted subscribers) {place : Nat} {p : Processor} {x : Message}
    {error : Outbox.OutboxError} (hp : b.floor.IsCycleOf place p)
    (hx : Interleaving.HandsOut b.steps place x)
    (hdecode : p.registry.decode x.eventType x.payload = .error error) {t : Turn Delivery}
    (ht : (place, t) ∈ b.handed) : t.request.2.id ≠ x.id := by
  intro hid
  obtain ⟨⟨p', y, payload, hp', hy, hread, hevent⟩, -⟩ := h.wanted place t ht
  obtain ⟨q, hq, htask⟩ := hp
  obtain ⟨q', hq', htask'⟩ := hp'
  obtain rfl := Option.some.inj (hq.symm.trans hq')
  obtain rfl := Errand.deliver.inj (htask.symm.trans htask')
  rw [hevent] at hid
  have hsame := Interleaving.sameContent_of_handsOut hy hx hid
  rw [hsame.eventType, hsame.payload, hdecode] at hread
  exact absurd hread (by simp)

theorem Accounted.reaches (h : b.Accounted subscribers) : b.Reaches subscribers where
  completed _ hx hcompleted := h.completed hx hcompleted
  wanted place t ht := by
    obtain ⟨hread, ⟨s, n⟩, hs, hn⟩ := h.wanted place t ht
    obtain ⟨hs, hwants⟩ := Outbox.mem_interested_iff.mp hs
    exact ⟨hread, s, hn ▸ hs, hwants⟩
  unread _ _ _ _ hp hx hdecode _ ht := h.unread hp hx hdecode ht

end Broadcast

/-- A publisher hands an event to the subscribers that want it, in the order of their registration
and up to the first that fails, whatever they reply.  Callers, purges and the cycles of any
processors, each with any such publisher, work on a store on which nothing had happened: whatever is
completed, every subscriber of the publisher has taken, and nothing is handed to anybody that could
not be read. -/
theorem events_reach_subscribers (subscribers : Nat → List Subscriber) :
    (∀ registered event turns result,
      (dispatch registered event).Converses turns (.done result) ↔
        Outbox.FansOut event (Outbox.interested registered event) turns result) ∧
      (∀ registered event replies, Outbox.FansOut event (Outbox.interested registered event)
        ((dispatch registered event).converse replies []).1
        ((dispatch registered event).converse replies []).2) ∧
      ∀ steps, (Broadcast.run subscribers {} steps).Reaches subscribers := by
  refine ⟨fun _ _ _ _ => Outbox.converses_dispatch_iff, fun registered event replies => ?_,
    fun steps => (Broadcast.accounted_run steps).reaches⟩
  obtain ⟨turns, hturns, hconverse⟩ := (dispatch registered event).converses_converse replies []
  rw [hturns, List.nil_append]
  exact Outbox.converses_dispatch_iff.mp hconverse

/-- One credit, and a cycle that publishes its two messages to two subscribers.  The first subscriber
wants the first message only, which the second one refuses to take; so the message comes again, to
both of them, with the next cycle. -/
def halfDelivered : List Broadcast.Step :=
  let act (place n : Nat) : Broadcast.Step :=
    .world (.act place { now := .epoch, id := ⟨BitVec.ofNat 128 n⟩ })
  .world (.start (.call { command := .post (.credit .nil "MAD" 100 "in") })) ::
    (List.range 12).map (act 0) ++
    [.world (.start (.deliver {})), act 1 0, act 1 0, act 1 0, .reply 1 (.ok ()),
      .reply 1 (.error "full"), act 1 0, act 1 0, act 1 0, act 1 0, .reply 1 (.ok ()), act 1 0,
      act 1 0, .world (.start (.deliver {})), act 2 0, act 2 0, act 2 0, .reply 2 (.ok ()),
      .reply 2 (.ok ()), act 2 0, act 2 0]

example :
    let audit : Subscriber := { name := "audit", wants := fun e => e.eventType = "BalanceUpdated" }
    let mail : Subscriber := { name := "mail", wants := fun _ => true }
    let b := Broadcast.run (fun _ => [audit, mail]) {} halfDelivered
    b.floor.memory.outbox.map Message.status = [.completed, .completed] ∧
      b.handed.map (fun p => p.2.request.1) = [0, 1, 1, 0, 1] := by
  unfold Broadcast.run Broadcast.step Broadcast.floor Interleaving.run Interleaving.step
    Interleaving.act Interleaving.answered Moment.reply Memory.answer Memory.claim
  simp only [Memory.eligible_eq_insertionSort]
  decide +kernel

end BalanceLedger
