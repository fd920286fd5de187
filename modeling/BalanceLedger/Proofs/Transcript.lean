/-
# `Proofs.Transcript` — who was told what

An interleaving keeps no record of what was asked and answered, only what has come of
it: the store, the journal and what is left of each program.  The `transcript` of its
steps is that record, one `Utterance` for each request that was answered.  It is read
off the steps and decides nothing.

What is kept of a party is told by its own part of the transcript, the `dialogue` of its
place: its program has come to where it stands by exactly these turns, and it has drawn
exactly the identifiers in them (`hears_run`, and `hears_on` for an interleaving from
its start).  With `Keeps.converses` that gives `keeps_run`, by which rules that are
proved along the text of a program hold of what the party has said among others.

What is kept of all parties together is told by the whole of it.  The commits of the
transcript are the journal, by `journal_run`; and the store has been visited by nothing
but the requests in it, by `run_exchanges`, so that what is known of visits to a store
applies to every interleaving.  No identifier is drawn twice, `nodup_drawn`, which is
where the rule about fresh identifiers comes in.

The last lemmas lead from places to the whole: what holds of the turns of each place,
and between places, holds of all of them.
-/
import BalanceLedger.Proofs.Conduct
import BalanceLedger.Proofs.Deliveries
import BalanceLedger.Proofs.Instants
import Mathlib.Data.List.Flatten
import Mathlib.Data.List.Pairwise

namespace BalanceLedger

open Store (ChangeSet Memory)
open Time (Instant)

/-! ## Turns of a conversation with the world -/

namespace Turn

def drawn : Turn World → List Uuid
  | ⟨.freshId, id⟩ => [id]
  | _ => []

def made? : Turn World → Option ChangeSet
  | ⟨.store (.commit c), .ok ()⟩ => some c
  | _ => none

/-- The exchange with the store that a turn is, at a reading of the clock.  A `.plan` that is given
up does not reach the store. -/
def exchange? (now : Instant) : Turn World → Option Exchange
  | ⟨.store request, reply⟩ => some { now, request, reply }
  | ⟨.plan request, some reply⟩ => some { now, request, reply }
  | _ => none

end Turn

/-- The reply is one that a store in memory can give. -/
def World.IsGiven : (request : World.Request) → World.Reply request → Prop
  | .store q, r => ∃ (m : Memory) (now : Instant), r = (m.answer now q).1
  | .plan q, some r => ∃ (m : Memory) (now : Instant), r = (m.answer now q).1
  | _, _ => True

/-- The reply is one that is given once shutdown has come. -/
def World.IsLate : (request : World.Request) → World.Reply request → Prop
  | .stopping, stopping => stopping = true
  | _, _ => True

/-- The visit that has led to an exchange. -/
def Exchange.visit (e : Exchange) : Visit where
  now := e.now
  request := e.request

/-- A turn of a party, at a reading of the clock. -/
structure Utterance where
  place : Nat
  now : Instant
  turn : Turn World

namespace Utterance

def made? (u : Utterance) : Option (Nat × ChangeSet) :=
  u.turn.made?.map fun c => (u.place, c)

def exchange? (u : Utterance) : Option Exchange :=
  u.turn.exchange? u.now

end Utterance

namespace Moment

variable {w : Moment} {stopping : Bool} {m : Memory} {request : World.Request}

/-- What a moment replies, as a turn. -/
def turn (w : Moment) (stopping : Bool) (m : Memory) (request : World.Request) : Turn World :=
  ⟨request, (w.reply stopping m request).1⟩

theorem drawn_turn : (w.turn stopping m request).drawn = w.drawn request := by
  cases request <;> rfl

theorem made?_turn : (w.turn stopping m request).made? = m.accepted? request := by
  cases request with
  | store q =>
      cases q with
      | commit c =>
          cases hfault : m.fault? c with
          | none =>
              simp [turn, reply, Memory.answer_commit_accepted hfault, Turn.made?, Memory.accepted?,
                World.Request.changes?, Option.filter, hfault]
          | some e =>
              simp [turn, reply, Memory.answer_commit_refused hfault, Turn.made?, Memory.accepted?,
                World.Request.changes?, Option.filter, hfault]
      | _ => rfl
  | _ => rfl

theorem isGiven_reply (w : Moment) (stopping : Bool) (m : Memory) (request : World.Request) :
    World.IsGiven request (w.reply stopping m request).1 := by
  cases request with
  | store q => exact ⟨m, w.now, rfl⟩
  | plan q =>
      by_cases hgiven : (stopping && w.yields) = true
      · simp [reply, hgiven, World.IsGiven]
      · simp only [reply, hgiven]
        exact ⟨m, w.now, rfl⟩
  | _ => trivial

/-- A reply that comes from the store leaves what the store leaves, and every other reply leaves
the store alone. -/
theorem exchange?_turn (w : Moment) (stopping : Bool) (m : Memory) (request : World.Request) :
    (∃ q, (w.turn stopping m request).exchange? w.now = some ⟨w.now, q, (m.answer w.now q).1⟩ ∧
        (w.reply stopping m request).2 = (m.answer w.now q).2) ∨
      (w.turn stopping m request).exchange? w.now = none ∧
        (w.reply stopping m request).2 = m := by
  cases request with
  | store q => exact .inl ⟨q, rfl, rfl⟩
  | plan q =>
      by_cases hgiven : (stopping && w.yields) = true
      · refine .inr ?_
        simp [turn, reply, hgiven, Turn.exchange?]
      · refine .inl ⟨q, ?_⟩
        simp [turn, reply, hgiven, Turn.exchange?]
  | _ => exact .inr ⟨rfl, rfl⟩

end Moment

/-! ## Parties that go on by turns -/

/-- The party has become another one by these turns: its program `Converses`, and what it has drawn
is what the turns draw. -/
structure Party.Hears {τ α : Type} (p : Party τ α) (turns : List (Turn World))
    (q : Party τ α) : Prop where
  task : q.task = p.task
  converse : p.rest.Converses turns q.rest
  drawn : q.drawn = (turns.flatMap Turn.drawn).reverse ++ p.drawn
  /-- A signal that has been raised stays raised. -/
  stopping : p.stopping = true → q.stopping = true

namespace Party.Hears

variable {τ α : Type} {p q r : Party τ α} {turns more : List (Turn World)}

theorem refl (p : Party τ α) : p.Hears [] p :=
  ⟨rfl, .nil _, rfl, id⟩

theorem trans (hpq : p.Hears turns q) (hqr : q.Hears more r) : p.Hears (turns ++ more) r where
  task := hqr.task.trans hpq.task
  converse := hpq.converse.trans hqr.converse
  drawn := by
    rw [hqr.drawn, hpq.drawn, List.flatMap_append, List.reverse_append, List.append_assoc]
  stopping h := hqr.stopping (hpq.stopping h)

end Party.Hears

namespace Interleaving

variable {τ α : Type} {s : Interleaving τ α} {p q : Party τ α} {place : Nat}

def Step.isAct (place : Nat) : Step τ → Bool
  | .act n _ => n = place
  | _ => false

/-- The turn of a step. -/
def heard? (s : Interleaving τ α) : Step τ → Option Utterance
  | .act place w =>
    match s.parties[place]? with
    | none => none
    | some p =>
      match p.rest with
      | .done _ => none
      | .ask request _ =>
        if (w.drawn request).all s.isFresh then
          some ⟨place, w.now, w.turn p.stopping s.memory request⟩
        else none
  | _ => none

/-- When a party is to act, nothing is `heard?` and nothing happens, or its request is answered. -/
theorem act_heard (s : Interleaving τ α) (place : Nat) (w : Moment) :
    (s.heard? (.act place w) = none ∧ s.act place w = s) ∨
      ∃ p request next, s.parties[place]? = some p ∧ p.rest = .ask request next ∧
        (∀ id ∈ w.drawn request, id ∉ s.memory.ids ∧ ∀ q ∈ s.parties, id ∉ q.drawn) ∧
        s.heard? (.act place w) = some ⟨place, w.now, w.turn p.stopping s.memory request⟩ ∧
        s.act place w = s.answered place p w request next := by
  cases hp : s.parties[place]? with
  | none => exact .inl (by simp [heard?, act, hp])
  | some p =>
      cases hrest : p.rest with
      | done a => exact .inl (by simp [heard?, act, hp, hrest])
      | ask request next =>
          by_cases hfresh : (w.drawn request).all s.isFresh = true
          · refine .inr ⟨p, request, next, rfl, hrest, fun id hid => ?_, ?_, ?_⟩
            · simpa [isFresh] using List.all_eq_true.mp hfresh id hid
            · simp only [heard?, hp, hrest, hfresh, if_true]
            · simp only [act, hp, hrest, hfresh, if_true]
          · exact .inl (by simp [heard?, act, hp, hrest, hfresh])

theorem act_of_drawn_eq_nil {w : Moment} {request : World.Request}
    {next : World.Reply request → Program World α} (hp : s.parties[place]? = some p)
    (hrest : p.rest = .ask request next) (hdrawn : w.drawn request = []) :
    s.heard? (.act place w) = some ⟨place, w.now, w.turn p.stopping s.memory request⟩ ∧
      s.act place w = s.answered place p w request next := by
  constructor
  · simp only [heard?, hp, hrest, hdrawn, List.all_nil, if_true]
  · simp only [act, hp, hrest, hdrawn, List.all_nil, if_true]

theorem hasStarted_of_heard? {x : Step τ} {u : Utterance} (h : s.heard? x = some u) :
    s.hasStarted u.place := by
  cases x with
  | act place w =>
      rcases s.act_heard place w with ⟨hnone, -⟩ | ⟨p, _, _, hp, -, -, hsome, -⟩
      · exact absurd (hnone.symm.trans h) (by simp)
      · obtain rfl := Option.some.inj (hsome.symm.trans h)
        exact (List.getElem?_eq_some_iff.mp hp).1
  | _ => exact absurd h (by simp [heard?])

/-- What a turn draws has not been drawn by any party before. -/
theorem not_mem_drawn_of_heard? {x : Step τ} {u : Utterance} {id : Uuid} (h : s.heard? x = some u)
    (hid : id ∈ u.turn.drawn) (hq : q ∈ s.parties) : id ∉ q.drawn := by
  cases x with
  | act place w =>
      rcases s.act_heard place w with ⟨hnone, -⟩ | ⟨p, _, _, -, -, hfresh, hsome, -⟩
      · exact absurd (hnone.symm.trans h) (by simp)
      · obtain rfl := Option.some.inj (hsome.symm.trans h)
        rw [Moment.drawn_turn] at hid
        exact (hfresh id hid).2 q hq
  | _ => exact absurd h (by simp [heard?])

/-- What is said at a step is what a `Moment` replies on the store there. -/
theorem turn_of_heard? {x : Step τ} {u : Utterance} (h : s.heard? x = some u) :
    ∃ (w : Moment) (stopping : Bool) (request : World.Request),
      u = ⟨u.place, w.now, w.turn stopping s.memory request⟩ := by
  cases x with
  | act place w =>
      rcases s.act_heard place w with ⟨hnone, -⟩ | ⟨p, request, _, -, -, -, hsome, -⟩
      · exact absurd (hnone.symm.trans h) (by simp)
      · obtain rfl := Option.some.inj (hsome.symm.trans h)
        exact ⟨w, p.stopping, request, rfl⟩
  | _ => exact absurd h (by simp [heard?])

variable [Task τ α] {steps more : List (Step τ)} {u : Utterance}

def transcript (s : Interleaving τ α) : List (Step τ) → List Utterance
  | [] => []
  | x :: steps => (s.heard? x).toList ++ (s.step x).transcript steps

/-- The turns of the party at a place, out of the `transcript`. -/
def dialogue (s : Interleaving τ α) (steps : List (Step τ)) (place : Nat) : List (Turn World) :=
  ((s.transcript steps).filter fun u => u.place = place).map Utterance.turn

theorem transcript_append (s : Interleaving τ α) (steps more : List (Step τ)) :
    s.transcript (steps ++ more) = s.transcript steps ++ (s.run steps).transcript more := by
  induction steps generalizing s with
  | nil => rfl
  | cons x steps ih =>
      rw [List.cons_append, transcript, transcript, ih, List.append_assoc]
      rfl

theorem transcript_concat (s : Interleaving τ α) (steps : List (Step τ)) (x : Step τ) :
    s.transcript (steps ++ [x]) = s.transcript steps ++ ((s.run steps).heard? x).toList := by
  rw [transcript_append, transcript, transcript, List.append_nil]

theorem dialogue_append (s : Interleaving τ α) (steps more : List (Step τ)) (place : Nat) :
    s.dialogue (steps ++ more) place =
      s.dialogue steps place ++ (s.run steps).dialogue more place := by
  rw [dialogue, transcript_append, List.filter_append, List.map_append, dialogue, dialogue]

theorem dialogue_concat (s : Interleaving τ α) (steps : List (Step τ)) (x : Step τ)
    (place : Nat) : s.dialogue (steps ++ [x]) place =
      s.dialogue steps place ++ (s.run steps).dialogue [x] place :=
  dialogue_append ..

theorem dialogue_singleton {x : Step τ} {u : Utterance} (h : s.heard? x = some u) (place : Nat) :
    s.dialogue [x] place = if u.place = place then [u.turn] else [] := by
  rw [dialogue, transcript, h, transcript]
  by_cases hplace : u.place = place <;> simp [hplace]

theorem dialogue_singleton_of_none {x : Step τ} (h : s.heard? x = none) (place : Nat) :
    s.dialogue [x] place = [] := by
  rw [dialogue, transcript, h, transcript]
  rfl

theorem dialogue_singleton_of_not_isAct {x : Step τ} (h : x.isAct place = false) :
    s.dialogue [x] place = [] := by
  cases x with
  | act n w =>
      rcases s.act_heard n w with ⟨hnone, -⟩ | ⟨_, _, _, -, -, -, hsome, -⟩
      · exact dialogue_singleton_of_none hnone place
      · rw [dialogue_singleton hsome, if_neg (of_decide_eq_false h)]
  | _ => exact dialogue_singleton_of_none rfl place

theorem mem_dialogue {t : Turn World} :
    t ∈ s.dialogue steps place ↔ ∃ now, (⟨place, now, t⟩ : Utterance) ∈ s.transcript steps := by
  rw [dialogue, List.mem_map]
  constructor
  · rintro ⟨⟨place', now, turn⟩, hu, rfl⟩
    obtain ⟨hmem, hplace⟩ := List.mem_filter.mp hu
    obtain rfl : place' = place := of_decide_eq_true hplace
    exact ⟨now, hmem⟩
  · rintro ⟨now, hu⟩
    exact ⟨_, List.mem_filter.mpr ⟨hu, decide_eq_true rfl⟩, rfl⟩

theorem run_concat (s : Interleaving τ α) (steps : List (Step τ)) (x : Step τ) :
    s.run (steps ++ [x]) = (s.run steps).step x :=
  run_append ..

/-- A turn is said at one of the steps, and what is said before it is said before that step. -/
theorem exists_step_of_transcript {before after : List Utterance}
    (h : s.transcript steps = before ++ u :: after) : ∃ steps₁ x steps₂,
      steps = steps₁ ++ x :: steps₂ ∧ s.transcript steps₁ = before ∧
        (s.run steps₁).heard? x = some u := by
  induction steps generalizing s before with
  | nil => exact absurd h (by simp [transcript])
  | cons x steps ih =>
      have hlater : ∀ before', (s.step x).transcript steps = before' ++ u :: after →
          ∃ steps₁ y steps₂, x :: steps = steps₁ ++ y :: steps₂ ∧
            s.transcript steps₁ = (s.heard? x).toList ++ before' ∧
            (s.run steps₁).heard? y = some u := by
        intro before' h'
        obtain ⟨steps₁, y, steps₂, rfl, rfl, hheard⟩ := ih h'
        exact ⟨x :: steps₁, y, steps₂, rfl, rfl, hheard⟩
      cases hx : s.heard? x with
      | none =>
          rw [transcript, hx] at h
          obtain ⟨steps₁, y, steps₂, hsteps, hbefore, hheard⟩ := hlater before h
          exact ⟨steps₁, y, steps₂, hsteps, by simpa [hx] using hbefore, hheard⟩
      | some v =>
          rw [transcript, hx, Option.toList_some, List.singleton_append] at h
          cases before with
          | nil =>
              obtain ⟨rfl, -⟩ := List.cons.inj h
              exact ⟨[], x, steps, rfl, rfl, hx⟩
          | cons w before =>
              obtain ⟨rfl, hrest⟩ := List.cons.inj h
              obtain ⟨steps₁, y, steps₂, hsteps, hbefore, hheard⟩ := hlater before hrest
              exact ⟨steps₁, y, steps₂, hsteps, by simpa [hx] using hbefore, hheard⟩

theorem isGiven_of_mem_transcript (h : u ∈ s.transcript steps) :
    World.IsGiven u.turn.request u.turn.reply := by
  induction steps generalizing s with
  | nil => exact absurd h List.not_mem_nil
  | cons x steps ih =>
      rcases List.mem_append.mp h with h | h
      · cases x with
        | act place w =>
            rcases s.act_heard place w with ⟨hnone, -⟩ | ⟨p, request, _, -, -, -, hsome, -⟩
            · exact absurd h (by simp [hnone])
            · obtain rfl := Option.some.inj (hsome.symm.trans (Option.mem_toList.mp h))
              exact w.isGiven_reply ..
        | _ => exact absurd h (by simp [heard?])
      · exact ih h

theorem exists_party_of_mem_transcript (h : u ∈ s.transcript steps) :
    ∃ q, (s.run steps).parties[u.place]? = some q := by
  induction steps generalizing s with
  | nil => exact absurd h List.not_mem_nil
  | cons x steps ih =>
      rcases List.mem_append.mp h with h | h
      · have hplace := hasStarted_of_heard? (Option.mem_toList.mp h)
        obtain ⟨q, hq, -⟩ :=
          exists_goesOn_run (List.getElem?_eq_getElem hplace) (x :: steps)
        exact ⟨q, hq⟩
      · exact ih h

theorem dialogue_eq_nil (h : (s.run steps).parties[place]? = none) :
    s.dialogue steps place = [] := by
  refine List.eq_nil_iff_forall_not_mem.mpr fun t ht => ?_
  obtain ⟨now, hu⟩ := mem_dialogue.mp ht
  obtain ⟨q, hq⟩ := exists_party_of_mem_transcript hu
  exact absurd (h.symm.trans hq) (by simp)

/-! ## One party -/

/-- A party that is there after a step has had the turn of the step, if that is in its place, or it
has just started. -/
theorem hears_step {x : Step τ} (hq : (s.step x).parties[place]? = some q) :
    (∃ p, s.parties[place]? = some p ∧ p.Hears (s.dialogue [x] place) q) ∨
      s.parties[place]? = none ∧ s.heard? x = none ∧
        ∃ task since, q = { task, since, rest := Task.program task } := by
  have hquiet : s.heard? x = none → s.dialogue [x] place = [] :=
    fun h => dialogue_singleton_of_none h place
  cases x with
  | start task =>
      rcases getElem?_concat_cases hq with hq | ⟨hplace, rfl⟩
      · exact .inl ⟨q, hq, hquiet rfl ▸ .refl q⟩
      · refine .inr ⟨?_, rfl, task, _, rfl⟩
        rw [hplace, List.getElem?_eq_none (Nat.le_refl _)]
  | stop n =>
      simp only [step, List.getElem?_modify] at hq
      obtain ⟨p, hp, rfl⟩ := Option.map_eq_some_iff.mp hq
      refine .inl ⟨p, hp, ?_⟩
      rw [hquiet rfl]
      split
      · exact ⟨rfl, .nil _, rfl, fun _ => rfl⟩
      · exact .refl p
  | act n w =>
      rcases s.act_heard n w with ⟨hnone, hact⟩ | ⟨p, request, next, hp, hrest, -, hsome, hact⟩
      · rw [step, hact] at hq
        exact .inl ⟨q, hq, hquiet hnone ▸ .refl q⟩
      · rw [step, hact] at hq
        rw [dialogue_singleton hsome]
        rcases getElem?_answered hq with ⟨rfl, rfl⟩ | ⟨hne, hq⟩
        · rw [if_pos rfl]
          refine .inl ⟨p, hp, rfl, ?_, ?_, id⟩
          · rw [hrest]
            exact Program.Converses.concat _ (.nil (.ask request next))
          · rw [List.flatMap_singleton, Moment.drawn_turn]
            cases request <;> rfl
        · rw [if_neg (Ne.symm hne)]
          exact .inl ⟨q, hq, .refl q⟩

/-- A party that is there after steps has had the turns of its `dialogue`, from where it stood or
since it has started. -/
theorem hears_run (hq : (s.run steps).parties[place]? = some q) :
    (∃ p, s.parties[place]? = some p ∧ p.Hears (s.dialogue steps place) q) ∨
      s.parties[place]? = none ∧ ∃ task since,
        ({ task, since, rest := Task.program task } : Party τ α).Hears
          (s.dialogue steps place) q := by
  induction steps using List.reverseRecOn generalizing q with
  | nil => exact .inl ⟨q, hq, .refl q⟩
  | append_singleton steps x ih =>
      rw [run_concat] at hq
      rw [dialogue_append]
      rcases hears_step hq with ⟨p, hp, hpq⟩ | ⟨hnone, hquiet, task, since, rfl⟩
      · rcases ih hp with ⟨p', hp', hears⟩ | ⟨hnone, task, since, hears⟩
        · exact .inl ⟨p', hp', hears.trans hpq⟩
        · exact .inr ⟨hnone, task, since, hears.trans hpq⟩
      · -- nobody has been in this place yet
        refine .inr ⟨?_, task, since, ?_⟩
        · cases hp : s.parties[place]? with
          | none => rfl
          | some p =>
              obtain ⟨q, hq, -⟩ := exists_goesOn_run hp steps
              exact absurd (hnone.symm.trans hq) (by simp)
        · rw [dialogue_eq_nil hnone, dialogue, transcript, hquiet]
          exact .refl _

/-- A party of an interleaving on a store has had the turns of its place since it has started. -/
theorem hears_on {base : Memory} (hq : ((on base).run steps).parties[place]? = some q) :
    ∃ since, ({ task := q.task, since, rest := Task.program q.task } : Party τ α).Hears
      ((on base).dialogue steps place) q := by
  rcases hears_run hq with ⟨p, hp, -⟩ | ⟨-, task, since, hears⟩
  · exact absurd hp (by simp [on])
  · obtain rfl : q.task = task := hears.task
    exact ⟨since, hears⟩

theorem isLate_of_mem_dialogue (hp : s.parties[place]? = some p) (hstopping : p.stopping = true)
    {t : Turn World} (ht : t ∈ s.dialogue steps place) : World.IsLate t.request t.reply := by
  obtain ⟨now, hu⟩ := mem_dialogue.mp ht
  induction steps generalizing s p with
  | nil => exact absurd hu List.not_mem_nil
  | cons x steps ih =>
      rcases List.mem_append.mp hu with hu | hu
      · cases x with
        | act n w =>
            rcases s.act_heard n w with ⟨hnone, -⟩ | ⟨q, request, _, hq, -, -, hsome, -⟩
            · exact absurd hu (by simp [hnone])
            · obtain ⟨rfl, -, rfl⟩ := Utterance.mk.inj
                (Option.some.inj (hsome.symm.trans (Option.mem_toList.mp hu)))
              obtain rfl := Option.some.inj (hp.symm.trans hq)
              cases request with
              | stopping => exact hstopping
              | _ => trivial
        | _ => exact absurd hu (by simp [heard?])
      · obtain ⟨q, hq, -⟩ := exists_goesOn_step hp x
        rcases hears_step hq with ⟨p', hp', hears⟩ | ⟨hnone, -⟩
        · obtain rfl := Option.some.inj (hp.symm.trans hp')
          exact ih hq (hears.stopping hstopping) (mem_dialogue.mpr ⟨now, hu⟩) hu
        · exact absurd (hp.symm.trans hnone) (by simp)

/-- A party whose program keeps rules has kept them, and goes on doing so: `Keeps` for every
`dialogue` of an interleaving. -/
theorem keeps_run {base : Memory} {σ : Type} {C : Conduct World σ} {Q : α → σ → Prop} {s₀ : σ}
    (hq : ((on base).run steps).parties[place]? = some q)
    (hkeeps : C.Keeps (Task.program q.task) Q s₀)
    (hears : ∀ request reply, World.IsGiven request reply → C.hears request reply) :
    C.Allows s₀ ((on base).dialogue steps place) ∧
      C.Keeps q.rest Q (C.after s₀ ((on base).dialogue steps place)) := by
  obtain ⟨_, h⟩ := hears_on hq
  refine hkeeps.converses h.converse fun t ht => ?_
  obtain ⟨now, hu⟩ := mem_dialogue.mp ht
  exact hears _ _ (isGiven_of_mem_transcript hu)

/-! ## The store and the journal -/

def exchanges (s : Interleaving τ α) (steps : List (Step τ)) : List Exchange :=
  (s.transcript steps).filterMap Utterance.exchange?

theorem run_exchanges_step (s : Interleaving τ α) (past : List Exchange) (x : Step τ) :
    Service.run { memory := s.memory, past } ((s.exchanges [x]).map Exchange.visit) =
      { memory := (s.step x).memory, past := past ++ s.exchanges [x] } := by
  have hquiet : s.heard? x = none → s.exchanges [x] = [] := by
    intro h
    rw [exchanges, transcript, h, transcript]
    rfl
  cases x with
  | act n w =>
      rcases s.act_heard n w with ⟨hnone, hact⟩ | ⟨p, request, next, -, -, -, hsome, hact⟩
      · rw [hquiet hnone, step, hact, List.append_nil]
        rfl
      · have hexchange : s.exchanges [.act n w] =
            ((w.turn p.stopping s.memory request).exchange? w.now).toList := by
          rw [exchanges, transcript, hsome, transcript]
          cases h : (w.turn p.stopping s.memory request).exchange? w.now <;>
            simp [Utterance.exchange?, h]
        rw [hexchange, step, hact]
        show _ = ({ memory := (w.reply p.stopping s.memory request).2, past := _ } : Service)
        rcases w.exchange?_turn p.stopping s.memory request with
          ⟨q, hq, hmemory⟩ | ⟨hq, hmemory⟩
        · rw [hq, hmemory]
          rfl
        · rw [hq, hmemory, Option.toList_none, List.append_nil]
          rfl
  | start task =>
      rw [hquiet rfl, List.append_nil]
      rfl
  | stop n =>
      rw [hquiet rfl, List.append_nil]
      rfl

theorem exchanges_append (s : Interleaving τ α) (steps more : List (Step τ)) :
    s.exchanges (steps ++ more) = s.exchanges steps ++ (s.run steps).exchanges more := by
  rw [exchanges, transcript_append, List.filterMap_append, exchanges, exchanges]

/-- What a store replies, it replies as it stands then. -/
theorem exists_memory_of_exchange? {e : Exchange} (hu : u ∈ s.transcript steps)
    (he : u.exchange? = some e) : ∃ before, before <+: steps ∧
      e = ⟨u.now, e.request, ((s.run before).memory.answer u.now e.request).1⟩ := by
  induction steps generalizing s with
  | nil => exact absurd hu List.not_mem_nil
  | cons x steps ih =>
      rcases List.mem_append.mp hu with hu | hu
      · refine ⟨[], List.nil_prefix, ?_⟩
        cases x with
        | act place w =>
            rcases s.act_heard place w with ⟨hnone, -⟩ | ⟨p, request, _, -, -, -, hsome, -⟩
            · exact absurd hu (by simp [hnone])
            · obtain rfl := Option.some.inj (hsome.symm.trans (Option.mem_toList.mp hu))
              rcases w.exchange?_turn p.stopping s.memory request with ⟨q, hq, -⟩ | ⟨hq, -⟩
              · obtain rfl := Option.some.inj (hq.symm.trans he)
                rfl
              · exact absurd (hq.symm.trans he) (by simp)
        | _ => exact absurd hu (by simp [heard?])
      · obtain ⟨before, hpre, heq⟩ := ih hu
        exact ⟨x :: before, (List.prefix_cons_inj x).mpr hpre, heq⟩

/-- The store has been visited by the requests of the transcript, and by nothing else, so that
`Service.run` arrives at the same store. -/
theorem run_exchanges (s : Interleaving τ α) (past : List Exchange) (steps : List (Step τ)) :
    Service.run { memory := s.memory, past } ((s.exchanges steps).map Exchange.visit) =
      { memory := (s.run steps).memory, past := past ++ s.exchanges steps } := by
  induction steps generalizing s past with
  | nil =>
      rw [exchanges, transcript, List.filterMap_nil, List.append_nil]
      rfl
  | cons x steps ih =>
      have hsplit : s.exchanges (x :: steps) = s.exchanges [x] ++ (s.step x).exchanges steps := by
        simp [exchanges, transcript]
      rw [hsplit, List.map_append, Service.run_append, run_exchanges_step, ih, List.append_assoc]
      rfl

theorem journal_run (s : Interleaving τ α) (steps : List (Step τ)) :
    (s.run steps).journal = s.journal ++ (s.transcript steps).filterMap Utterance.made? := by
  induction steps generalizing s with
  | nil => simp [transcript, run]
  | cons x steps ih =>
      have hstep : (s.step x).journal =
          s.journal ++ (s.heard? x).toList.filterMap Utterance.made? := by
        cases x with
        | act n w =>
            rcases s.act_heard n w with ⟨hnone, hact⟩ | ⟨p, request, next, -, -, -, hsome, hact⟩
            · simp [step, hact, hnone]
            · rw [step, hact, hsome, answered, Option.toList_some]
              cases haccepted : s.memory.accepted? request <;>
                simp [Utterance.made?, Moment.made?_turn, haccepted]
        | _ => simp [step, heard?]
      show ((s.step x).run steps).journal = _
      rw [ih, hstep, transcript, List.filterMap_append, List.append_assoc]

def commits (s : Interleaving τ α) (place : Nat) : List ChangeSet :=
  (s.journal.filter fun p => p.1 = place).map Prod.snd

/-- What a party has committed, it has been told in its `dialogue`. -/
theorem commits_run (s : Interleaving τ α) (steps : List (Step τ)) (place : Nat) :
    (s.run steps).commits place =
      s.commits place ++ (s.dialogue steps place).filterMap Turn.made? := by
  have hmade : ∀ l : List Utterance,
      ((l.filterMap Utterance.made?).filter fun p => p.1 = place).map Prod.snd =
        ((l.filter fun u => u.place = place).map Utterance.turn).filterMap Turn.made? := by
    intro l
    induction l with
    | nil => rfl
    | cons u l ih =>
        cases hmade : u.turn.made? <;> by_cases hplace : u.place = place <;>
          simp [Utterance.made?, hmade, hplace, ih]
  rw [commits, journal_run, List.filter_append, List.map_append, hmade, dialogue, commits]

/-! ## All parties together -/

/-- What holds of turns of one place that come one after the other, and of turns of different
places, holds of all that come one after the other. -/
theorem pairwise_of_places {R : Utterance → Utterance → Prop} {l : List Utterance}
    (hsame : ∀ place, (l.filter fun u => u.place = place).Pairwise R)
    (hother : ∀ u ∈ l, ∀ v ∈ l, u.place ≠ v.place → R u v) : l.Pairwise R := by
  induction l with
  | nil => exact .nil
  | cons u l ih =>
      refine List.pairwise_cons.mpr ⟨fun v hv => ?_, ih (fun place => ?_) fun v hv v' hv' =>
        hother v (List.mem_cons_of_mem _ hv) v' (List.mem_cons_of_mem _ hv')⟩
      · by_cases hplace : u.place = v.place
        · have h := hsame v.place
          rw [List.filter_cons_of_pos (by simpa using hplace)] at h
          exact (List.pairwise_cons.mp h).1 v (List.mem_filter.mpr ⟨hv, decide_eq_true rfl⟩)
        · exact hother u List.mem_cons_self v (List.mem_cons_of_mem _ hv) hplace
      · exact (hsame place).sublist ((List.sublist_cons_self u l).filter _)

theorem nodup_drawn (base : Memory) (steps : List (Step τ)) :
    (((on base).transcript steps).flatMap fun u => u.turn.drawn).Nodup := by
  induction steps using List.reverseRecOn with
  | nil => simp [transcript]
  | append_singleton steps x ih =>
      rw [transcript_concat, List.flatMap_append]
      cases hx : ((on base).run steps).heard? x with
      | none => simpa using ih
      | some u =>
          rw [Option.toList_some, List.flatMap_singleton]
          refine List.nodup_append.mpr ⟨ih, ?_, ?_⟩
          · obtain ⟨place, now, request, reply⟩ := u
            cases request <;> simp [Turn.drawn]
          · rintro id hid _ hid' rfl
            -- the party that has drawn it before still knows it
            obtain ⟨v, hv, hdrawn⟩ := List.mem_flatMap.mp hid
            obtain ⟨q, hq⟩ := exists_party_of_mem_transcript hv
            obtain ⟨_, hears⟩ := hears_on hq
            refine not_mem_drawn_of_heard? hx hid' (List.mem_of_getElem? hq) ?_
            rw [hears.drawn, List.append_nil, List.mem_reverse, List.mem_flatMap]
            exact ⟨v.turn, mem_dialogue.mpr ⟨_, hv⟩, hdrawn⟩

theorem place_eq_of_drawn {base : Memory} {u v : Utterance} {id : Uuid}
    (hu : u ∈ (on base).transcript steps) (hv : v ∈ (on base).transcript steps)
    (hid : id ∈ u.turn.drawn) (hid' : id ∈ v.turn.drawn) : u.place = v.place := by
  by_contra hne
  have hapart := (List.nodup_flatMap.mp (nodup_drawn base steps)).2
  have : Std.Symm (Function.onFun List.Disjoint fun u : Utterance => u.turn.drawn) :=
    ⟨fun _ _ h _ hb ha => h ha hb⟩
  exact hapart.forall hu hv (fun h => hne (congrArg _ h)) hid hid'

theorem nodup_drawn_dialogue (base : Memory) (steps : List (Step τ)) (place : Nat) :
    (((on base).dialogue steps place).flatMap Turn.drawn).Nodup := by
  rw [dialogue, List.flatMap_map]
  exact (nodup_drawn base steps).sublist (List.filter_sublist.flatMap _)

end Interleaving

end BalanceLedger
