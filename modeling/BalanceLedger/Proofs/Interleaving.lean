/-
# `Proofs.Interleaving` — operations that run at the same time

Any number of parties work on one store in memory.  Each carries out a program, one
request at a time, and between two requests of one party any other party can step in; a
request to the store is answered at once and as a whole.  A `Step` is data: a party
starts, the shutdown signal of a party is raised, or a party gets its next request
answered.  `run` takes a list of them, which is one interleaving, so a statement about
every list of steps is a statement about every interleaving, finished or not.

What the surroundings answer besides the store is the `Moment` of a step: the clock
shows anything, a wait ends in any way, a reading of a plan is given up or not once the
signal has been raised.  Only identifiers are bound by a rule.  They are drawn at
random, and `isFresh` says that one that has been drawn, or names an entry of the log,
is not drawn again; `act` does nothing at a moment that breaks the rule.

The journal records who committed what.  It decides nothing; it is what the statements
about interleavings speak of.

What the parties carry out is left open, as an instance of `Task`.  The instances are
the commands of callers, which make up `Traffic`, and elsewhere the cycles of processors
and the errands of both together.  Two lemmas take a step apart for all of them:
`act_cases` for what happens at it, and `getElem?_answered` for what has become of the
parties.
-/
import BalanceLedger.Operation.Adjustment
import BalanceLedger.Operation.Reservation
import BalanceLedger.Operation.Voiding
import BalanceLedger.Store.Memory

namespace BalanceLedger

open Store (ChangeSet Memory)
open Time (Instant Span)

/-- What a party of an interleaving carries out. -/
class Task (τ : Type) (α : outParam Type) where
  program : τ → Program World α

/-- The identifiers of the entries in the log. -/
def Store.Memory.ids (m : Memory) : List Uuid :=
  m.entries.map Entry.id

/-! ## One request -/

/-- What the surroundings besides the store answer at one moment. -/
structure Moment where
  now : Instant
  id : Uuid := .nil
  jitter : Nat := 0
  timer : Span := ⟨0⟩
  /-- Does shutdown come before a wait is over? -/
  interrupts : Bool := false
  published : Except Outbox.PublishError Unit := .ok ()
  /-- Is a reading that serves a plan given up, if the signal has been raised? -/
  yields : Bool := false

namespace Moment

/-- The reply to a request, and the store that is left.  Only `.store` requests, and a `.plan` that
is not given up, reach the store. -/
def reply (w : Moment) (stopping : Bool) (m : Memory) :
    (request : World.Request) → World.Reply request × Memory
  | .store request => m.answer w.now request
  | .plan request =>
    if stopping && w.yields then (none, m)
    else
      let (answer, next) := m.answer w.now request
      (some answer, next)
  | .stopping => (stopping, m)
  | .clock => (w.now, m)
  | .freshId => (w.id, m)
  | .jitter limit => (⟨w.jitter % (limit + 1), Nat.mod_lt _ (Nat.succ_pos limit)⟩, m)
  | .pause _ => ((), m)
  | .timer => (w.timer, m)
  | .waitUntil _ => (w.interrupts, m)
  | .publish _ => (w.published, m)
  | .log _ => ((), m)

def drawn (w : Moment) : World.Request → List Uuid
  | .freshId => [w.id]
  | _ => []

end Moment

/-- The change set that a request asks the store to commit. -/
def World.Request.changes? : World.Request → Option ChangeSet
  | .store (.commit changes) => some changes
  | _ => none

/-- The change set that a request commits, if `fault?` finds nothing against it. -/
def Store.Memory.accepted? (m : Memory) (request : World.Request) : Option ChangeSet :=
  request.changes?.filter fun changes => (m.fault? changes).isNone

/-! ## Parties and their steps -/

structure Party (τ α : Type) where
  task : τ
  /-- How many commits came before its start. -/
  since : Nat
  /-- Has its shutdown signal been raised? -/
  stopping : Bool := false
  /-- The identifiers it has drawn, the last one first. -/
  drawn : List Uuid := []
  rest : Program World α

def Party.answer? {τ α : Type} (p : Party τ α) : Option α :=
  match p.rest with
  | .done a => some a
  | .ask .. => none

theorem Party.rest_eq_done {τ α : Type} {p : Party τ α} {a : α} (h : p.answer? = some a) :
    p.rest = .done a := by
  unfold answer? at h
  split at h
  · rename_i hrest
    rw [hrest, Option.some.inj h]
  · exact absurd h (by simp)

/-- How far an interleaving has come.  Parties are named by their place, in the order in which they
started, and `journal` has the place beside each commit. -/
structure Interleaving (τ α : Type) where
  memory : Memory
  parties : List (Party τ α) := []
  /-- Who committed what, in order. -/
  journal : List (Nat × ChangeSet) := []

namespace Interleaving

variable {τ α : Type}

inductive Step (τ : Type) where
  | start (task : τ)
  /-- Raise the shutdown signal of a party. -/
  | stop (place : Nat)
  /-- Answer the next request of a party. -/
  | act (place : Nat) (moment : Moment)

def hasStarted (s : Interleaving τ α) (place : Nat) : Prop :=
  place < s.parties.length

def answer? (s : Interleaving τ α) (place : Nat) : Option α :=
  s.parties[place]?.bind Party.answer?

theorem answer?_eq {s : Interleaving τ α} {place : Nat} {p : Party τ α}
    (hp : s.parties[place]? = some p) : s.answer? place = p.answer? := by
  unfold answer?
  rw [hp]
  rfl

def on (m : Memory) : Interleaving τ α :=
  { memory := m }

/-- Has nobody drawn the identifier, and is no entry named by it? -/
def isFresh (s : Interleaving τ α) (id : Uuid) : Bool :=
  !s.memory.ids.contains id && s.parties.all fun p => !p.drawn.contains id

/-- A party gets its request answered at a moment, and goes on with the reply. -/
def answered (s : Interleaving τ α) (place : Nat) (p : Party τ α) (w : Moment)
    (request : World.Request) (next : World.Reply request → Program World α) :
    Interleaving τ α where
  memory := (w.reply p.stopping s.memory request).2
  parties := s.parties.set place
    { p with
      drawn := w.drawn request ++ p.drawn
      rest := next (w.reply p.stopping s.memory request).1 }
  journal := s.journal ++ (s.memory.accepted? request).toList.map fun c => (place, c)

/-- Answer the next request of a party at a moment.  Nothing happens if there is no such party, if
it has returned, or if the identifier of the moment is not `isFresh`. -/
def act (s : Interleaving τ α) (place : Nat) (w : Moment) : Interleaving τ α :=
  match s.parties[place]? with
  | none => s
  | some p =>
    match p.rest with
    | .done _ => s
    | .ask request next =>
      if (w.drawn request).all s.isFresh then s.answered place p w request next else s

/-- Nothing happens, or the party gets its request answered and draws what is new. -/
theorem act_cases (s : Interleaving τ α) (place : Nat) (w : Moment) :
    s.act place w = s ∨
      ∃ p request next, s.parties[place]? = some p ∧ p.rest = .ask request next ∧
        (∀ id ∈ w.drawn request, id ∉ s.memory.ids ∧ ∀ q ∈ s.parties, id ∉ q.drawn) ∧
        s.act place w = s.answered place p w request next := by
  unfold act
  split
  · exact .inl rfl
  · rename_i p hp
    split
    · exact .inl rfl
    · rename_i request next hrest
      split
      · rename_i hfresh
        refine .inr ⟨p, request, next, hp, hrest, fun id hid => ?_, rfl⟩
        have := List.all_eq_true.mp hfresh id hid
        simpa [isFresh] using this
      · exact .inl rfl

/-- After `answered`, a party is the one that asked, or one of the others as it was. -/
theorem getElem?_answered {s : Interleaving τ α} {place n : Nat} {p q : Party τ α} {w : Moment}
    {request : World.Request} {next : World.Reply request → Program World α}
    (hq : (s.answered place p w request next).parties[n]? = some q) :
    (n = place ∧ q =
        { p with
          drawn := w.drawn request ++ p.drawn
          rest := next (w.reply p.stopping s.memory request).1 }) ∨
      n ≠ place ∧ s.parties[n]? = some q := by
  simp only [Interleaving.answered] at hq
  by_cases hn : place = n
  · subst hn
    obtain ⟨hlt, heq⟩ := List.getElem?_eq_some_iff.mp hq
    rw [List.getElem_set_self] at heq
    exact .inl ⟨rfl, heq.symm⟩
  · rw [List.getElem?_set_ne hn] at hq
    exact .inr ⟨Ne.symm hn, hq⟩

variable [Task τ α]

/-- The interleaving after a step. -/
def step (s : Interleaving τ α) : Step τ → Interleaving τ α
  | .start task =>
    { s with
      parties := s.parties ++
        [{ task, since := s.journal.length, rest := Task.program task }] }
  | .stop place =>
    { s with parties := s.parties.modify place fun p => { p with stopping := true } }
  | .act place moment => s.act place moment

def run (s : Interleaving τ α) (steps : List (Step τ)) : Interleaving τ α :=
  steps.foldl step s

theorem run_append (s : Interleaving τ α) (steps more : List (Step τ)) :
    s.run (steps ++ more) = (s.run steps).run more :=
  List.foldl_append

theorem getElem?_concat_cases {β : Type} {l : List β} {a b : β} {n : Nat}
    (h : (l ++ [a])[n]? = some b) : l[n]? = some b ∨ n = l.length ∧ b = a := by
  rcases Nat.lt_or_ge n l.length with hn | hn
  · exact .inl (by rwa [List.getElem?_append_left hn] at h)
  · rw [List.getElem?_append_right hn, List.getElem?_singleton] at h
    split at h
    · exact .inr ⟨by omega, (Option.some.inj h).symm⟩
    · exact absurd h (by simp)

/-- A party of an interleaving in which a signal has been raised is a party of the one before, its
signal apart. -/
theorem getElem?_stop {s : Interleaving τ α} {place n : Nat} {q : Party τ α}
    (hq : (s.step (.stop place)).parties[n]? = some q) :
    ∃ p, s.parties[n]? = some p ∧ q.task = p.task ∧ q.since = p.since ∧ q.drawn = p.drawn ∧
      q.rest = p.rest := by
  simp only [Interleaving.step, List.getElem?_modify] at hq
  obtain ⟨p, hp, rfl⟩ := Option.map_eq_some_iff.mp hq
  refine ⟨p, hp, ?_⟩
  split <;> simp

end Interleaving

/-! ## Commands of callers -/

inductive Command where
  | post (c : PostCommand)
  | void (c : VoidCommand)
  | adjust (c : AdjustCommand)
  /-- Reserve or release. -/
  | earmark (k : Earmark) (c : ReserveCommand)
deriving DecidableEq, Repr

/-- What a command that does not fail is answered with. -/
inductive Answer where
  | posting (r : PostingResult)
  | void (r : VoidResult)
  | reservation (r : ReservationResult)
deriving DecidableEq, Repr

/-- A command with the policy and the origin it is executed with. -/
structure Call where
  command : Command
  policy : RetryPolicy := {}
  origin : Origin := {}

namespace Call

/-- Execute a command, as `Command` tells which. -/
def execute (c : Call) : Operation Answer :=
  match c.command with
  | .post command => return .posting (← command.execute c.policy c.origin)
  | .void command => return .void (← command.execute c.policy c.origin)
  | .adjust command => return .posting (← command.execute c.policy c.origin)
  | .earmark k command => return .reservation (← command.execute k c.policy c.origin)

instance : Task Call (Except LedgerError Answer) where
  program c := c.execute

end Call

/-- Commands of callers that run at the same time. -/
abbrev Traffic := Interleaving Call (Except LedgerError Answer)

end BalanceLedger
