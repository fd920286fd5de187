/-
# `StopSignal` — telling everybody to stop

A signal that is raised once and stays raised.  Whoever waits for it first
registers for a notification, then looks at the flag, and only then is
suspended until the notification comes; whoever raises it sets the flag first and
notifies afterwards.  These are separate steps, and steps of several parties can
come in any order: a party that registers too late for the notification finds the
flag set.

A computation can be run until the signal comes.  Whoever runs it waits for the
signal too, and each time looks at that first: the computation is polled only if the
waiting is not over.
-/

namespace BalanceLedger

/-- What can be asked of a notifier: a notification of its own, or to notify everybody. -/
inductive StopSignal.NotifierCall where
  | enable
  | notifyAll
deriving DecidableEq, Repr

/-- A notifier, known by what it has delivered after calls.  Notifications are numbered in the order
in which they were enabled. -/
abbrev StopSignal.Notifier := List StopSignal.NotifierCall → Nat → Bool

/-- Where a party that waits for the signal stands. -/
inductive StopSignal.Phase where
  /-- Registered, but has not looked at the flag. -/
  | registered
  /-- Has found the flag unset, and has not looked at its notification. -/
  | looked
  | suspended
  | returned
  /-- Does not wait any longer. -/
  | left
deriving DecidableEq, Repr

/-- Where a party that raises the signal stands. -/
inductive StopSignal.Raiser where
  /-- Has set the flag, but has not notified anybody. -/
  | flagged
  | returned
deriving DecidableEq, Repr

/-- A signal, those who wait for it, in the order of their registration, and those who raise it. -/
structure StopSignal where
  raised : Bool := false
  /-- What has been asked of the notifier. -/
  calls : List StopSignal.NotifierCall := []
  waiters : List StopSignal.Phase := []
  raisers : List StopSignal.Raiser := []
deriving DecidableEq, Repr

namespace StopSignal

/-- The notifier that delivers to everybody who is registered and to nobody else. -/
def Notifier.prompt : Notifier
  | [], _ => false
  | .enable :: calls, 0 => calls.contains .notifyAll
  | .enable :: calls, number + 1 => Notifier.prompt calls number
  | .notifyAll :: calls, number => Notifier.prompt calls number

/-- A step of one of the parties; waiters and raisers are named by their place. -/
inductive Step where
  | register
  /-- A waiter goes on: it looks at the flag, and then at its notification. -/
  | goOn (place : Nat)
  /-- A waiter that is suspended is given up. -/
  | leave (place : Nat)
  | setFlag
  /-- Whoever has set the flag notifies everybody, and has raised the signal. -/
  | notify (raiser : Nat)
deriving DecidableEq, Repr

/-- Where a waiter stands after it has looked at the flag or at its notification. -/
def Phase.next (raised delivered : Bool) : Phase → Phase
  | .registered => if raised then .returned else .looked
  | .looked | .suspended => if delivered then .returned else .suspended
  | phase => phase

/-- Where a waiter stands that is given up. -/
def Phase.leave : Phase → Phase
  | .suspended => .left
  | phase => phase

def step (notifier : Notifier) (s : StopSignal) : Step → StopSignal
  | .register => { s with calls := s.calls ++ [.enable], waiters := s.waiters ++ [.registered] }
  | .goOn place =>
    { s with waiters := s.waiters.modify place (Phase.next s.raised (notifier s.calls place)) }
  | .leave place => { s with waiters := s.waiters.modify place Phase.leave }
  | .setFlag => { s with raised := true, raisers := s.raisers ++ [.flagged] }
  | .notify raiser =>
    if s.raisers[raiser]? = some .flagged then
      { s with calls := s.calls ++ [.notifyAll], raisers := s.raisers.set raiser .returned }
    else s

def run (notifier : Notifier) (s : StopSignal) (steps : List Step) : StopSignal :=
  steps.foldl (step notifier) s

/-- Raise the signal. -/
def raise (s : StopSignal) : StopSignal :=
  s.run .prompt [.setFlag, .notify s.raisers.length]

/-- Begin to wait; the new waiter is the last one. -/
def enter (s : StopSignal) : StopSignal :=
  s.run .prompt [.register, .goOn s.waiters.length, .goOn s.waiters.length]

/-- Let everybody go on who has been notified. -/
def resumeAll (s : StopSignal) : StopSignal :=
  s.run .prompt ((List.range s.waiters.length).map .goOn)

def hasReturned (s : StopSignal) (place : Nat) : Bool :=
  s.waiters[place]? = some .returned

def returnedCount (s : StopSignal) : Nat :=
  s.waiters.count .returned

/-- Does waiting end at once? It does if the signal has been `raised`. -/
def waitEndsAtOnce (s : StopSignal) : Bool :=
  s.enter.hasReturned s.waiters.length

/-! ## Computations that stop at the signal -/

/-- A computation that is ready after a number of polls that find it pending. -/
structure Task (α : Type) where
  pending : Nat
  value : α
deriving DecidableEq, Repr

/-- What a computation answers to its polls, which are numbered from 0. -/
def Task.answer {α : Type} (t : Task α) (poll : Nat) : Option α :=
  if poll < t.pending then none else some t.value

/-- What is known of a computation that is run until the signal. -/
inductive Progress (α : Type) where
  /-- The signal is looked at next. -/
  | watching
  /-- The waiting is not over, and the computation is polled next. -/
  | working
  | stopped
  | finished (a : α)
deriving DecidableEq, Repr

/-- The value of a computation that has finished. -/
def Progress.value? {α : Type} : Progress α → Option α
  | .finished a => some a
  | _ => none

/-- Somebody who runs a computation until the signal. -/
structure Runner (α : Type) where
  /-- The place of the waiter. -/
  place : Nat
  /-- What the computation answers to its polls. -/
  task : Nat → Option α
  polls : Nat := 0
  progress : Progress α := .watching

/-- What there is to do where the waiting stands. -/
def Progress.ofPhase {α : Type} : Option Phase → Progress α
  | some .returned => .stopped
  | some .suspended => .working
  | _ => .watching

/-- The signal and the runner after the runner's next step: it goes on with waiting, or it polls the
computation.  When that is ready, nobody waits any longer. -/
def Runner.step {α : Type} (notifier : Notifier) (s : StopSignal) (r : Runner α) :
    StopSignal × Runner α :=
  match r.progress with
  | .watching =>
    let s := s.step notifier (.goOn r.place)
    (s, { r with progress := .ofPhase s.waiters[r.place]? })
  | .working =>
    match r.task r.polls with
    | some a =>
      (s.step notifier (.leave r.place), { r with polls := r.polls + 1, progress := .finished a })
    | none => (s, { r with polls := r.polls + 1, progress := .watching })
  | _ => (s, r)

/-- A signal, and those who run computations until it comes.  Their waiters are among the others. -/
structure Scene (α : Type) where
  signal : StopSignal := {}
  runners : List (Runner α) := []

/-- A step of one of the parties; runners are named by their place. -/
inductive Scene.Step (α : Type) where
  /-- Of somebody who waits for the signal or raises it. -/
  | signal (step : StopSignal.Step)
  /-- A computation is begun, and whoever runs it registers. -/
  | begin (task : Nat → Option α)
  | goOn (runner : Nat)

namespace Scene

variable {α : Type}

/-- Does the step move the waiter of a runner? -/
def isOwned (s : Scene α) : StopSignal.Step → Bool
  | .goOn place | .leave place => s.runners.any fun r => r.place = place
  | _ => false

/-- The scene after a step.  The waiter of a runner is moved by the runner only. -/
def step (notifier : Notifier) (s : Scene α) : Step α → Scene α
  | .signal step =>
    if s.isOwned step then s else { s with signal := s.signal.step notifier step }
  | .begin task =>
    { signal := s.signal.step notifier .register
      runners := s.runners ++ [{ place := s.signal.waiters.length, task }] }
  | .goOn runner =>
    match s.runners[runner]? with
    | some r =>
      let (signal, r) := r.step notifier s.signal
      { signal, runners := s.runners.set runner r }
    | none => s

def run (notifier : Notifier) (s : Scene α) (steps : List (Step α)) : Scene α :=
  steps.foldl (step notifier) s

end Scene

/-- The value that a computation comes to within two polls, if it is not stopped; the signal
changes between them.  The first poll takes three steps, since the flag is looked at first. -/
def runAcross {α : Type} (s : StopSignal) (t : Task α) (change : StopSignal → StopSignal) :
    Option α :=
  let first := ({ signal := s } : Scene α).run .prompt [.begin t.answer, .goOn 0, .goOn 0, .goOn 0]
  let second := { first with signal := change first.signal }.run .prompt [.goOn 0, .goOn 0]
  second.runners[0]?.bind fun r => r.progress.value?

end StopSignal

end BalanceLedger
