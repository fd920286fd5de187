/-
# `Proofs.Session` — programs that are played

A program is alone on a store if nobody else asks it anything meanwhile.  Everything
else is up to its `Surroundings`: what the clock shows, how a publisher answers, what is
drawn.  They may choose it by all that has been said so far, and against the program.  So
surroundings are a function of the turns that have been taken, and a program is played
against them, request by request.

Playing is a function: whatever the surroundings are, `play` gets a program to its
answer.  A statement about `play` is therefore not one about those runs only that happen
to end, and this is how purges, cycles and queries are said to return.

What comes of playing can be computed, by `play_bind` and the rules for each kind of
request, or it can be worked out along the program as a precondition, with `solo` for
what the store answers.  `play_of_wp` leads from the second to the first.  The rules for
`solo` are those of a store that nobody else moves; `solo_retrying` says that the first
attempt decides, because nobody is there to lose a race to.
-/
import BalanceLedger.Proofs.Conduct
import BalanceLedger.Proofs.Journal

namespace BalanceLedger

open Store (Memory)
open Time (Instant)

/-- What is answered besides the store, by what has been said so far. -/
abbrev Surroundings := List (Turn World) → Moment

/-- A store that nobody else uses, and what has been asked and answered. -/
structure Session where
  memory : Memory
  turns : List (Turn World) := []

namespace Session

def reply (s : Session) (around : Surroundings) (request : World.Request) : World.Reply request :=
  ((around s.turns).reply false s.memory request).1

def after (s : Session) (around : Surroundings) (request : World.Request) : Session where
  memory := ((around s.turns).reply false s.memory request).2
  turns := s.turns ++ [⟨request, s.reply around request⟩]

end Session

namespace Program

variable {α β : Type} {around : Surroundings}

/-- The answer of a program that is played, and the session then. -/
def play (around : Surroundings) : Program World α → Session → α × Session
  | .done a, s => (a, s)
  | .ask request next, s => (next (s.reply around request)).play around (s.after around request)

theorem play_bind (p : Program World α) (f : α → Program World β) (s : Session) :
    (p.bind f).play around s = (f (p.play around s).1).play around (p.play around s).2 := by
  induction p generalizing s with
  | done a => rfl
  | ask request next ih => exact ih (s.reply around request) (s.after around request)

theorem play_log_bind (level : Log.Level) (message : String) (fields : List (String × Json))
    (f : Unit → Program World β) (s : Session) :
    (World.log level message fields >>= f).play around s =
      (f ()).play around (s.after around (.log ⟨level, message, fields⟩)) :=
  rfl

theorem play_store_bind (q : Store.Request) (f : q.Reply → Program World β) (s : Session) :
    (World.store q >>= f).play around s =
      (f (s.reply around (.store q))).play around (s.after around (.store q)) :=
  rfl

theorem play_publish_bind (e : Outbox.PublishedEvent)
    (f : Except Outbox.PublishError Unit → Program World β) (s : Session) :
    (World.publish e >>= f).play around s =
      (f (s.reply around (.publish e))).play around (s.after around (.publish e)) :=
  rfl

/-! ## Preconditions -/

/-- What has to hold of a store that nobody else uses, so that a condition holds after a request,
whatever the `Surroundings` answer besides. -/
def solo (request : World.Request) (k : World.Reply request → Memory → Prop) (m : Memory) : Prop :=
  ∀ w : Moment, k (w.reply false m request).1 (w.reply false m request).2

theorem mono_solo : MonoAsks (I := World) solo :=
  fun _ _ _ _ hk h w => hk _ _ (h w)

/-- What is worked out along a program as a `wp` is what comes of playing it. -/
theorem play_of_wp (around : Surroundings) {p : Program World α} {Q : α → Memory → Prop}
    {s : Session} (h : p.wp solo Q s.memory) :
    Q (p.play around s).1 (p.play around s).2.memory := by
  induction p generalizing s with
  | done a => exact h
  | ask request next ih => exact ih (s.reply around request) (h (around s.turns))

end Program

namespace Operation

open Program (solo)

variable {α β : Type} {Q : Except LedgerError β → Memory → Prop} {m : Memory}

theorem solo_read_bind {q : Store.Request} {f : q.Answer → Operation β} {found : q.Answer}
    (hfound : ∀ now, m.answer now q = (.ok found, m)) (h : (f found).run.wp solo Q m) :
    (read q >>= f).run.wp solo Q m := by
  intro w
  have hreply : w.reply false m (.plan q) = (some (.ok found), m) := by
    simp only [Moment.reply, hfound, Bool.false_and]
    rfl
  rw [hreply]
  exact h

theorem solo_planning {plan : Operation β} (h : plan.run.wp solo Q m) :
    (planning plan).run.wp solo Q m :=
  fun _ => h

theorem solo_clock_bind {f : Instant → Operation β} (h : ∀ now, (f now).run.wp solo Q m) :
    (liftM World.clock >>= f).run.wp solo Q m :=
  fun w => h w.now

theorem solo_freshId_bind {f : Uuid → Operation β} (h : ∀ id, (f id).run.wp solo Q m) :
    (liftM World.freshId >>= f).run.wp solo Q m :=
  fun w => h w.id

theorem solo_stage {origin : Origin} {events : List Event}
    {Q : List Outbox.Message → Memory → Prop} (h : ∀ messages, Q messages m) :
    (World.stage origin events).wp solo Q m := by
  induction events generalizing Q with
  | nil => exact h []
  | cons event events ih =>
      intro w w'
      show ((World.stage origin events).bind _).wp solo Q m
      rw [Program.wp_bind]
      exact ih fun messages => h _

theorem solo_answer {o : Operation α} {f : α → β}
    {Q : Except LedgerError α → Memory → Prop} {Q' : Except LedgerError β → Memory → Prop}
    (hQ : ∀ r t, Q r t → Q' (r.map f) t) (h : o.run.wp solo Q m) :
    (do return f (← o) : Operation β).run.wp solo Q' m := by
  rw [Operation.wp_bind]
  refine Program.wp_mono Program.mono_solo (fun r t hr => ?_) o.run m h
  cases r with
  | ok a => exact hQ (.ok a) t hr
  | error e => exact hQ (.error e) t hr

theorem solo_commit {c : Store.ChangeSet} {Q : Except StoreError Unit → Memory → Prop}
    (haccepted : m.fault? c = none) (h : Q (.ok ()) (m.write c)) :
    (World.store (.commit c)).wp solo Q m := by
  intro w
  have hreply : w.reply false m (.store (.commit c)) = (.ok (), m.write c) :=
    Memory.answer_commit_accepted haccepted w.now
  rw [hreply]
  exact h

theorem solo_retrying {policy : RetryPolicy} {name : String} {once : Operation β}
    (h : once.run.wp solo (Attempted (fun _ => False) Q) m) :
    (retrying policy name once).run.wp solo Q m := by
  refine wp_retrying_counted Program.mono_solo (fun lost t => lost = 0 ∧ t = m)
    (fun _ _ _ ht _ _ _ => ht) (fun _ _ _ ht _ => ht) (fun lost t _ ht => ?_) (fun t ht => ?_)
    ⟨rfl, rfl⟩
  · obtain ⟨rfl, rfl⟩ := ht
    refine Program.wp_mono Program.mono_solo (fun r u hr => ?_) once.run t h
    cases r with
    | ok a => exact hr
    | error e =>
        simp only [Attempted] at hr ⊢
        by_cases hlost : e.isVersionConflict = true
        · rw [if_pos hlost] at hr
          exact hr.elim
        · rwa [if_neg hlost] at hr ⊢
  · have hpos : 1 ≤ policy.attempts := Nat.le_max_left ..
    exact absurd ht.1 (by omega)

end Operation

end BalanceLedger
