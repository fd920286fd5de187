/-
# `Proofs.Conduct` — what programs ask, whatever they are told

A program is known to its surroundings by what it asks and by what it answers in the
end.  Rules of conduct say what may be asked in each state of a conversation, and to
which state a reply leads: the fields `may`, `hears` and `moved` of `Conduct`.  A
program keeps the rules, `Keeps`, if it asks nothing else, whatever the replies are, and
if its answer is right for the state in which it gives it.

This is worked out along the program, request by request, as the precondition
`Program.wp`, so it is proved by going once through its text.  The rules for that are
`wp_bind` and its kin; an operation that is attempted again is covered by `wp_retrying`,
where the invariant between two attempts is a parameter.

What is proved once about the text says something of every conversation, finished or
not.  `Converses` is what a conversation is, and `Keeps.converses` is the use of the
rules: each request was allowed where it was made, and what is left of the program keeps
the rules from the state that the conversation has come to.  A program behind another
interface is answered for by `Keeps.through`, which carries the rules of the one over to
the other.

Nothing here speaks of a store.  What replies can be expected is up to `hears`, so the
same lemmas serve calls on the store in memory, calls on a connection, and processors.
-/
import BalanceLedger.Operation.Retry

namespace BalanceLedger

structure Turn (I : Interface) where
  request : I.Request
  reply : I.Reply request

namespace Program

variable {I : Interface} {α β σ : Type}

/-- The turns lead from a program to what is left of it. -/
inductive Converses : Program I α → List (Turn I) → Program I α → Prop
  | nil (p : Program I α) : Converses p [] p
  | concat {p : Program I α} {turns : List (Turn I)} {request : I.Request}
      {next : I.Reply request → Program I α} (reply : I.Reply request) :
      Converses p turns (.ask request next) → Converses p (turns ++ [⟨request, reply⟩]) (next reply)

theorem Converses.trans {p q r : Program I α} {turns more : List (Turn I)}
    (hpq : p.Converses turns q) (hqr : q.Converses more r) : p.Converses (turns ++ more) r := by
  induction hqr with
  | nil => rwa [List.append_nil]
  | concat reply _ ih =>
      rw [← List.append_assoc]
      exact .concat reply ih

theorem Converses.cases_head {p q : Program I α} {turns : List (Turn I)}
    (h : p.Converses turns q) :
    (turns = [] ∧ q = p) ∨ ∃ request next reply rest, p = .ask request next ∧
      turns = ⟨request, reply⟩ :: rest ∧ (next reply).Converses rest q := by
  induction h with
  | nil => exact .inl ⟨rfl, rfl⟩
  | concat reply _ ih =>
      rcases ih with ⟨rfl, rfl⟩ | ⟨request, next, first, rest, rfl, rfl, hrest⟩
      · exact .inr ⟨_, _, reply, [], rfl, rfl, .nil _⟩
      · exact .inr ⟨request, next, first, _, rfl, rfl, .concat reply hrest⟩

theorem Converses.cons {q : Program I α} {request : I.Request}
    {next : I.Reply request → Program I α} {reply : I.Reply request} {turns : List (Turn I)}
    (h : (next reply).Converses turns q) :
    (Program.ask request next).Converses (⟨request, reply⟩ :: turns) q :=
  (Converses.concat reply (.nil (.ask request next))).trans h

theorem converses_done_iff {a b : α} {turns : List (Turn I)} :
    (Program.done a : Program I α).Converses turns (.done b) ↔ turns = [] ∧ b = a := by
  constructor
  · intro h
    rcases h.cases_head with ⟨rfl, hdone⟩ | ⟨_, _, _, _, hask, -⟩
    · exact ⟨rfl, Program.done.inj hdone⟩
    · exact absurd hask (by simp)
  · rintro ⟨rfl, rfl⟩
    exact .nil _

theorem converses_ask_done_iff {a : α} {request : I.Request}
    {next : I.Reply request → Program I α} {turns : List (Turn I)} :
    (Program.ask request next).Converses turns (.done a) ↔
      ∃ reply rest, turns = ⟨request, reply⟩ :: rest ∧ (next reply).Converses rest (.done a) := by
  constructor
  · intro h
    rcases h.cases_head with ⟨_, hdone⟩ | ⟨_, _, reply, rest, hask, rfl, hrest⟩
    · exact absurd hdone (by simp)
    · obtain ⟨rfl, hnext⟩ := Program.ask.inj hask
      obtain rfl := eq_of_heq hnext
      exact ⟨reply, rest, rfl, hrest⟩
  · rintro ⟨reply, rest, rfl, hrest⟩
    exact hrest.cons

/-- The whole conversation of a program with surroundings that reply by what has been said before:
its turns and its answer. -/
def converse (reply : List (Turn I) → (request : I.Request) → I.Reply request) :
    Program I α → List (Turn I) → List (Turn I) × α
  | .done a, past => (past, a)
  | .ask request next, past =>
    (next (reply past request)).converse reply (past ++ [⟨request, reply past request⟩])

/-- Every program gets to its answer, and what `converse` returns are the turns that lead there. -/
theorem converses_converse (reply : List (Turn I) → (request : I.Request) → I.Reply request)
    (p : Program I α) (past : List (Turn I)) : ∃ turns,
      (p.converse reply past).1 = past ++ turns ∧
        p.Converses turns (.done (p.converse reply past).2) := by
  induction p generalizing past with
  | done a => exact ⟨[], (List.append_nil past).symm, .nil _⟩
  | ask request next ih =>
      obtain ⟨turns, hturns, hconverse⟩ :=
        ih (reply past request) (past ++ [⟨request, reply past request⟩])
      exact ⟨[⟨request, reply past request⟩] ++ turns, hturns.trans (List.append_assoc ..),
        (Converses.concat _ (.nil (.ask request next))).trans hconverse⟩

/-! ## Preconditions -/

/-- What has to hold of a state so that a condition holds in the end, where `asks` says what has to
hold before a request so that a condition holds after each reply to it. -/
def wp (asks : (request : I.Request) → (I.Reply request → σ → Prop) → σ → Prop) :
    Program I α → (α → σ → Prop) → σ → Prop
  | .done a, Q, s => Q a s
  | .ask request next, Q, s => asks request (fun reply => (next reply).wp asks Q) s

variable {asks : (request : I.Request) → (I.Reply request → σ → Prop) → σ → Prop}

theorem wp_bind (p : Program I α) (f : α → Program I β) (Q : β → σ → Prop) :
    (p.bind f).wp asks Q = p.wp asks fun a => (f a).wp asks Q := by
  induction p with
  | done a => rfl
  | ask request next ih => exact congrArg (asks request) (funext ih)

theorem wp_map (f : α → β) (p : Program I α) (Q : β → σ → Prop) :
    (f <$> p).wp asks Q = p.wp asks fun a => Q (f a) := by
  rw [map_eq_pure_bind]
  exact wp_bind p _ Q

/-- What a program that answers the requests of another one has to meet, the other one has to meet
by way of it: `wp` of a program that is put `through` a handler. -/
theorem wp_through {J : Interface} (handle : (request : I.Request) → Program J (I.Reply request))
    {asks : (request : J.Request) → (J.Reply request → σ → Prop) → σ → Prop} (p : Program I α)
    (Q : α → σ → Prop) :
    (p.through handle).wp asks Q = p.wp (fun request => (handle request).wp asks) Q := by
  induction p with
  | done a => rfl
  | ask request next ih =>
      exact (wp_bind ..).trans (congrArg ((handle request).wp asks) (funext ih))

/-- What holds before a request also does so if more is wanted after it and more is had. -/
def MonoAsks (asks : (request : I.Request) → (I.Reply request → σ → Prop) → σ → Prop) : Prop :=
  ∀ request k k' s, (∀ reply t, k reply t → k' reply t) → asks request k s → asks request k' s

theorem wp_mono (hasks : MonoAsks asks) {Q Q' : α → σ → Prop} (hQ : ∀ a s, Q a s → Q' a s)
    (p : Program I α) : ∀ s, p.wp asks Q s → p.wp asks Q' s := by
  induction p with
  | done a => exact hQ a
  | ask request next ih => exact fun s => hasks request _ _ s ih

end Program

/-! ## Operations -/

namespace Operation

variable {α β σ : Type}
  {asks : (request : World.Request) → (World.Reply request → σ → Prop) → σ → Prop}
  {Q : Except LedgerError β → σ → Prop}

/-- A condition on what a first operation ends in, so that a condition holds when a second one
follows on success.  It is what `Operation.wp_bind` asks of the first one. -/
def Then (asks : (request : World.Request) → (World.Reply request → σ → Prop) → σ → Prop)
    (f : α → Operation β) (Q : Except LedgerError β → σ → Prop) : Except LedgerError α → σ → Prop
  | .ok a => (f a).run.wp asks Q
  | .error e => Q (.error e)

theorem wp_bind (o : Operation α) (f : α → Operation β) (Q : Except LedgerError β → σ → Prop) :
    (o >>= f).run.wp asks Q = o.run.wp asks (Then asks f Q) := by
  rw [ExceptT.run_bind]
  refine (Program.wp_bind o.run _ Q).trans (congrArg _ (funext fun r => ?_))
  cases r with
  | ok a => rfl
  | error e => rfl

theorem wp_lift (p : Program World β) (Q : Except LedgerError β → σ → Prop) :
    (liftM p : Operation β).run.wp asks Q = p.wp asks fun a => Q (.ok a) := by
  rw [ExceptT.run_liftM]
  exact Program.wp_map ..

theorem wp_lift_bind (p : Program World α) (f : α → Operation β)
    (Q : Except LedgerError β → σ → Prop) :
    ((liftM p : Operation α) >>= f).run.wp asks Q = p.wp asks fun a => (f a).run.wp asks Q := by
  rw [wp_bind, wp_lift]
  rfl

theorem wp_ask_bind {q : Store.Request} {f : q.Answer → Operation β} {s : σ}
    (h : (World.store q).wp asks (fun r => Then asks f Q (r.mapError .store)) s) :
    (Operation.ask q >>= f).run.wp asks Q s := by
  have hask : (Operation.ask q).run.wp asks (Then asks f Q) =
      (World.store q).wp asks fun r => Then asks f Q (r.mapError .store) := by
    rw [Operation.ask, wp_lift_bind]
    refine congrArg _ (funext fun r => ?_)
    cases r with
    | ok a => rfl
    | error e => rfl
  rw [wp_bind, hask]
  exact h

theorem wp_lawful_bind {x : Except DomainError α} {f : α → Operation β} {s : σ}
    (hok : ∀ a, x = .ok a → (f a).run.wp asks Q s)
    (herror : ∀ e, x = .error e → Q (.error (.domain e)) s) :
    (Operation.lawful x >>= f).run.wp asks Q s := by
  cases x with
  | ok a => exact hok a rfl
  | error e => exact herror e rfl

theorem wp_money_bind {x : Except MoneyError α} {f : α → Operation β} {s : σ}
    (hok : ∀ a, x = .ok a → (f a).run.wp asks Q s)
    (herror : ∀ e, x = .error e → Q (.error (.domain (.ofMoney e))) s) :
    (Operation.money x >>= f).run.wp asks Q s := by
  cases x with
  | ok a => exact hok a rfl
  | error e => exact herror e rfl

/-- What is wanted after an attempt: the condition, or, if `isVersionConflict` says that the race is
lost, what lets the operation go on. -/
def Attempted (again : σ → Prop) (Q : Except LedgerError β → σ → Prop) :
    Except LedgerError β → σ → Prop
  | .ok a, s => Q (.ok a) s
  | .error e, s => if e.isVersionConflict then again s else Q (.error e) s

theorem attempted_error {again : σ → Prop} {e : LedgerError} {s : σ}
    (he : e.isVersionConflict = false) (h : Q (.error e) s) : Attempted again Q (.error e) s := by
  show if e.isVersionConflict then again s else Q (.error e) s
  rw [he]
  exact h

theorem wp_attempt (hasks : Program.MonoAsks (I := World) asks) {again : σ → Prop}
    {once more : Operation β} {s : σ} (honce : once.run.wp asks (Attempted again Q) s)
    (hlost : ∀ t, again t → more.run.wp asks Q t) :
    (tryCatch once fun e => if e.isVersionConflict then more else throw e).run.wp asks Q s := by
  rw [ExceptT.run_tryCatch]
  refine (congrFun (Program.wp_bind once.run _ Q) s).mpr
    (Program.wp_mono hasks (fun r t hr => ?_) once.run s honce)
  cases r with
  | ok a => exact hr
  | error e =>
      simp only [Attempted] at hr
      show Program.wp asks (if e.isVersionConflict = true then more else throw e).run Q t
      split
      · rename_i he
        rw [if_pos he] at hr
        exact hlost t hr
      · rename_i he
        rw [if_neg he] at hr
        exact hr

/-- What holds of every attempt that does not lose the race, and of giving up after as many as the
policy allows, holds of `retrying`, if pauses change nothing of what lets it go on; that can depend
on how many races have been lost. -/
theorem wp_retrying_counted (hasks : Program.MonoAsks (I := World) asks)
    (again : Nat → σ → Prop) {policy : RetryPolicy} {name : String} {once : Operation β}
    (hpause : ∀ lost attempt t, again lost t →
      (backOff policy name attempt).wp asks (fun _ => again lost) t)
    (hlog : ∀ lost line t, again lost t → asks (.log line) (fun _ => again lost) t)
    (honce : ∀ lost t, lost < policy.attempts → again lost t →
      once.run.wp asks (Attempted (again (lost + 1)) Q) t)
    (hexhausted : ∀ t, again policy.attempts t → Q (.error (.exhausted policy.attempts)) t) {s : σ}
    (hs : again 0 s) : (Operation.retrying policy name once).run.wp asks Q s := by
  have hattempts : 0 + 1 + (policy.attempts - 1) = policy.attempts := by
    have : 1 ≤ policy.attempts := Nat.le_max_left ..
    omega
  suffices hfrom : ∀ left lost t, lost + 1 + left = policy.attempts → again lost t →
      (Operation.retryFrom policy name once (lost + 1) left).run.wp asks Q t from
    hfrom _ 0 s hattempts hs
  intro left
  induction left with
  | zero =>
      intro lost t hlost ht
      refine wp_attempt hasks (honce lost t (by omega) ht) fun u hu => ?_
      refine hasks _ _ _ u (fun _ v hv => ?_) (hlog _ _ u hu)
      rw [show lost + 1 = policy.attempts from hlost] at hv ⊢
      exact hexhausted v hv
  | succ left ih =>
      intro lost t hlost ht
      refine wp_attempt hasks (honce lost t (by omega) ht) fun u hu => ?_
      rw [wp_lift_bind]
      exact Program.wp_mono hasks (fun _ v hv => ih (lost + 1) v (by omega) hv) _ u
        (hpause _ _ u hu)

/-- The case of `wp_retrying_counted` in which it does not matter how many races have been lost. -/
theorem wp_retrying (hasks : Program.MonoAsks (I := World) asks) {again : σ → Prop}
    {policy : RetryPolicy} {name : String} {once : Operation β}
    (hpause : ∀ attempt t, again t → (backOff policy name attempt).wp asks (fun _ => again) t)
    (hlog : ∀ line t, again t → asks (.log line) (fun _ => again) t)
    (honce : ∀ t, again t → once.run.wp asks (Attempted again Q) t)
    (hexhausted : ∀ n t, again t → Q (.error (.exhausted n)) t) {s : σ} (hs : again s) :
    (Operation.retrying policy name once).run.wp asks Q s :=
  wp_retrying_counted hasks (fun _ => again) (fun _ => hpause) (fun _ => hlog)
    (fun _ t _ => honce t) (hexhausted _) hs

end Operation

/-! ## Rules of conduct -/

/-- What may be asked in a state, which replies are to be expected, and to which state they lead. -/
structure Conduct (I : Interface) (σ : Type) where
  may : σ → I.Request → Prop
  hears : (request : I.Request) → I.Reply request → Prop
  moved : σ → (request : I.Request) → I.Reply request → σ

namespace Conduct

variable {I : Interface} {α σ : Type} (C : Conduct I σ)

/-- Before a request: it is allowed, and the condition holds whatever the reply is. -/
def asks (request : I.Request) (k : I.Reply request → σ → Prop) (s : σ) : Prop :=
  C.may s request ∧ ∀ reply, C.hears request reply → k reply (C.moved s request reply)

/-- The program keeps the rules from a state on, and its answer meets the condition. -/
abbrev Keeps (p : Program I α) (Q : α → σ → Prop) (s : σ) : Prop :=
  p.wp C.asks Q s

def after (s : σ) (turns : List (Turn I)) : σ :=
  turns.foldl (fun s t => C.moved s t.request t.reply) s

/-- Every request of the turns was allowed by `may` where it was made. -/
def Allows (s : σ) (turns : List (Turn I)) : Prop :=
  ∀ before t, before ++ [t] <+: turns → C.may (C.after s before) t.request

variable {C} {s : σ} {turns more : List (Turn I)} {t : Turn I}

theorem mono_asks : Program.MonoAsks C.asks :=
  fun _ _ _ _ hk h => ⟨h.1, fun reply hreply => hk reply _ (h.2 reply hreply)⟩

@[simp] theorem after_nil : C.after s [] = s := rfl

@[simp] theorem after_concat :
    C.after s (turns ++ [t]) = C.moved (C.after s turns) t.request t.reply := by
  simp [after]

theorem after_append : C.after s (turns ++ more) = C.after (C.after s turns) more :=
  List.foldl_append

theorem allows_nil : C.Allows s [] :=
  fun _ _ h => absurd (List.prefix_nil.mp h) (by simp)

theorem Allows.earlier (h : C.Allows s more) (hpre : turns <+: more) : C.Allows s turns :=
  fun before t ht => h before t (ht.trans hpre)

theorem Allows.later (h : C.Allows s (turns ++ more)) : C.Allows (C.after s turns) more := by
  intro before t ht
  have hall := h (turns ++ before) t (by
    rw [List.append_assoc]
    exact (List.prefix_append_right_inj turns).mpr ht)
  rwa [after_append] at hall

theorem allows_concat_iff :
    C.Allows s (turns ++ [t]) ↔ C.Allows s turns ∧ C.may (C.after s turns) t.request := by
  constructor
  · exact fun h => ⟨h.earlier (List.prefix_append ..), h turns t (List.prefix_refl _)⟩
  · rintro ⟨h, ht⟩ before u hu
    rcases List.prefix_concat_iff.mp hu with heq | hpre
    · obtain ⟨rfl, hlast⟩ := List.append_inj' heq rfl
      exact (List.cons.inj hlast).1 ▸ ht
    · exact h before u hpre

/-- In every conversation in which it `hears` what is to be expected, a program that keeps the rules
has asked only what was allowed, and what is left of it keeps them. -/
theorem Keeps.converses {p q : Program I α} {Q : α → σ → Prop} (h : C.Keeps p Q s)
    (hconverse : p.Converses turns q) (hears : ∀ t ∈ turns, C.hears t.request t.reply) :
    C.Allows s turns ∧ C.Keeps q Q (C.after s turns) := by
  induction hconverse with
  | nil => exact ⟨allows_nil, h⟩
  | concat reply _ ih =>
      obtain ⟨hallows, hmay, hnext⟩ := ih fun t ht => hears t (List.mem_append_left _ ht)
      rw [allows_concat_iff, after_concat]
      exact ⟨⟨hallows, hmay⟩,
        hnext reply (hears ⟨_, reply⟩ (List.mem_append_right _ (List.mem_singleton.mpr rfl)))⟩

/-- A program keeps the rules of its surroundings if it keeps rules of its own, and each request that
these allow is answered within the others, so that the states go along with each other. -/
theorem Keeps.through {J : Interface} {τ : Type} {D : Conduct J τ}
    {handle : (request : I.Request) → Program J (I.Reply request)} {R : σ → τ → Prop}
    (hhandle : ∀ request s t, R s t → C.may s request → D.Keeps (handle request)
      (fun reply t' => C.hears request reply ∧ R (C.moved s request reply) t') t)
    {p : Program I α} {Q : α → σ → Prop} (h : C.Keeps p Q s) {t : τ} (hR : R s t) :
    D.Keeps (p.through handle) (fun a t' => ∃ s', R s' t' ∧ Q a s') t := by
  rw [Keeps, Program.wp_through]
  induction p generalizing s t with
  | done a => exact ⟨s, hR, h⟩
  | ask request next ih =>
      refine Program.wp_mono mono_asks (fun reply t' hreply => ?_) _ t (hhandle request s t hR h.1)
      exact ih reply (h.2 reply hreply.1) hreply.2

end Conduct

end BalanceLedger
