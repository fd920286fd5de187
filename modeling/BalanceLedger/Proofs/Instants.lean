/-
# `Proofs.Instants` — what an interleaving passes through

A list of steps leads through as many states as it has steps, and one more; `upTo` has
them by number.  A party is under way from the state in which it has started to the
first one in which it has answered, which is `During`; it keeps its task and its answer
from there on, by `GoesOn`.

A step commits once at most.  So while a party is under way, an interleaving passes
through every store that the commits of that time have left, one after the other: to say
that something held of the store after some of these commits is to say that it held at
an instant between the start and the return of the party.  `During.exists_journal` is
that step from journals to instants, and `exists_return` finds the instant of the
return.

The rules about programs speak of journals, because a party does not see the steps of
the others.  What a caller can observe are instants.  This module is all that stands
between the two.
-/
import BalanceLedger.Proofs.Interleaving
import Mathlib.Data.List.Induction
import Mathlib.Data.List.Infix
import Mathlib.Data.Nat.Find

namespace BalanceLedger

open Store (ChangeSet Memory)

/-- The party has become another one by going on. -/
structure Party.GoesOn {τ α : Type} (p q : Party τ α) : Prop where
  task : q.task = p.task
  since : q.since = p.since
  answer : ∀ a, p.answer? = some a → q.answer? = some a

namespace Party.GoesOn

variable {τ α : Type} {p q r : Party τ α}

theorem refl (p : Party τ α) : p.GoesOn p :=
  ⟨rfl, rfl, fun _ h => h⟩

theorem trans (hpq : p.GoesOn q) (hqr : q.GoesOn r) : p.GoesOn r where
  task := hqr.task.trans hpq.task
  since := hqr.since.trans hpq.since
  answer a h := hqr.answer a (hpq.answer a h)

theorem of_ask {request : World.Request} {next : World.Reply request → Program World α}
    (hrest : p.rest = .ask request next) (drawn : List Uuid) (rest : Program World α) :
    p.GoesOn { p with drawn, rest } where
  task := rfl
  since := rfl
  answer a h := absurd (hrest.symm.trans (Party.rest_eq_done h)) (by simp)

end Party.GoesOn

namespace Interleaving

variable {τ α : Type} [Task τ α] {s : Interleaving τ α} {p q : Party τ α} {place : Nat}

/-! ## One step -/

theorem exists_goesOn_step (hp : s.parties[place]? = some p) (x : Step τ) :
    ∃ q, (s.step x).parties[place]? = some q ∧ p.GoesOn q := by
  have hlt := (List.getElem?_eq_some_iff.mp hp).1
  cases x with
  | start task =>
      refine ⟨p, ?_, .refl p⟩
      simp only [step]
      rw [List.getElem?_append_left hlt, hp]
  | stop n =>
      refine ⟨if n = place then { p with stopping := true } else p, ?_, ?_⟩
      · simp only [step, List.getElem?_modify, hp]
        rfl
      · split
        · exact ⟨rfl, rfl, fun _ h => h⟩
        · exact .refl p
  | act n w =>
      rcases s.act_cases n w with heq | ⟨p', request, next, hp', hrest, -, heq⟩
      · exact ⟨p, by rw [step, heq, hp], .refl p⟩
      · rw [step, heq]
        by_cases hn : n = place
        · subst hn
          obtain rfl := Option.some.inj (hp.symm.trans hp')
          exact ⟨_, List.getElem?_set_self hlt, .of_ask hrest _ _⟩
        · exact ⟨p, (List.getElem?_set_ne hn).trans hp, .refl p⟩

theorem goesOn_or_starts {x : Step τ} (hq : (s.step x).parties[place]? = some q) :
    (∃ p, s.parties[place]? = some p ∧ p.GoesOn q) ∨
      q.since = s.journal.length ∧ (s.step x).journal = s.journal := by
  cases hp : s.parties[place]? with
  | some p =>
      obtain ⟨q', hq', hgoes⟩ := exists_goesOn_step hp x
      obtain rfl := Option.some.inj (hq.symm.trans hq')
      exact .inl ⟨p, rfl, hgoes⟩
  | none =>
      refine .inr ?_
      cases x with
      | start task =>
          rcases getElem?_concat_cases hq with hq | ⟨-, rfl⟩
          · exact absurd (hp.symm.trans hq) (by simp)
          · exact ⟨rfl, rfl⟩
      | stop n =>
          obtain ⟨p, hp', -⟩ := getElem?_stop hq
          exact absurd (hp.symm.trans hp') (by simp)
      | act n w =>
          rcases s.act_cases n w with heq | ⟨p', request, next, hp', -, -, heq⟩
          · rw [step, heq, hp] at hq
            exact absurd hq (by simp)
          · rw [step, heq] at hq
            rcases getElem?_answered hq with ⟨rfl, -⟩ | ⟨-, hq⟩
            · exact absurd (hp.symm.trans hp') (by simp)
            · exact absurd (hp.symm.trans hq) (by simp)

/-- A step commits once at most. -/
theorem journal_step (s : Interleaving τ α) (x : Step τ) :
    (s.step x).journal = s.journal ∨ ∃ made, (s.step x).journal = s.journal ++ [made] := by
  cases x with
  | start task => exact .inl rfl
  | stop n => exact .inl rfl
  | act n w =>
      rcases s.act_cases n w with heq | ⟨p, request, next, -, -, -, heq⟩
      · exact .inl (by rw [step, heq])
      · rw [step, heq]
        unfold answered
        cases s.memory.accepted? request with
        | none => exact .inl (by simp)
        | some c => exact .inr ⟨(n, c), rfl⟩

/-! ## Many steps -/

theorem exists_goesOn_run (hp : s.parties[place]? = some p) (steps : List (Step τ)) :
    ∃ q, (s.run steps).parties[place]? = some q ∧ p.GoesOn q := by
  induction steps generalizing s p with
  | nil => exact ⟨p, hp, .refl p⟩
  | cons x steps ih =>
      obtain ⟨q, hq, hpq⟩ := exists_goesOn_step hp x
      obtain ⟨r, hr, hqr⟩ := ih hq
      exact ⟨r, hr, hpq.trans hqr⟩

theorem journal_run_mono (s : Interleaving τ α) (steps : List (Step τ)) :
    s.journal <+: (s.run steps).journal := by
  induction steps generalizing s with
  | nil => exact List.prefix_refl _
  | cons x steps ih =>
      refine List.IsPrefix.trans ?_ (ih (s.step x))
      rcases s.journal_step x with heq | ⟨made, heq⟩
      · rw [heq]
      · exact heq ▸ List.prefix_append ..

def upTo (s : Interleaving τ α) (steps : List (Step τ)) (n : Nat) : Interleaving τ α :=
  s.run (steps.take n)

variable {steps : List (Step τ)} {n r : Nat}

theorem upTo_length (s : Interleaving τ α) (steps : List (Step τ)) :
    s.upTo steps steps.length = s.run steps := by
  rw [upTo, List.take_length]

theorem upTo_append (s : Interleaving τ α) (more : List (Step τ)) (hn : n ≤ steps.length) :
    s.upTo (steps ++ more) n = s.upTo steps n := by
  rw [upTo, upTo, List.take_append_of_le_length hn]

theorem upTo_take (s : Interleaving τ α) (hn : n ≤ r) :
    s.upTo (steps.take r) n = s.upTo steps n := by
  rw [upTo, upTo, List.take_take, Nat.min_eq_left hn]

theorem journal_upTo_mono (s : Interleaving τ α) (steps : List (Step τ)) (n : Nat) :
    (s.upTo steps n).journal <+: (s.run steps).journal := by
  have h := (s.upTo steps n).journal_run_mono (steps.drop n)
  rwa [upTo, ← run_append, List.take_append_drop] at h

theorem exists_goesOn_upTo (hp : (s.upTo steps n).parties[place]? = some p) :
    ∃ q, (s.run steps).parties[place]? = some q ∧ p.GoesOn q := by
  obtain ⟨q, hq, hpq⟩ := exists_goesOn_run hp (steps.drop n)
  rw [upTo, ← run_append, List.take_append_drop] at hq
  exact ⟨q, hq, hpq⟩

/-- Where nobody has been before, every journal from the start of a party on has been the journal
once. -/
theorem exists_upTo_journal (hs : s.parties = []) (hp : (s.run steps).parties[place]? = some p)
    {j : List (Nat × ChangeSet)} (hj : j <+: (s.run steps).journal)
    (hsince : p.since ≤ j.length) :
    ∃ n ≤ steps.length, (s.upTo steps n).hasStarted place ∧ (s.upTo steps n).journal = j := by
  induction steps using List.reverseRecOn generalizing p with
  | nil =>
      rw [run, List.foldl_nil, hs] at hp
      exact absurd hp (by simp)
  | append_singleton steps x ih =>
      have hstep : s.run (steps ++ [x]) = (s.run steps).step x := run_append ..
      -- the journal is that of now, or it has been that of an earlier instant
      have hnow : (s.run (steps ++ [x])).journal = j → ∃ n ≤ (steps ++ [x]).length,
          (s.upTo (steps ++ [x]) n).hasStarted place ∧ (s.upTo (steps ++ [x]) n).journal = j := by
        intro heq
        refine ⟨_, Nat.le_refl _, ?_, by rw [upTo_length, heq]⟩
        rw [upTo_length]
        exact (List.getElem?_eq_some_iff.mp hp).1
      rw [hstep] at hp hj
      rcases goesOn_or_starts hp with ⟨p', hp', hgoes⟩ | ⟨hstart, hsame⟩
      · have hbefore : j <+: (s.run steps).journal → ∃ n ≤ (steps ++ [x]).length,
            (s.upTo (steps ++ [x]) n).hasStarted place ∧
              (s.upTo (steps ++ [x]) n).journal = j := by
          intro hj
          obtain ⟨n, hn, hstarted, heq⟩ := ih hp' hj (hgoes.since ▸ hsince)
          rw [← upTo_append _ [x] hn] at hstarted heq
          refine ⟨n, hn.trans ?_, hstarted, heq⟩
          rw [List.length_append]
          exact Nat.le_add_right ..
        rcases journal_step (s.run steps) x with heq | ⟨made, heq⟩
        · exact hbefore (heq ▸ hj)
        · rw [heq] at hj
          rcases List.prefix_concat_iff.mp hj with hall | hj
          · exact hnow (by rw [hstep, heq, hall])
          · exact hbefore hj
      · -- the party has just started, so nothing has been committed since
        rw [hsame] at hj
        refine hnow ?_
        rw [hstep, hsame]
        exact (hj.eq_of_length_le (hstart ▸ hsince)).symm

/-! ## From start to return -/

/-- At this instant the party has started, and it has not returned before. -/
structure During (s : Interleaving τ α) (steps : List (Step τ)) (place n : Nat) : Prop where
  reached : n ≤ steps.length
  started : (s.upTo steps n).hasStarted place
  unanswered : ∀ k < n, (s.upTo steps k).answer? place = none

theorem During.of_le (h : s.During steps place r) (hn : n ≤ r)
    (hstarted : (s.upTo steps n).hasStarted place) : s.During steps place n where
  reached := hn.trans h.reached
  started := hstarted
  unanswered k hk := h.unanswered k (Nat.lt_of_lt_of_le hk hn)

/-- What has been committed while a party is under way, has been committed step by step: each
journal in between is the journal `upTo` an instant. -/
theorem During.exists_journal (hs : s.parties = []) (h : s.During steps place r)
    (hp : (s.upTo steps r).parties[place]? = some p) {j : List (Nat × ChangeSet)}
    (hj : j <+: (s.upTo steps r).journal) (hsince : p.since ≤ j.length) :
    ∃ n ≤ r, s.During steps place n ∧ (s.upTo steps n).journal = j := by
  obtain ⟨n, hn, hstarted, heq⟩ := exists_upTo_journal hs hp hj hsince
  rw [List.length_take] at hn
  have hnr : n ≤ r := hn.trans (Nat.min_le_left ..)
  rw [upTo_take _ hnr] at hstarted heq
  exact ⟨n, hnr, h.of_le hnr hstarted, heq⟩

/-- There is an instant at which a party that has returned returns. -/
theorem exists_return (hp : (s.run steps).parties[place]? = some p) {a : α}
    (ha : p.answer? = some a) :
    ∃ r q, s.During steps place r ∧ (s.upTo steps r).parties[place]? = some q ∧ q.GoesOn p ∧
      q.answer? = some a := by
  classical
  have hreturned : ∃ n, (s.upTo steps n).answer? place ≠ none :=
    ⟨steps.length, by rw [upTo_length, answer?_eq hp, ha]; simp⟩
  -- the first instant at which there is an answer
  let r := Nat.find hreturned
  obtain ⟨b, hb⟩ := Option.ne_none_iff_exists'.mp (Nat.find_spec hreturned)
  obtain ⟨q, hq, hqb⟩ := Option.bind_eq_some_iff.mp hb
  obtain ⟨p', hp', hgoes⟩ := exists_goesOn_upTo hq
  obtain rfl := Option.some.inj (hp.symm.trans hp')
  obtain rfl := Option.some.inj (ha.symm.trans (hgoes.answer b hqb))
  refine ⟨r, q, ⟨?_, (List.getElem?_eq_some_iff.mp hq).1, fun k hk => ?_⟩, hq, hgoes, hqb⟩
  · refine Nat.find_min' hreturned ?_
    rw [upTo_length, answer?_eq hp, ha]
    simp
  · exact Classical.byContradiction fun hne => Nat.find_min hreturned hk hne

end Interleaving

end BalanceLedger
