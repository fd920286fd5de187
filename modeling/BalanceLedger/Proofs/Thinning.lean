/-
# `Proofs.Thinning` — interleavings without some of their parties

Of the parties of an interleaving some are kept and the others are left out.  The steps
of those that are kept are made again by `thin`, in the same order and at the same
moments: whoever is kept reads the same clock, draws the same identifiers and hears of
shutdown at the same time.  What changes is that a party has a lower place if others
have been left out before it, its `rank`.

A step that has had no effect is left out as well.  It may have had none because an
identifier was taken by somebody who is not there any more, and then it would have an
effect now.

The two interleavings mirror each other, as `Mirrors` has it, as long as the store
answers those who are kept alike, which is for the parties to show.  It is asked for one
step at a time here, by `AnswersAlike`; everything else about a step is the same
whatever the parties do.  `Mirrors.run` is the induction, with `Mirrors.start`,
`Mirrors.stop` and `Mirrors.act` for the steps.

Nothing is said of what the parties are.  The predicate `kept` is about places only, so
that it can be chosen by what is known at the end of the run.
-/
import BalanceLedger.Proofs.Instants
import Mathlib.Data.Nat.Count

namespace BalanceLedger

open Store (ChangeSet Memory)

/-- The parties do not differ but in how many commits came before their start. -/
structure Party.Mirrors {τ α : Type} (p q : Party τ α) : Prop where
  task : q.task = p.task
  stopping : q.stopping = p.stopping
  drawn : q.drawn = p.drawn
  rest : q.rest = p.rest

namespace Interleaving

variable {τ α : Type}

/-- The place of a party when only some are `kept`: how many of those who have started before it
are. -/
def rank (kept : Nat → Bool) (place : Nat) : Nat :=
  Nat.count (fun n => kept n = true) place

def takes (s : Interleaving τ α) (place : Nat) (w : Moment) : Bool :=
  match s.parties[place]? with
  | none => false
  | some p =>
    match p.rest with
    | .done _ => false
    | .ask request _ => (w.drawn request).all s.isFresh

/-- A step as it is made when only some parties are kept. -/
def thinned? (kept : Nat → Bool) (s : Interleaving τ α) : Step τ → Option (Step τ)
  | .start task => if kept s.parties.length then some (.start task) else none
  | .stop place => if kept place then some (.stop (rank kept place)) else none
  | .act place w =>
    if kept place && s.takes place w then some (.act (rank kept place) w) else none

/-! ## Places -/

section

variable {kept : Nat → Bool} {place n : Nat}

theorem rank_succ_of_kept (h : kept place = true) :
    rank kept (place + 1) = rank kept place + 1 :=
  Nat.count_succ_eq_succ_count_iff.mpr h

theorem rank_succ_of_not_kept (h : kept place = false) : rank kept (place + 1) = rank kept place :=
  Nat.count_succ_eq_count_iff.mpr (by simp [h])

theorem rank_mono (h : n ≤ place) : rank kept n ≤ rank kept place :=
  Nat.count_monotone _ h

theorem rank_injective (hn : kept n = true) (hplace : kept place = true)
    (h : rank kept n = rank kept place) : n = place :=
  Nat.count_injective hn hplace h

theorem exists_rank_eq {m : Nat} (h : m < rank kept place) :
    ∃ n, n < place ∧ kept n = true ∧ rank kept n = m := by
  induction place with
  | zero => exact absurd h (by simp [rank])
  | succ place ih =>
      by_cases hlt : m < rank kept place
      · obtain ⟨n, hn, hkept⟩ := ih hlt
        exact ⟨n, by omega, hkept⟩
      · cases hkept : kept place with
        | true =>
            rw [rank_succ_of_kept hkept] at h
            exact ⟨place, by omega, hkept, by omega⟩
        | false =>
            rw [rank_succ_of_not_kept hkept] at h
            exact absurd h hlt

end

/-! ## Mirrors -/

/-- The interleaving has come as far as another one, in which only some parties are kept. -/
structure Mirrors (kept : Nat → Bool) (s t : Interleaving τ α) : Prop where
  length : t.parties.length = rank kept s.parties.length
  party : ∀ (n : Nat) (p : Party τ α), kept n = true → s.parties[n]? = some p →
    ∃ q, t.parties[rank kept n]? = some q ∧ p.Mirrors q
  journal : t.journal =
    (s.journal.filter fun p => kept p.1).map fun p => (rank kept p.1, p.2)

variable {kept : Nat → Bool} {s t : Interleaving τ α}

theorem Mirrors.exists_party (h : Mirrors kept s t) {q : Party τ α} (hq : q ∈ t.parties) :
    ∃ p ∈ s.parties, p.Mirrors q := by
  obtain ⟨m, hm⟩ := List.mem_iff_getElem?.mp hq
  have hlt := (List.getElem?_eq_some_iff.mp hm).1
  rw [h.length] at hlt
  obtain ⟨n, hn, hkept, rfl⟩ := exists_rank_eq hlt
  obtain ⟨q', hq', hmirrors⟩ := h.party n _ hkept (List.getElem?_eq_getElem hn)
  obtain rfl := Option.some.inj (hm.symm.trans hq')
  exact ⟨_, List.getElem_mem hn, hmirrors⟩

theorem Mirrors.answer? (h : Mirrors kept s t) {place : Nat} (hkept : kept place = true) :
    t.answer? (rank kept place) = s.answer? place := by
  cases hp : s.parties[place]? with
  | some p =>
      obtain ⟨q, hq, hmirrors⟩ := h.party place p hkept hp
      rw [answer?_eq hp, answer?_eq hq, Party.answer?, Party.answer?, hmirrors.rest]
  | none =>
      have hle : t.parties.length ≤ rank kept place := by
        rw [h.length]
        exact rank_mono (List.getElem?_eq_none_iff.mp hp)
      rw [Interleaving.answer?, Interleaving.answer?, hp, List.getElem?_eq_none hle]

/-- An identifier that `isFresh` is so when some have been left out. -/
theorem Mirrors.isFresh (h : Mirrors kept s t) (hids : t.memory.ids ⊆ s.memory.ids) {id : Uuid}
    (hid : s.isFresh id = true) : t.isFresh id = true := by
  unfold Interleaving.isFresh at hid ⊢
  simp only [Bool.and_eq_true, Bool.not_eq_true', List.contains_eq_mem, decide_eq_false_iff_not,
    List.all_eq_true] at hid ⊢
  obtain ⟨hnew, hparties⟩ := hid
  refine ⟨fun hmem => hnew (hids hmem), fun q hq => ?_⟩
  obtain ⟨p, hp, hmirrors⟩ := h.exists_party hq
  rw [hmirrors.drawn]
  exact hparties p hp

theorem mirrors_on (m m' : Memory) : Mirrors kept (on m : Interleaving τ α) (on m') where
  length := by simp [on, rank]
  party n p _ hp := absurd hp (by simp [on])
  journal := rfl

/-! ## Steps -/

theorem act_of_takes {place : Nat} {w : Moment} :
    (s.takes place w = false ∧ s.act place w = s) ∨
      s.takes place w = true ∧ ∃ p request next, s.parties[place]? = some p ∧
        p.rest = .ask request next ∧ (∀ id ∈ w.drawn request, s.isFresh id = true) ∧
        s.act place w = s.answered place p w request next := by
  cases hp : s.parties[place]? with
  | none => exact .inl ⟨by simp only [takes, hp], by simp only [act, hp]⟩
  | some p =>
      cases hrest : p.rest with
      | done a => exact .inl ⟨by simp only [takes, hp, hrest], by simp only [act, hp, hrest]⟩
      | ask request next =>
          have htakes : s.takes place w = (w.drawn request).all s.isFresh := by
            simp only [takes, hp, hrest]
          have hact : s.act place w = if s.takes place w = true then
              s.answered place p w request next else s := by
            rw [htakes]
            simp only [act, hp, hrest]
          cases h : s.takes place w with
          | false => exact .inl ⟨rfl, by rw [hact, h, if_neg (by simp)]⟩
          | true =>
              refine .inr ⟨rfl, p, request, next, rfl, hrest, ?_, by rw [hact, h, if_pos rfl]⟩
              exact List.all_eq_true.mp (htakes.symm.trans h)

theorem act_eq_answered {place : Nat} {w : Moment} {p : Party τ α} {request : World.Request}
    {next : World.Reply request → Program World α} (hp : s.parties[place]? = some p)
    (hrest : p.rest = .ask request next) (hfresh : ∀ id ∈ w.drawn request, s.isFresh id = true) :
    s.act place w = s.answered place p w request next := by
  have hall : (w.drawn request).all s.isFresh = true := List.all_eq_true.mpr hfresh
  simp only [act, hp, hrest, hall, if_true]

theorem Mirrors.answered_left_out (h : Mirrors kept s t) {place : Nat} (hkept : kept place = false)
    {p : Party τ α} (w : Moment) (request : World.Request)
    (next : World.Reply request → Program World α) :
    Mirrors kept (s.answered place p w request next) t := by
  refine ⟨h.length.trans (congrArg _ List.length_set.symm), fun n q hn hq => ?_, ?_⟩
  · rcases getElem?_answered hq with ⟨rfl, -⟩ | ⟨-, hq⟩
    · exact absurd (hn.symm.trans hkept) (by simp)
    · exact h.party n q hn hq
  · rw [h.journal]
    cases hmade : s.memory.accepted? request <;>
      simp [answered, hmade, List.filter_append, hkept]

theorem Mirrors.answered (h : Mirrors kept s t) {place : Nat} (hkept : kept place = true)
    {p q : Party τ α} (hp : s.parties[place]? = some p)
    (hq : t.parties[rank kept place]? = some q) (hmirrors : p.Mirrors q) {w : Moment}
    {request : World.Request} (next : World.Reply request → Program World α)
    (hreply : (w.reply p.stopping t.memory request).1 = (w.reply p.stopping s.memory request).1)
    (haccepted : t.memory.accepted? request = s.memory.accepted? request) :
    Mirrors kept (s.answered place p w request next)
      (t.answered (rank kept place) q w request next) := by
  have hlt := (List.getElem?_eq_some_iff.mp hq).1
  refine ⟨?_, fun n r hn hr => ?_, ?_⟩
  · exact List.length_set.trans (h.length.trans (congrArg _ List.length_set.symm))
  · rcases getElem?_answered hr with ⟨rfl, rfl⟩ | ⟨hne, hr⟩
    · refine ⟨_, List.getElem?_set_self hlt, hmirrors.task, hmirrors.stopping, ?_, ?_⟩
      · exact congrArg (w.drawn request ++ ·) hmirrors.drawn
      · show next _ = next _
        rw [hmirrors.stopping, hreply]
    · obtain ⟨r', hr', hmirrors'⟩ := h.party n r hn hr
      refine ⟨r', (List.getElem?_set_ne fun heq => ?_).trans hr', hmirrors'⟩
      exact hne (rank_injective hn hkept heq.symm)
  · show t.journal ++ _ = List.map _ (List.filter _ (s.journal ++ _))
    rw [h.journal, haccepted, List.filter_append, List.map_append]
    cases s.memory.accepted? request <;> simp [hkept]

variable [Task τ α]

/-- The steps of an interleaving as they are made when only some parties are kept. -/
def thin (kept : Nat → Bool) (s : Interleaving τ α) : List (Step τ) → List (Step τ)
  | [] => []
  | x :: steps => (s.thinned? kept x).toList ++ (s.step x).thin kept steps

theorem thin_append (kept : Nat → Bool) (s : Interleaving τ α) (steps more : List (Step τ)) :
    s.thin kept (steps ++ more) = s.thin kept steps ++ (s.run steps).thin kept more := by
  induction steps generalizing s with
  | nil => rfl
  | cons x steps ih => exact (congrArg _ (ih (s.step x))).trans (List.append_assoc ..).symm

theorem Mirrors.start (h : Mirrors kept s t) (task : τ) :
    Mirrors kept (s.step (.start task)) (t.run (s.thinned? kept (.start task)).toList) := by
  cases hkept : kept s.parties.length with
  | true =>
      rw [thinned?, if_pos hkept]
      refine ⟨?_, fun n p hn hp => ?_, h.journal⟩
      · show (t.parties ++ _).length = rank kept (s.parties ++ _).length
        rw [List.length_append, List.length_append, h.length]
        exact (rank_succ_of_kept hkept).symm
      · rcases getElem?_concat_cases hp with hp | ⟨rfl, rfl⟩
        · obtain ⟨q, hq, hmirrors⟩ := h.party n p hn hp
          have hlt := (List.getElem?_eq_some_iff.mp hq).1
          exact ⟨q, (List.getElem?_append_left hlt).trans hq, hmirrors⟩
        · rw [← h.length]
          exact ⟨_, List.getElem?_concat_length, rfl, rfl, rfl, rfl⟩
  | false =>
      rw [thinned?, if_neg (by simp [hkept])]
      refine ⟨?_, fun n p hn hp => ?_, h.journal⟩
      · show t.parties.length = rank kept (s.parties ++ _).length
        rw [List.length_append, h.length]
        exact (rank_succ_of_not_kept hkept).symm
      · rcases getElem?_concat_cases hp with hp | ⟨rfl, -⟩
        · exact h.party n p hn hp
        · exact absurd (hn.symm.trans hkept) (by simp)

theorem Mirrors.stop (h : Mirrors kept s t) (place : Nat) :
    Mirrors kept (s.step (.stop place)) (t.run (s.thinned? kept (.stop place)).toList) := by
  have hlength : (s.step (.stop place)).parties.length = s.parties.length :=
    List.length_modify ..
  have hparty : ∀ n p, (s.step (.stop place)).parties[n]? = some p → ∃ p',
      s.parties[n]? = some p' ∧ p = if place = n then { p' with stopping := true } else p' := by
    intro n p hp
    simp only [step, List.getElem?_modify] at hp
    obtain ⟨p', hp', rfl⟩ := Option.map_eq_some_iff.mp hp
    exact ⟨p', hp', rfl⟩
  cases hkept : kept place with
  | true =>
      rw [thinned?, if_pos hkept]
      refine ⟨?_, fun n p hn hp => ?_, h.journal⟩
      · rw [hlength, ← h.length]
        exact List.length_modify ..
      · obtain ⟨p', hp', rfl⟩ := hparty n p hp
        obtain ⟨q, hq, hmirrors⟩ := h.party n p' hn hp'
        refine ⟨if rank kept place = rank kept n then { q with stopping := true } else q, ?_, ?_⟩
        · show (t.parties.modify _ _)[_]? = _
          rw [List.getElem?_modify, hq]
          rfl
        · by_cases heq : place = n
          · rw [if_pos heq, if_pos (congrArg _ heq)]
            exact ⟨hmirrors.task, rfl, hmirrors.drawn, hmirrors.rest⟩
          · rw [if_neg heq, if_neg fun hrank => heq (rank_injective hkept hn hrank)]
            exact hmirrors
  | false =>
      rw [thinned?, if_neg (by simp [hkept])]
      refine ⟨h.length.trans (congrArg _ hlength.symm), fun n p hn hp => ?_, h.journal⟩
      obtain ⟨p', hp', rfl⟩ := hparty n p hp
      rw [if_neg]
      · exact h.party n p' hn hp'
      · rintro rfl
        exact absurd (hn.symm.trans hkept) (by simp)

/-- Whoever is kept gets the same answer at a moment, and the smaller store knows no other entries.
-/
structure AnswersAlike (kept : Nat → Bool) (s t : Interleaving τ α) (place : Nat) (w : Moment) :
    Prop where
  ids : t.memory.ids ⊆ s.memory.ids
  reply : ∀ (p : Party τ α) (request : World.Request)
    (next : World.Reply request → Program World α), kept place = true →
    s.parties[place]? = some p → p.rest = .ask request next →
    (w.reply p.stopping t.memory request).1 = (w.reply p.stopping s.memory request).1 ∧
      t.memory.accepted? request = s.memory.accepted? request

theorem Mirrors.act (h : Mirrors kept s t) {place : Nat} {w : Moment}
    (halike : AnswersAlike kept s t place w) :
    Mirrors kept (s.step (.act place w)) (t.run (s.thinned? kept (.act place w)).toList) := by
  show Mirrors kept (s.act place w) _
  rw [thinned?]
  rcases s.act_of_takes with ⟨htakes, hact⟩ | ⟨htakes, p, request, next, hp, hrest, hfresh, hact⟩
  · rw [hact, htakes, Bool.and_false, if_neg (by simp)]
    exact h
  · rw [hact, htakes, Bool.and_true]
    cases hkept : kept place with
    | false =>
        rw [if_neg (by simp)]
        exact h.answered_left_out hkept w request next
    | true =>
        obtain ⟨q, hq, hmirrors⟩ := h.party place p hkept hp
        obtain ⟨hreply, haccepted⟩ := halike.reply p request next hkept hp hrest
        have hqact : t.act (rank kept place) w = t.answered (rank kept place) q w request next :=
          act_eq_answered hq (hmirrors.rest.trans hrest) fun id hid =>
            h.isFresh halike.ids (hfresh id hid)
        rw [if_pos rfl]
        show Mirrors kept _ (t.act (rank kept place) w)
        rw [hqact]
        exact h.answered hkept hp hq hmirrors next hreply haccepted

/-- Interleavings go on mirroring each other for as long as whoever is kept gets the same answers,
`AnswersAlike` at each of the steps. -/
theorem Mirrors.run (h : Mirrors kept s t) (steps : List (Step τ))
    (halike : ∀ before place w, before ++ [.act place w] <+: steps →
      Mirrors kept (s.run before) (t.run (s.thin kept before)) →
      AnswersAlike kept (s.run before) (t.run (s.thin kept before)) place w) :
    Mirrors kept (s.run steps) (t.run (s.thin kept steps)) := by
  induction steps using List.reverseRecOn with
  | nil => exact h
  | append_singleton steps x ih =>
      have hbefore := ih fun before place w hpre =>
        halike before place w (hpre.trans (List.prefix_append ..))
      rw [run_append, thin_append, run_append]
      show Mirrors kept ((s.run steps).step x) (Interleaving.run _ (_ ++ []))
      rw [List.append_nil]
      cases x with
      | start task => exact hbefore.start task
      | stop place => exact hbefore.stop place
      | act place w => exact hbefore.act (halike steps place w (List.prefix_refl _) hbefore)

end Interleaving

end BalanceLedger
