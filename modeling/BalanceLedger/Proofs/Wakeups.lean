/-
# `Proofs.Wakeups` — computations that are run until the signal, and no wake-up lost

Somebody who runs a computation until the signal comes is a waiter, too, but one that
has something to do meanwhile.  It looks at the signal before every poll, and as it
first looks when it has just registered, the computation is not polled at all if the
flag is set by then.

Runners share the signal with everybody else, in a `Scene`.  What keeps their affairs
apart is that each has a waiter of its own, which nobody else moves; so a runner stands
where its own turns have brought it, and all that others do to it is to raise the
signal.  `Stands` says where that is, by the number of its turns, and `Tidy` that every
runner has its own waiter.  With `Tidy.keeps` for the steps of others and
`Sound.stands_step` for its own, a runner `Follows` its computation through any steps.

Once the signal has been raised a runner has its answer after two turns: one to finish
the poll it was about to make, and one to look.  The measure for that is `turnsLeft`.

`no_wakeup_lost` has both kinds of parties.  `ReachesAll` is about those who wait, after
any steps; `Answers` is about a computation that is begun after some steps and run in
the steps after these.  Polls that the flag comes between, and a flag that is set before
the first poll, are among the cases.
-/
import BalanceLedger.Proofs.Signalling

namespace BalanceLedger

namespace StopSignal

variable {α : Type} {notifier : Notifier} {s : StopSignal} {place : Nat} {p : Phase}

/-! ## Runners -/

/-- Where the runner of a computation stands after steps of its own. -/
inductive Stands (s : StopSignal) (task : Nat → Option α) : (own : Nat) → Runner α → Prop
  | entered {place : Nat} : s.waiters[place]? = some .registered →
      Stands s task 0 { place, task }
  | looked {place : Nat} : s.waiters[place]? = some .looked →
      Stands s task 1 { place, task }
  /-- The computation is to be polled. -/
  | working {place polls : Nat} : s.waiters[place]? = some .suspended →
      (∀ poll < polls, task poll = none) →
      Stands s task (2 * polls + 2) { place, task, polls, progress := .working }
  /-- It has been polled, and is pending. -/
  | pending {place polls : Nat} : s.waiters[place]? = some .suspended →
      (∀ poll < polls + 1, task poll = none) →
      Stands s task (2 * polls + 3) { place, task, polls := polls + 1 }
  | stopped {place polls own : Nat} : s.raised = true → (∀ poll < polls, task poll = none) →
      Stands s task (own + 1) { place, task, polls, progress := .stopped }
  | finished {place polls own : Nat} {a : α} : task polls = some a →
      (∀ poll < polls, task poll = none) →
      Stands s task (own + 1) { place, task, polls := polls + 1, progress := .finished a }

variable {task : Nat → Option α} {r : Runner α} {own i : Nat}

theorem Runner.place_step (notifier : Notifier) (s : StopSignal) (r : Runner α) :
    (r.step notifier s).2.place = r.place := by
  unfold step
  cases r.progress with
  | working => cases r.task r.polls <;> rfl
  | _ => rfl

theorem Runner.signal_step (notifier : Notifier) (s : StopSignal) (r : Runner α) :
    (r.step notifier s).1 = s ∨
      ∃ t, (t = .goOn r.place ∨ t = .leave r.place) ∧ (r.step notifier s).1 = s.step notifier t := by
  unfold step
  cases r.progress with
  | watching => exact .inr ⟨_, .inl rfl, rfl⟩
  | working =>
      cases r.task r.polls with
      | some a => exact .inr ⟨_, .inr rfl, rfl⟩
      | none => exact .inl rfl
  | stopped | finished a => exact .inl rfl

theorem Runner.step_watching (hp : s.waiters[place]? = some p) (polls : Nat) :
    ({ place, task, polls } : Runner α).step notifier s =
      (s.step notifier (.goOn place),
        { place, task, polls, progress := .ofPhase
            (some (p.next s.raised (notifier s.calls place))) }) := by
  rw [step]
  simp only [getElem?_goOn, hp, Option.map_some]

theorem Runner.step_working_of_ready {polls : Nat} {a : α} (hanswer : task polls = some a) :
    ({ place, task, polls, progress := .working } : Runner α).step notifier s =
      (s.step notifier (.leave place),
        { place, task, polls := polls + 1, progress := .finished a }) := by
  rw [step]
  simp only [hanswer]

theorem Runner.step_working_of_pending {polls : Nat} (hanswer : task polls = none) :
    ({ place, task, polls, progress := .working } : Runner α).step notifier s =
      (s, { place, task, polls := polls + 1 }) := by
  rw [step]
  simp only [hanswer]

theorem Sound.stands_suspended (hnotifier : notifier.IsReliable) (h : s.Sound)
    (hp : s.waiters[place]? = some p) (hlooked : p.HasLooked) {polls : Nat}
    (hpending : ∀ poll < polls, task poll = none) (hown : own = 2 * polls + 1) :
    Stands (({ place, task, polls } : Runner α).step notifier s).1 task (own + 1)
      (({ place, task, polls } : Runner α).step notifier s).2 := by
  subst hown
  have hnext : p.next s.raised (notifier s.calls place) =
      if notifier s.calls place then .returned else .suspended := by
    rcases hlooked with rfl | rfl <;> rfl
  rw [Runner.step_watching hp, hnext]
  cases hdelivered : notifier s.calls place with
  | true => exact .stopped (h.notified (mem_of_delivered hnotifier hdelivered)) hpending
  | false =>
      refine .working ?_ hpending
      rw [getElem?_goOn, hp, Option.map_some, hnext, hdelivered]
      rfl

/-- With every step of its own, a runner `Stands` further on. -/
theorem Sound.stands_step (hnotifier : notifier.IsReliable) (h : s.Sound)
    (hstands : Stands s task own r) :
    Stands (r.step notifier s).1 task (own + 1) (r.step notifier s).2 := by
  cases hstands with
  | @entered place hp =>
      rw [Runner.step_watching hp]
      cases hraised : s.raised with
      | true => exact .stopped hraised fun _ hlt => absurd hlt (Nat.not_lt_zero _)
      | false =>
          refine .looked ?_
          rw [getElem?_goOn, hp, Option.map_some, hraised]
          rfl
  | looked hp =>
      exact h.stands_suspended hnotifier hp (.inl rfl)
        (fun _ hlt => absurd hlt (Nat.not_lt_zero _)) rfl
  | pending hp hpending => exact h.stands_suspended hnotifier hp (.inr rfl) hpending rfl
  | @working place polls hp hpending =>
      cases hanswer : task polls with
      | some a =>
          rw [Runner.step_working_of_ready hanswer]
          exact .finished hanswer hpending
      | none =>
          rw [Runner.step_working_of_pending hanswer]
          refine .pending hp ?_
          intro poll hlt
          rcases Nat.lt_succ_iff_lt_or_eq.mp hlt with hlt | rfl
          · exact hpending poll hlt
          · exact hanswer
  | stopped hraised hpending => exact .stopped hraised hpending
  | finished hanswer hpending => exact .finished hanswer hpending

theorem Stands.congr {t : StopSignal} (h : Stands s task own r)
    (hplace : t.waiters[r.place]? = s.waiters[r.place]?) (hraised : s.raised = true → t.raised = true) :
    Stands t task own r := by
  cases h with
  | entered hp => exact .entered (hplace.trans hp)
  | looked hp => exact .looked (hplace.trans hp)
  | working hp hpending => exact .working (hplace.trans hp) hpending
  | pending hp hpending => exact .pending (hplace.trans hp) hpending
  | stopped h hpending => exact .stopped (hraised h) hpending
  | finished hanswer hpending => exact .finished hanswer hpending

/-! ## Scenes -/

namespace Scene

variable {scene : Scene α} {t : Step α} {steps more : List (Step α)}

theorem run_append (notifier : Notifier) (scene : Scene α) (steps more : List (Step α)) :
    scene.run notifier (steps ++ more) = (scene.run notifier steps).run notifier more :=
  List.foldl_append

theorem run_cons (notifier : Notifier) (scene : Scene α) (t : Step α) (steps : List (Step α)) :
    scene.run notifier (t :: steps) = (scene.step notifier t).run notifier steps :=
  rfl

/-- A step of a scene is at most one step of its signal. -/
theorem signal_step (notifier : Notifier) (scene : Scene α) (t : Step α) :
    (scene.step notifier t).signal = scene.signal ∨
      ∃ u, (u = .setFlag → t = .signal .setFlag) ∧
        (scene.step notifier t).signal = scene.signal.step notifier u := by
  cases t with
  | signal u =>
      rw [step]
      split
      · exact .inl rfl
      · exact .inr ⟨u, fun h => h ▸ rfl, rfl⟩
  | begin task => exact .inr ⟨.register, nofun, rfl⟩
  | goOn i =>
      rw [step]
      cases scene.runners[i]? with
      | none => exact .inl rfl
      | some r =>
          rcases r.signal_step notifier scene.signal with hsame | ⟨u, hu, heq⟩
          · exact .inl hsame
          · refine .inr ⟨u, ?_, heq⟩
            intro hset
            rcases hu with rfl | rfl <;> simp at hset

theorem sound_step (hnotifier : notifier.IsReliable) (h : scene.signal.Sound) (t : Step α) :
    (scene.step notifier t).signal.Sound := by
  rcases scene.signal_step notifier t with hsame | ⟨u, -, heq⟩
  · exact hsame ▸ h
  · exact heq ▸ h.step hnotifier u

theorem raised_step (h : scene.signal.raised = true) :
    (scene.step notifier t).signal.raised = true := by
  rcases scene.signal_step notifier t with hsame | ⟨u, -, heq⟩
  · exact hsame ▸ h
  · exact heq ▸ (raised_step_iff u).mpr (.inl h)

theorem setFlag_mem_of_raised (h : (scene.run notifier steps).signal.raised = true) :
    scene.signal.raised = true ∨ .signal .setFlag ∈ steps := by
  induction steps generalizing scene with
  | nil => exact .inl h
  | cons t steps ih =>
      rcases ih h with hraised | hmem
      · rcases scene.signal_step notifier t with hsame | ⟨u, hset, heq⟩
        · exact .inl (hsame ▸ hraised)
        · rw [heq, raised_step_iff] at hraised
          rcases hraised with hraised | hu
          · exact .inl hraised
          · exact .inr (hset hu ▸ List.mem_cons_self)
      · exact .inr (List.mem_cons_of_mem _ hmem)

theorem returned_mem_raisers (h : .returned ∈ scene.signal.raisers) :
    .returned ∈ (scene.step notifier t).signal.raisers := by
  rcases scene.signal_step notifier t with hsame | ⟨u, -, heq⟩
  · exact hsame ▸ h
  · exact heq ▸ returned_mem_raisers_step u h

/-- What holds of a scene whatever steps have been taken. -/
structure Tidy (scene : Scene α) : Prop where
  sound : scene.signal.Sound
  /-- Runners have waiters of their own. -/
  nodup : (scene.runners.map Runner.place).Nodup
  bounded : ∀ r ∈ scene.runners, r.place < scene.signal.waiters.length

theorem tidy_start : ({} : Scene α).Tidy where
  sound := sound_start
  nodup := List.nodup_nil
  bounded _ h := absurd h List.not_mem_nil

theorem Tidy.step (hnotifier : notifier.IsReliable) (h : scene.Tidy) (t : Step α) :
    (scene.step notifier t).Tidy := by
  have hsound := sound_step hnotifier h.sound t
  have hlength : scene.signal.waiters.length ≤
      (scene.step notifier t).signal.waiters.length := by
    rcases scene.signal_step notifier t with hsame | ⟨u, -, heq⟩
    · exact Nat.le_of_eq (hsame ▸ rfl)
    · exact heq ▸ length_waiters_step_le u
  have hbounded (r : Runner α) (hr : r ∈ scene.runners) :
      r.place < (scene.step notifier t).signal.waiters.length :=
    Nat.lt_of_lt_of_le (h.bounded r hr) hlength
  cases t with
  | signal u =>
      have hrunners : (scene.step notifier (.signal u)).runners = scene.runners := by
        rw [Scene.step]
        split <;> rfl
      exact ⟨hsound, hrunners ▸ h.nodup, hrunners ▸ hbounded⟩
  | begin task =>
      constructor
      case sound => exact hsound
      case nodup =>
        show ((scene.runners ++ [_]).map Runner.place).Nodup
        rw [List.map_append, List.nodup_append]
        refine ⟨h.nodup, by simp, ?_⟩
        intro place hplace new hnew
        obtain ⟨r, hr, rfl⟩ := List.mem_map.mp hplace
        rw [List.map_singleton, List.mem_singleton] at hnew
        rw [hnew]
        exact Nat.ne_of_lt (h.bounded r hr)
      case bounded =>
        intro r hr
        rcases List.mem_append.mp hr with hr | hr
        · exact hbounded r hr
        · rw [List.mem_singleton.mp hr]
          show _ < (scene.signal.waiters ++ [Phase.registered]).length
          simp
  | goOn i =>
      cases hi : scene.runners[i]? with
      | none =>
          rw [Scene.step, hi]
          exact h
      | some r =>
          have hplaces : (scene.step notifier (.goOn i)).runners.map Runner.place =
              scene.runners.map Runner.place := by
            rw [Scene.step, hi]
            show (scene.runners.set i _).map Runner.place = _
            obtain ⟨hlt, rfl⟩ := List.getElem?_eq_some_iff.mp hi
            rw [List.map_set, Runner.place_step, ← List.map_set, List.set_getElem_self]
          refine ⟨hsound, hplaces ▸ h.nodup, ?_⟩
          intro r' hr'
          have hmem : r'.place ∈ scene.runners.map Runner.place :=
            hplaces ▸ List.mem_map_of_mem hr'
          obtain ⟨r₀, hr₀, heq⟩ := List.mem_map.mp hmem
          exact heq ▸ hbounded r₀ hr₀

theorem Tidy.run (hnotifier : notifier.IsReliable) (h : scene.Tidy) (steps : List (Step α)) :
    (scene.run notifier steps).Tidy := by
  induction steps generalizing scene with
  | nil => exact h
  | cons t steps ih => exact ih (h.step hnotifier t)

theorem Tidy.place_ne {j : Nat} {r' : Runner α} (h : scene.Tidy) (hi : scene.runners[i]? = some r)
    (hj : scene.runners[j]? = some r') (hne : i ≠ j) : r.place ≠ r'.place := by
  intro heq
  have hlt : i < (scene.runners.map Runner.place).length := by
    rw [List.length_map]
    exact (List.getElem?_eq_some_iff.mp hi).1
  refine hne ((List.getElem?_inj hlt h.nodup).mp ?_)
  rw [List.getElem?_map, List.getElem?_map, hi, hj, Option.map_some, Option.map_some, heq]

/-! ### Turns -/

def Step.isTurnOf (i : Nat) : Step α → Bool
  | .goOn runner => runner = i
  | _ => false

theorem eq_goOn_of_isTurnOf (h : t.isTurnOf i = true) : t = .goOn i := by
  cases t with
  | goOn j => rw [of_decide_eq_true h]
  | _ => exact absurd h (by simp [Step.isTurnOf])

theorem step_goOn (hr : scene.runners[i]? = some r) : scene.step notifier (.goOn i) =
    { signal := (r.step notifier scene.signal).1
      runners := scene.runners.set i (r.step notifier scene.signal).2 } := by
  rw [step, hr]

theorem runners_step_goOn (hr : scene.runners[i]? = some r) :
    (scene.step notifier (.goOn i)).runners[i]? = some (r.step notifier scene.signal).2 := by
  rw [step_goOn hr]
  exact List.getElem?_set_self (List.getElem?_eq_some_iff.mp hr).1

/-- The turn of another one leaves a runner and its waiter as they are. -/
theorem Tidy.keeps (h : scene.Tidy) (hr : scene.runners[i]? = some r)
    (ht : t.isTurnOf i = false) : (scene.step notifier t).runners[i]? = some r ∧
      (scene.step notifier t).signal.waiters[r.place]? = scene.signal.waiters[r.place]? := by
  have hmem : r ∈ scene.runners := List.mem_of_getElem? hr
  cases t with
  | signal u =>
      rw [Scene.step]
      split
      case isTrue => exact ⟨hr, rfl⟩
      case isFalse hfree =>
        have howned : scene.runners.any (fun r' => r'.place = r.place) = true :=
          List.any_eq_true.mpr ⟨r, hmem, decide_eq_true rfl⟩
        refine ⟨hr, getElem?_step_of_ne (h.bounded r hmem) ?_ ?_⟩
        · rintro rfl
          exact hfree howned
        · rintro rfl
          exact hfree howned
  | begin task =>
      have hlt : i < scene.runners.length := (List.getElem?_eq_some_iff.mp hr).1
      exact ⟨(List.getElem?_append_left hlt).trans hr,
        List.getElem?_append_left (h.bounded r hmem)⟩
  | goOn j =>
      have hne : j ≠ i := of_decide_eq_false ht
      cases hj : scene.runners[j]? with
      | none =>
          rw [Scene.step, hj]
          exact ⟨hr, rfl⟩
      | some r' =>
          have hplace : r'.place ≠ r.place := h.place_ne hj hr hne
          rw [step_goOn hj]
          refine ⟨(List.getElem?_set_ne hne).trans hr, ?_⟩
          rcases r'.signal_step notifier scene.signal with hsame | ⟨u, hu, heq⟩
          · rw [hsame]
          · rw [heq]
            refine getElem?_step_of_ne (h.bounded r hmem) ?_ ?_
            · rintro rfl
              rcases hu with hu | hu <;> simp [Ne.symm hplace] at hu
            · rintro rfl
              rcases hu with hu | hu <;> simp [Ne.symm hplace] at hu

theorem Tidy.stands_goOn (hnotifier : notifier.IsReliable) (h : scene.Tidy)
    (hr : scene.runners[i]? = some r) (hstands : Stands scene.signal task own r) :
    Stands (scene.step notifier (.goOn i)).signal task (own + 1)
      (r.step notifier scene.signal).2 := by
  rw [step_goOn hr]
  exact h.sound.stands_step hnotifier hstands

/-- The runner at a place runs a computation, and `Stands` where it has got with its turns. -/
def Follows (scene : Scene α) (i : Nat) (task : Nat → Option α) (own : Nat) : Prop :=
  ∃ r, scene.runners[i]? = some r ∧ Stands scene.signal task own r

theorem follows_begin (notifier : Notifier) (scene : Scene α) (task : Nat → Option α) :
    (scene.step notifier (.begin task)).Follows scene.runners.length task 0 := by
  refine ⟨_, List.getElem?_concat_length, .entered ?_⟩
  exact List.getElem?_concat_length

theorem Follows.step (hnotifier : notifier.IsReliable) (htidy : scene.Tidy)
    (h : scene.Follows i task own) (t : Step α) :
    (scene.step notifier t).Follows i task (own + [t].countP (Step.isTurnOf i)) := by
  obtain ⟨r, hr, hstands⟩ := h
  cases ht : t.isTurnOf i with
  | false =>
      obtain ⟨hrunner, hplace⟩ := htidy.keeps hr ht
      refine ⟨r, hrunner, ?_⟩
      rw [List.countP_cons_of_neg (by simp [ht])]
      exact hstands.congr hplace raised_step
  | true =>
      obtain rfl := eq_goOn_of_isTurnOf ht
      refine ⟨_, runners_step_goOn hr, ?_⟩
      rw [List.countP_cons_of_pos ht]
      exact htidy.stands_goOn hnotifier hr hstands

theorem Follows.run (hnotifier : notifier.IsReliable) (htidy : scene.Tidy)
    (h : scene.Follows i task own) (steps : List (Step α)) :
    (scene.run notifier steps).Follows i task (own + steps.countP (Step.isTurnOf i)) := by
  induction steps generalizing scene own with
  | nil => exact h
  | cons t steps ih =>
      have hstep := ih (htidy.step hnotifier t) (h.step hnotifier htidy t)
      rwa [Nat.add_assoc, ← List.countP_append, List.singleton_append] at hstep

/-! ### When a runner is done -/

end Scene

def Progress.IsOver (p : Progress α) : Prop :=
  p = .stopped ∨ ∃ a, p = .finished a

/-- How many turns a runner takes to its answer at most, once the signal has been raised. -/
def Progress.turnsLeft : Progress α → Nat
  | .watching => 1
  | .working => 2
  | .stopped | .finished _ => 0

theorem Progress.isOver_of_turnsLeft {p : Progress α} (h : p.turnsLeft = 0) : p.IsOver := by
  cases p with
  | stopped => exact .inl rfl
  | finished a => exact .inr ⟨a, rfl⟩
  | watching | working => exact absurd h (by simp [turnsLeft])

theorem Progress.turnsLeft_le (p : Progress α) : p.turnsLeft ≤ 2 := by
  cases p <;> simp [turnsLeft]

theorem Runner.step_of_isOver (h : r.progress.IsOver) : r.step notifier s = (s, r) := by
  rw [step]
  rcases h with h | ⟨a, h⟩ <;> rw [h]

theorem Stands.isWaiting (h : Stands s task own r) (hwatching : r.progress = .watching) :
    ∃ p, s.waiters[r.place]? = some p ∧ p.IsWaiting := by
  cases h with
  | entered hp => exact ⟨_, hp, .inl rfl⟩
  | looked hp => exact ⟨_, hp, .inr (.inl rfl)⟩
  | pending hp _ => exact ⟨_, hp, .inr (.inr rfl)⟩
  | _ => exact absurd hwatching (by simp)

/-- Once the signal has been raised, each of its turns brings a runner nearer to its answer, as
`turnsLeft` counts. -/
theorem Sound.turnsLeft_step (hnotifier : notifier.IsReliable) (h : s.Sound)
    (hraiser : .returned ∈ s.raisers) (hstands : Stands s task own r) :
    (r.step notifier s).2.progress.turnsLeft ≤ r.progress.turnsLeft - 1 := by
  cases hprogress : r.progress with
  | watching =>
      obtain ⟨p, hp, hwaits⟩ := hstands.isWaiting hprogress
      have hreturned := h.returns hnotifier hraiser hp hwaits
      rw [Runner.step, hprogress]
      simp only [hreturned]
      exact Nat.le_refl 0
  | working =>
      rw [Runner.step, hprogress]
      cases r.task r.polls with
      | none => exact Nat.le_refl 1
      | some a => exact Nat.zero_le _
  | stopped | finished a =>
      rw [Runner.step_of_isOver (by simp [Progress.IsOver, hprogress]), hprogress]
      exact Nat.le_refl 0

/-- A runner whose computation is ready at one of the polls, and that has had the turns to poll it
so often, `IsOver`. -/
theorem Stands.isOver {poll : Nat} {a : α} (h : Stands s task own r) (hready : task poll = some a)
    (hown : 2 * poll + 3 ≤ own) : r.progress.IsOver := by
  have hlate {polls : Nat} (hpending : ∀ poll < polls, task poll = none) : polls ≤ poll := by
    apply Nat.le_of_not_lt
    intro hlt
    rw [hpending poll hlt] at hready
    exact absurd hready (by simp)
  cases h with
  | entered | looked => omega
  | working _ hpending =>
      have := hlate hpending
      omega
  | pending _ hpending =>
      have := hlate hpending
      omega
  | stopped => exact .inl rfl
  | finished => exact .inr ⟨_, rfl⟩

theorem Stands.raised (h : Stands s task own r) (hstopped : r.progress = .stopped) :
    s.raised = true := by
  cases h with
  | stopped hraised _ => exact hraised
  | _ => exact absurd hstopped (by simp)

theorem Stands.exists_last {a : α} (h : Stands s task own r) (ha : r.progress = .finished a) :
    ∃ last, r.polls = last + 1 ∧ task last = some a ∧ ∀ poll < last, task poll = none := by
  cases h with
  | finished hanswer hpending =>
      obtain rfl := Progress.finished.inj ha
      exact ⟨_, rfl, hanswer, hpending⟩
  | _ => exact absurd ha (by simp)

theorem Stands.pending_of_unfinished (h : Stands s task own r)
    (hnone : ∀ a, r.progress ≠ .finished a) : ∀ poll < r.polls, task poll = none := by
  cases h with
  | entered | looked => exact fun poll hlt => absurd hlt (Nat.not_lt_zero poll)
  | working _ hpending | pending _ hpending | stopped _ hpending => exact hpending
  | finished => exact absurd rfl (hnone _)

namespace Scene

variable {scene : Scene α} {t : Step α} {before after steps more : List (Step α)}

theorem Tidy.stays_run (hnotifier : notifier.IsReliable) (h : scene.Tidy)
    (hr : scene.runners[i]? = some r) (hover : r.progress.IsOver) (more : List (Step α)) :
    (scene.run notifier more).runners[i]? = some r := by
  induction more generalizing scene with
  | nil => exact hr
  | cons t more ih =>
      refine ih (h.step hnotifier t) ?_
      cases ht : t.isTurnOf i with
      | false => exact (h.keeps hr ht).1
      | true =>
          obtain rfl := eq_goOn_of_isTurnOf ht
          rw [runners_step_goOn hr, Runner.step_of_isOver hover]

/-- A runner that finds the flag set at its first turn stops at once. -/
theorem Tidy.unpolled (hnotifier : notifier.IsReliable) (h : scene.Tidy)
    (hfollows : scene.Follows i task 0) (hraised : scene.signal.raised = true)
    (later : List (Step α)) : ∃ r, (scene.run notifier (.goOn i :: later)).runners[i]? = some r ∧
      r.progress = .stopped ∧ r.polls = 0 := by
  obtain ⟨r, hr, hstands⟩ := hfollows
  generalize hown : 0 = own at hstands
  cases hstands with
  | entered hp =>
      have hturn : (scene.step notifier (.goOn i)).runners[i]? = _ := runners_step_goOn hr
      rw [Runner.step_watching hp, hraised] at hturn
      exact ⟨_, (h.step hnotifier _).stays_run hnotifier hturn (.inl rfl) later, rfl, rfl⟩
  | _ => exact absurd hown (by omega)

/-- Once the signal has been raised, a runner has its answer after two turns: there are no
`turnsLeft` then. -/
theorem Tidy.turnsLeft_run (hnotifier : notifier.IsReliable) (h : scene.Tidy)
    (hraiser : .returned ∈ scene.signal.raisers) (hr : scene.runners[i]? = some r)
    (hstands : Stands scene.signal task own r) (more : List (Step α)) :
    ∃ r', (scene.run notifier more).runners[i]? = some r' ∧
      r'.progress.turnsLeft ≤ r.progress.turnsLeft - more.countP (Step.isTurnOf i) := by
  induction more generalizing scene r own with
  | nil => exact ⟨r, hr, Nat.le_refl _⟩
  | cons t more ih =>
      have htidy := h.step hnotifier t
      have hraised : .returned ∈ (scene.step notifier t).signal.raisers :=
        returned_mem_raisers hraiser
      cases ht : t.isTurnOf i with
      | false =>
          obtain ⟨hrunner, hplace⟩ := h.keeps hr ht
          rw [List.countP_cons_of_neg (by simp [ht])]
          exact ih htidy hraised hrunner (hstands.congr hplace raised_step)
      | true =>
          obtain rfl := eq_goOn_of_isTurnOf ht
          have hnearer := h.sound.turnsLeft_step hnotifier hraiser hstands
          obtain ⟨r', hr', hleft⟩ := ih htidy hraised (runners_step_goOn hr)
            (h.stands_goOn hnotifier hr hstands)
          refine ⟨r', hr', ?_⟩
          rw [List.countP_cons_of_pos ht]
          omega

/-! ### Results -/

def reached (notifier : Notifier) (steps : List (Step α)) : Scene α :=
  ({} : Scene α).run notifier steps

/-- What comes of a computation that is begun after steps and run until the signal in the steps after
that. -/
structure Answers (notifier : Notifier) (before : List (Step α)) (task : Nat → Option α)
    (after : List (Step α)) (i : Nat) (r : Runner α) : Prop where
  /-- If the flag is set at the runner's first turn, then the computation is not polled at all. -/
  unpolled : ∀ earlier later, after = earlier ++ .goOn i :: later → .goOn i ∉ earlier →
    (reached notifier (before ++ .begin task :: earlier)).signal.raised = true →
    r.progress = .stopped ∧ r.polls = 0
  stopped : r.progress = .stopped → .signal .setFlag ∈ before ++ .begin task :: after
  /-- The value is what the computation has answered to the last poll. -/
  finished : ∀ a, r.progress = .finished a → ∃ last, r.polls = last + 1 ∧ task last = some a ∧
    ∀ poll < last, task poll = none
  /-- As long as there is no value, every poll has found the computation pending. -/
  pending : (∀ a, r.progress ≠ .finished a) → ∀ poll < r.polls, task poll = none
  /-- Once somebody has raised the signal, there is an answer after two more turns. -/
  heeds : ∀ earlier later, after = earlier ++ later →
    .returned ∈ (reached notifier (before ++ .begin task :: earlier)).signal.raisers →
    2 ≤ later.countP (Step.isTurnOf i) → r.progress.IsOver
  /-- There is an answer, too, after as many turns as it takes to poll a computation until it is
  ready. -/
  ends : ∀ poll a, task poll = some a → 2 * poll + 3 ≤ after.countP (Step.isTurnOf i) →
    r.progress.IsOver

/-- Whoever waits for the signal learns of it when it has been raised, and not before. -/
structure ReachesAll (notifier : Notifier) (steps : List (Step α)) : Prop where
  /-- Once somebody has raised the signal, the notification has been delivered to everybody who is
  suspended. -/
  delivered : .returned ∈ (reached notifier steps).signal.raisers → ∀ place,
    (reached notifier steps).signal.waiters[place]? = some .suspended →
    notifier (reached notifier steps).signal.calls place = true
  /-- And whoever waits returns with its next step. -/
  returns : .returned ∈ (reached notifier steps).signal.raisers → ∀ place p,
    (reached notifier steps).signal.waiters[place]? = some p → p.IsWaiting →
    ((reached notifier steps).signal.step notifier (.goOn place)).waiters[place]? = some .returned
  /-- Nobody returns before somebody has set the flag. -/
  prompted : .returned ∈ (reached notifier steps).signal.waiters → .signal .setFlag ∈ steps
  /-- Computations that are run until the signal. -/
  answers : ∀ before task after, steps = before ++ .begin task :: after → ∃ r,
    (reached notifier steps).runners[(reached notifier before).runners.length]? = some r ∧
    Answers notifier before task after (reached notifier before).runners.length r

theorem reached_append (notifier : Notifier) (steps more : List (Step α)) :
    reached notifier (steps ++ more) = (reached notifier steps).run notifier more :=
  run_append notifier {} steps more

theorem tidy_reached (hnotifier : notifier.IsReliable) (steps : List (Step α)) :
    (reached notifier steps).Tidy :=
  tidy_start.run hnotifier steps

theorem setFlag_mem_of_reached (h : (reached notifier steps).signal.raised = true) :
    .signal .setFlag ∈ steps :=
  (setFlag_mem_of_raised h).resolve_left Bool.false_ne_true

theorem follows_reached (hnotifier : notifier.IsReliable) (before : List (Step α))
    (task : Nat → Option α) (after : List (Step α)) :
    (reached notifier (before ++ .begin task :: after)).Follows
      (reached notifier before).runners.length task (after.countP (Step.isTurnOf
        (reached notifier before).runners.length)) := by
  rw [reached_append, run_cons]
  have hbegun := (follows_begin notifier (reached notifier before) task).run hnotifier
    ((tidy_reached hnotifier before).step hnotifier _) after
  rwa [Nat.zero_add] at hbegun

theorem answers_reached (hnotifier : notifier.IsReliable) (before : List (Step α))
    (task : Nat → Option α) (after : List (Step α)) : ∃ r,
      (reached notifier (before ++ .begin task :: after)).runners[
        (reached notifier before).runners.length]? = some r ∧
      Answers notifier before task after (reached notifier before).runners.length r := by
  generalize hi : (reached notifier before).runners.length = i
  have hfollows (steps : List (Step α)) :
      (reached notifier (before ++ .begin task :: steps)).Follows i task
        (steps.countP (Step.isTurnOf i)) :=
    hi ▸ follows_reached hnotifier before task steps
  have hsplit (earlier later : List (Step α)) :
      reached notifier (before ++ .begin task :: (earlier ++ later)) =
        (reached notifier (before ++ .begin task :: earlier)).run notifier later := by
    rw [← List.cons_append, ← List.append_assoc, reached_append]
  obtain ⟨r, hr, hstands⟩ := hfollows after
  refine ⟨r, hr, ?_⟩
  constructor
  case unpolled =>
    intro earlier later hafter hfirst hraised
    have hcount : earlier.countP (Step.isTurnOf i) = 0 := by
      rw [List.countP_eq_zero]
      intro t ht hturn
      exact hfirst (eq_goOn_of_isTurnOf hturn ▸ ht)
    have hentered := hfollows earlier
    rw [hcount] at hentered
    obtain ⟨r', hr', hanswer⟩ := (tidy_reached hnotifier _).unpolled hnotifier hentered hraised later
    rw [hafter, hsplit, hr'] at hr
    exact Option.some.inj hr ▸ hanswer
  case stopped =>
    intro hstopped
    exact setFlag_mem_of_reached (hstands.raised hstopped)
  case finished =>
    intro a ha
    exact hstands.exists_last ha
  case pending => exact hstands.pending_of_unfinished
  case ends =>
    intro poll a hready hturns
    exact hstands.isOver hready hturns
  case heeds =>
    intro earlier later hafter hraiser hturns
    obtain ⟨r₁, hr₁, hstands₁⟩ := hfollows earlier
    obtain ⟨r', hr', hleft⟩ :=
      (tidy_reached hnotifier _).turnsLeft_run hnotifier hraiser hr₁ hstands₁ later
    rw [hafter, hsplit, hr'] at hr
    obtain rfl := Option.some.inj hr
    have hmost := r₁.progress.turnsLeft_le
    exact Progress.isOver_of_turnsLeft (by omega)

end Scene

end StopSignal

open StopSignal (Notifier Scene)

/-- Any number of parties wait for a signal, raise it, and run computations until it comes, and their
steps come in any order.  Then no wake-up is lost: once somebody has raised the signal, everybody who
is suspended has been notified, and nobody returns before the flag has been set.  A computation is not
polled if the flag is set at the first turn, and else it is polled until it has a value or the signal
comes. -/
theorem no_wakeup_lost {α : Type} (notifier : Notifier) (hnotifier : notifier.IsReliable)
    (steps : List (Scene.Step α)) : Scene.ReachesAll notifier steps := by
  have htidy := Scene.tidy_reached hnotifier steps
  constructor
  case delivered =>
    intro hraiser place hp
    exact (htidy.sound.told hraiser place _ hp (.inr rfl)).delivered hnotifier
  case returns =>
    intro hraiser place p hp hwaits
    exact htidy.sound.returns hnotifier hraiser hp hwaits
  case prompted =>
    intro hreturned
    exact Scene.setFlag_mem_of_reached (htidy.sound.returned hreturned)
  case answers =>
    rintro before task after rfl
    exact Scene.answers_reached hnotifier before task after

/-- A waiter finds the flag unset; then the flag is set, and the waiter is suspended.  One computation
has been begun by then and never has a value, another one is begun before anybody is notified, and
somebody else registers after that. -/
def overtakenWaiter : List (Scene.Step Nat) :=
  [.signal .register, .signal (.goOn 0), .begin fun _ => none, .goOn 0, .goOn 0, .goOn 0,
    .signal .setFlag, .signal (.goOn 0), .begin fun _ => some 7, .goOn 1, .signal (.notify 0),
    .signal .register, .signal (.goOn 3), .goOn 0]

/-- The waiter that has been overtaken is still suspended, and has been notified. -/
theorem no_wakeup_lost_overtakenWaiter :
    let s := Scene.reached .prompt overtakenWaiter
    Notifier.prompt.IsReliable ∧ s.signal.raisers = [.returned] ∧
      s.signal.waiters = [.suspended, .returned, .returned, .returned] ∧
      s.runners.map (fun r => (r.polls, r.progress)) = [(1, .stopped), (0, .stopped)] ∧
      Scene.ReachesAll .prompt overtakenWaiter := by
  intro s
  have hreliable := Notifier.isReliable_prompt
  exact ⟨hreliable, rfl, rfl, rfl, no_wakeup_lost .prompt hreliable overtakenWaiter⟩

end BalanceLedger
