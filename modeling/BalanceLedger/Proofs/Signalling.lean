/-
# `Proofs.Signalling` — whoever waits for the signal learns of it

Waiting takes several steps, and raising the signal takes two.  Any number of parties
take them in any order, so a waiter can be overtaken between registering, looking at the
flag and being suspended.  What must not happen is that it finds the flag unset and is
suspended for good, because everybody has been notified meanwhile.

It is the order of the steps on both sides that keeps this from happening.  Who finds
the flag unset is registered by then, and the notification is sent after the flag has
been set: so it is sent to this waiter, too.  `Sound` is this argument as an invariant.
It has a clause for each phase that a waiter can be in, and a lemma for each kind of
step, which `Sound.step` puts together; `Sound.returns` is what it is for.

Nothing else is known of notifiers but that they deliver to everybody who is registered,
and to nobody before they are called: `Notifier.IsReliable`.  Whether somebody who
registers after a call gets its notification is left open, and nothing here depends on
it.  `Notifier.isReliable_prompt` shows that there is such a notifier.
-/
import BalanceLedger.StopSignal

namespace BalanceLedger

namespace StopSignal

variable {notifier : Notifier} {s : StopSignal} {calls : List NotifierCall} {number place : Nat}
  {p : Phase}

/-! ## Notifiers -/

/-- What is relied on. -/
structure Notifier.IsReliable (notifier : Notifier) : Prop where
  /-- A call to notify everybody delivers every notification that was enabled before it. -/
  delivers : ∀ before after number, number < before.count .enable →
    notifier (before ++ .notifyAll :: after) number = true
  /-- Nothing is delivered without such a call. -/
  unprompted : ∀ calls number, .notifyAll ∉ calls → notifier calls number = false

theorem Notifier.isReliable_prompt : Notifier.prompt.IsReliable where
  delivers := by
    intro before after number hnumber
    induction before generalizing number with
    | nil => exact absurd hnumber (Nat.not_lt_zero _)
    | cons call before ih =>
        cases call with
        | notifyAll =>
            rw [List.count_cons_of_ne (by decide)] at hnumber
            exact ih number hnumber
        | enable =>
            rw [List.count_cons_self] at hnumber
            cases number with
            | zero => simp [prompt]
            | succ number => exact ih number (Nat.lt_of_succ_lt_succ hnumber)
  unprompted := by
    intro calls number hnone
    induction calls generalizing number with
    | nil => rfl
    | cons call calls ih =>
        rw [List.mem_cons, not_or] at hnone
        cases call with
        | notifyAll => exact absurd rfl hnone.1
        | enable =>
            cases number with
            | zero => simpa [prompt] using hnone.2
            | succ number => exact ih number hnone.2

/-- Everybody has been notified since the notification was enabled: there is such a call among the
`NotifierCall`s after it. -/
def Told (calls : List NotifierCall) (number : Nat) : Prop :=
  ∃ before after, calls = before ++ .notifyAll :: after ∧ number < before.count .enable

theorem Told.append (h : Told calls number) (more : List NotifierCall) :
    Told (calls ++ more) number := by
  obtain ⟨before, after, rfl, hnumber⟩ := h
  exact ⟨before, after ++ more, List.append_assoc .., hnumber⟩

theorem Told.delivered (hnotifier : notifier.IsReliable) (h : Told calls number) :
    notifier calls number = true := by
  obtain ⟨before, after, rfl, hnumber⟩ := h
  exact hnotifier.delivers before after number hnumber

theorem mem_of_delivered (hnotifier : notifier.IsReliable) (h : notifier calls number = true) :
    .notifyAll ∈ calls := by
  refine Decidable.byContradiction fun hnone => ?_
  rw [hnotifier.unprompted calls number hnone] at h
  exact absurd h (by simp)

/-! ## Waiters -/

/-- The waiter has found the flag unset, and waits for its notification. -/
def Phase.HasLooked (p : Phase) : Prop :=
  p = .looked ∨ p = .suspended

/-- The waiter waits: its next step comes. -/
def Phase.IsWaiting (p : Phase) : Prop :=
  p = .registered ∨ p.HasLooked

theorem Phase.eq_of_next_returned {raised delivered : Bool}
    (h : p.next raised delivered = .returned) :
    p = .returned ∨ raised = true ∨ delivered = true := by
  cases p <;> simp [next] at h ⊢ <;> simp [h]

theorem Phase.hasLooked_of_next {raised delivered : Bool}
    (h : (p.next raised delivered).HasLooked) : p.HasLooked ∨ raised = false := by
  cases p <;> cases raised <;> simp [next, HasLooked] at h ⊢

theorem Phase.next_of_isWaiting (h : p.IsWaiting) : p.next true true = .returned := by
  rcases h with rfl | rfl | rfl <;> rfl

theorem Phase.leave_eq (p : Phase) : p.leave = p ∨ p.leave = .left := by
  cases p <;> simp [leave]

/-! ## The signal -/

/-- What holds of a signal whatever steps have been taken. -/
structure Sound (s : StopSignal) : Prop where
  /-- A waiter has the number of its notification. -/
  numbered : s.calls.count .enable = s.waiters.length
  flagged : s.raisers ≠ [] → s.raised = true
  /-- Nobody is notified before the flag is set. -/
  notified : .notifyAll ∈ s.calls → s.raised = true
  returned : .returned ∈ s.waiters → s.raised = true
  /-- Once the signal has been raised, whoever has found the flag unset has been told. -/
  told : .returned ∈ s.raisers → ∀ place p, s.waiters[place]? = some p → p.HasLooked →
    Told s.calls place

theorem sound_start : ({} : StopSignal).Sound where
  numbered := rfl
  flagged h := absurd rfl h
  notified h := absurd h List.not_mem_nil
  returned h := absurd h List.not_mem_nil
  told h := absurd h List.not_mem_nil

theorem Sound.raised_of_returned (h : s.Sound) (hraiser : .returned ∈ s.raisers) :
    s.raised = true :=
  h.flagged (List.ne_nil_of_mem hraiser)

theorem Sound.register (h : s.Sound) : (s.step notifier .register).Sound := by
  constructor
  case flagged => exact h.flagged
  case numbered =>
    show (s.calls ++ [NotifierCall.enable]).count NotifierCall.enable =
      (s.waiters ++ [Phase.registered]).length
    rw [List.count_append, h.numbered, List.length_append]
    rfl
  case notified =>
    intro hcall
    rcases List.mem_append.mp hcall with hold | hnew
    · exact h.notified hold
    · simp at hnew
  case returned =>
    intro hp
    rcases List.mem_append.mp hp with hold | hnew
    · exact h.returned hold
    · simp at hnew
  case told =>
    intro hraiser place p hp hlooked
    refine Told.append ?_ [.enable]
    rcases Nat.lt_or_ge place s.waiters.length with hlt | hge
    · have hold : s.waiters[place]? = some p := by
        rw [← List.getElem?_append_left hlt]
        exact hp
      exact h.told hraiser place p hold hlooked
    · -- the new waiter has not looked
      have hmem : p ∈ [Phase.registered] := by
        have hnew : ([Phase.registered])[place - s.waiters.length]? = some p := by
          rw [← List.getElem?_append_right hge]
          exact hp
        exact List.mem_of_getElem? hnew
      obtain rfl := List.mem_singleton.mp hmem
      simp [Phase.HasLooked] at hlooked

theorem Sound.modify {f : Phase → Phase} (h : s.Sound)
    (hreturned : ∀ p, f p = .returned → p = .returned ∨ s.raised = true)
    (hlooked : ∀ p, (f p).HasLooked → p.HasLooked ∨ s.raised = false) :
    Sound { s with waiters := s.waiters.modify place f } := by
  have hplace (i : Nat) (q : Phase) (hq : (s.waiters.modify place f)[i]? = some q) :
      ∃ p, s.waiters[i]? = some p ∧ (q = p ∨ q = f p) := by
    rw [List.getElem?_modify] at hq
    obtain ⟨p, hp, hq⟩ := Option.map_eq_some_iff.mp hq
    refine ⟨p, hp, ?_⟩
    split at hq
    · exact .inr hq.symm
    · exact .inl hq.symm
  constructor
  case flagged => exact h.flagged
  case notified => exact h.notified
  case numbered =>
    show s.calls.count .enable = (s.waiters.modify place f).length
    rw [h.numbered, List.length_modify]
  case returned =>
    intro hq
    obtain ⟨i, hi⟩ := List.mem_iff_getElem?.mp hq
    obtain ⟨p, hp, heq⟩ := hplace i _ hi
    have hgone : p = .returned ∨ s.raised = true := by
      rcases heq with heq | heq
      · exact .inl heq.symm
      · exact hreturned p heq.symm
    rcases hgone with rfl | hraised
    · exact h.returned (List.mem_of_getElem? hp)
    · exact hraised
  case told =>
    intro hraiser i q hq hlook
    obtain ⟨p, hp, heq⟩ := hplace i q hq
    have hbefore : p.HasLooked ∨ s.raised = false := by
      rcases heq with rfl | rfl
      · exact .inl hlook
      · exact hlooked p hlook
    rcases hbefore with hbefore | hunset
    · exact h.told hraiser i p hp hbefore
    · -- nobody finds the flag unset once somebody has raised the signal
      rw [h.raised_of_returned hraiser] at hunset
      exact absurd hunset (by simp)

theorem Sound.goOn (hnotifier : notifier.IsReliable) (h : s.Sound) (place : Nat) :
    (s.step notifier (.goOn place)).Sound := by
  apply h.modify
  case hreturned =>
    intro p hp
    rcases Phase.eq_of_next_returned hp with hp | hraised | hdelivered
    · exact .inl hp
    · exact .inr hraised
    · exact .inr (h.notified (mem_of_delivered hnotifier hdelivered))
  case hlooked =>
    intro p hp
    exact Phase.hasLooked_of_next hp

theorem Sound.leave (h : s.Sound) (place : Nat) : (s.step notifier (.leave place)).Sound := by
  apply h.modify
  case hreturned =>
    intro p hp
    rcases p.leave_eq with heq | heq
    · exact .inl (heq.symm.trans hp)
    · simp [heq] at hp
  case hlooked =>
    intro p hp
    rcases p.leave_eq with heq | heq
    · exact .inl (heq ▸ hp)
    · simp [heq, Phase.HasLooked] at hp

theorem Sound.setFlag (h : s.Sound) : (s.step notifier .setFlag).Sound where
  numbered := h.numbered
  flagged _ := rfl
  notified _ := rfl
  returned _ := rfl
  told := by
    intro hraiser
    rcases List.mem_append.mp hraiser with hold | hnew
    · exact h.told hold
    · simp at hnew

theorem Sound.notify (h : s.Sound) (raiser : Nat) : (s.step notifier (.notify raiser)).Sound := by
  rw [StopSignal.step]
  split
  case isFalse => exact h
  case isTrue hflagged =>
    have hraised : s.raised = true :=
      h.flagged (List.ne_nil_of_mem (List.mem_of_getElem? hflagged))
    constructor
    case flagged => exact fun _ => hraised
    case notified => exact fun _ => hraised
    case returned => exact h.returned
    case numbered =>
      show (s.calls ++ [NotifierCall.notifyAll]).count NotifierCall.enable = s.waiters.length
      rw [List.count_append, h.numbered]
      rfl
    case told =>
      -- everybody who is there is registered
      intro _ place p hp _
      refine ⟨s.calls, [], rfl, ?_⟩
      rw [h.numbered]
      exact (List.getElem?_eq_some_iff.mp hp).1

theorem Sound.step (hnotifier : notifier.IsReliable) (h : s.Sound) (t : Step) :
    (s.step notifier t).Sound := by
  cases t with
  | register => exact h.register
  | goOn place => exact h.goOn hnotifier place
  | leave place => exact h.leave place
  | setFlag => exact h.setFlag
  | notify raiser => exact h.notify raiser

theorem getElem?_goOn (s : StopSignal) (place : Nat) :
    (s.step notifier (.goOn place)).waiters[place]? =
      s.waiters[place]?.map (Phase.next s.raised (notifier s.calls place)) := by
  show (s.waiters.modify place _)[place]? = _
  rw [List.getElem?_modify]
  simp

/-- After the signal has been raised, a waiter returns with its next step. -/
theorem Sound.returns (hnotifier : notifier.IsReliable) (h : s.Sound)
    (hraiser : .returned ∈ s.raisers) (hp : s.waiters[place]? = some p) (hwaits : p.IsWaiting) :
    (s.step notifier (.goOn place)).waiters[place]? = some .returned := by
  rw [getElem?_goOn, hp, Option.map_some, h.raised_of_returned hraiser]
  rcases hwaits with rfl | hlooked
  · rfl
  · rw [(h.told hraiser place p hp hlooked).delivered hnotifier,
      Phase.next_of_isWaiting (.inr hlooked)]

/-- The flag is set by `.setFlag`, and never unset. -/
theorem raised_step_iff (t : Step) :
    (s.step notifier t).raised = true ↔ s.raised = true ∨ t = .setFlag := by
  cases t with
  | notify raiser =>
      rw [step]
      split <;> simp
  | _ => simp [step]

theorem returned_mem_raisers_step (t : Step) (h : .returned ∈ s.raisers) :
    .returned ∈ (s.step notifier t).raisers := by
  cases t with
  | setFlag => exact List.mem_append_left _ h
  | notify raiser =>
      rw [step]
      split
      case isFalse => exact h
      case isTrue hflagged =>
        have hlt : raiser < s.raisers.length := (List.getElem?_eq_some_iff.mp hflagged).1
        exact List.mem_set hlt _
  | _ => exact h

theorem length_waiters_step_le (t : Step) :
    s.waiters.length ≤ (s.step notifier t).waiters.length := by
  cases t with
  | register =>
      show _ ≤ (s.waiters ++ [Phase.registered]).length
      rw [List.length_append]
      exact Nat.le_add_right ..
  | goOn place | leave place =>
      show _ ≤ (s.waiters.modify place _).length
      exact Nat.le_of_eq (List.length_modify ..).symm
  | setFlag => exact Nat.le_refl _
  | notify raiser =>
      rw [step]
      split <;> exact Nat.le_refl _

theorem getElem?_step_of_ne {t : Step} (hplace : place < s.waiters.length)
    (hgoOn : t ≠ .goOn place) (hleave : t ≠ .leave place) :
    (s.step notifier t).waiters[place]? = s.waiters[place]? := by
  cases t with
  | register => exact List.getElem?_append_left hplace
  | goOn i =>
      have hne : i ≠ place := fun heq => hgoOn (heq ▸ rfl)
      exact List.getElem?_modify_ne _ _ hne
  | leave i =>
      have hne : i ≠ place := fun heq => hleave (heq ▸ rfl)
      exact List.getElem?_modify_ne _ _ hne
  | setFlag => rfl
  | notify raiser =>
      rw [step]
      split <;> rfl

end StopSignal

end BalanceLedger
