/-
# `Proofs.Dating` — dates go along with commits

What a commit writes is dated before it is made: an entry and its messages bear what the
clock has shown while the call was planning, and any number of commits can come in
between.  Nothing in the store compares these dates.  They go along with the order of
the commits on a slot all the same, because of two rules that every call keeps:

  * it dates what it writes by readings that it has taken since it has loaded the slot;

  * it asks for the slot to be written on top of the version that it has loaded.

The rules are `Basis.conduct`, with `Carries` for what a change set has to be, and a
program that keeps them is `Careful`.  Most of the module goes along the text of the
operations to see that they are; `Call.careful_execute` is the result of that.

A commit that is accepted has found the version that was loaded, so there has been no
other commit on the slot since then, and whatever earlier commits have written bears an
earlier reading.  `Dated` is the invariant.  It speaks of the plans under way too, since
a date is settled when the clock is read and not when the commit is made; `Dated.read`,
`Dated.load` and `Dated.commit` are the three steps that matter to it.

By `dated_run` it holds in every interleaving of careful parties, callers or not.  It
takes no more than a clock that does not step back (`Steady`), and a version that has
not come all the way round.
-/
import BalanceLedger.Proofs.Procedure
import BalanceLedger.Proofs.Representation

namespace BalanceLedger

open Outbox (Message)
open Store (ChangeSet Memory)
open Time (Instant)

def Store.ChangeSet.dates (c : ChangeSet) : List Instant :=
  c.entry.toList.map Entry.date ++ c.outbox.map Message.occurredAt

/-- What a plan goes by. -/
structure Basis where
  /-- The slot that was loaded last, with the key that it was asked for by. -/
  loaded : Option (Slot.Key × Option Slot) := none
  /-- What the clock has shown since. -/
  shown : List Instant := []

namespace Basis

/-! ## The rules -/

/-- The change set is made on top of the slot that was `loaded`, and dated since. -/
def Carries (s : Basis) (c : ChangeSet) : Prop :=
  ∃ key stored, s.loaded = some (key, stored) ∧
    c.slot.key = (stored.map Slot.key).getD key ∧ c.expected = Slot.versionRead stored ∧
    c.slot.version = c.expected + 1 ∧ c.dates.Sublist s.shown

/-- A plan only looks things up, and what it comes to is carried by what it goes by. -/
def may (s : Basis) : World.Request → Prop
  | .store (.commit c) => s.Carries c
  | .plan q => q.isLookup = true
  | _ => True

def learn (s : Basis) : (q : Store.Request) → q.Answer → Basis
  | .loadSlot account currency, stored => { loaded := some ((account, currency), stored) }
  | _, _ => s

/-- What a plan goes by after a reply. -/
def moved (s : Basis) : (request : World.Request) → World.Reply request → Basis
  | .plan q, some (.ok answer) => s.learn q answer
  | .clock, now => { s with shown := s.shown ++ [now] }
  | _, _ => s

/-- The rules; they are kept whatever the replies are. -/
def conduct : Conduct World Basis where
  may := may
  hears _ _ := True
  moved := moved

/-- A program keeps the rules of `conduct`, whatever it goes by when it starts. -/
def Careful {α : Type} (p : Program World α) : Prop :=
  ∀ s, conduct.Keeps p (fun _ _ => True) s

section

variable {α β : Type} {s : Basis} {Q : Except LedgerError β → Basis → Prop}

theorem Careful.map {p : Program World α} (h : Careful p) (f : α → β) : Careful (f <$> p) :=
  fun s => (congrFun (Program.wp_map f p _) s).mpr (h s)

theorem Careful.bind {o : Operation α} {f : α → Operation β} (h : Careful o.run)
    (hf : ∀ a, Careful (f a).run) : Careful (o >>= f).run := by
  intro s
  rw [Conduct.Keeps, Operation.wp_bind]
  refine Program.wp_mono Conduct.mono_asks (fun r t _ => ?_) _ s (h s)
  cases r with
  | ok a => exact hf a t
  | error e => trivial

theorem Careful.lift_bind {p : Program World α} {f : α → Operation β} (h : Careful p)
    (hf : ∀ a, Careful (f a).run) : Careful ((liftM p : Operation α) >>= f).run :=
  Careful.bind (fun s => by rw [Conduct.Keeps, Operation.wp_lift]; exact h s) hf

theorem careful_return (a : α) : Careful (return a : Operation α).run :=
  fun _ => trivial

theorem careful_throw (e : LedgerError) : Careful (throw e : Operation α).run :=
  fun _ => trivial

theorem careful_log_bind {level : Log.Level} {text : String} {fields : List (String × Json)}
    {f : Unit → Operation β} (hf : Careful (f ()).run) :
    Careful ((liftM (World.log level text fields) : Operation Unit) >>= f).run :=
  Careful.lift_bind (fun _ => ⟨trivial, fun _ _ => trivial⟩) fun _ => hf

theorem careful_freshId_bind {f : Uuid → Operation β} (hf : ∀ id, Careful (f id).run) :
    Careful ((liftM World.freshId : Operation Uuid) >>= f).run :=
  Careful.lift_bind (fun _ => ⟨trivial, fun _ _ => trivial⟩) hf

theorem careful_lawful (x : Except DomainError α) : Careful (Operation.lawful x).run := by
  cases x with
  | ok a => exact careful_return a
  | error e => exact careful_throw _

theorem careful_money (x : Except MoneyError α) : Careful (Operation.money x).run := by
  cases x with
  | ok a => exact careful_return a
  | error e => exact careful_throw _

theorem careful_ask {q : Store.Request} (hq : q.isLookup = true) :
    Careful (Operation.ask q).run := by
  intro s
  have hmay : s.may (.store q) := by
    cases q with
    | commit => exact absurd hq (by simp [Store.Request.isLookup])
    | _ => trivial
  refine ⟨hmay, fun reply _ => ?_⟩
  cases reply with
  | ok _ => trivial
  | error _ => trivial

theorem careful_retrying {policy : RetryPolicy} {name : String} {once : Operation β}
    (h : Careful once.run) : Careful (Operation.retrying policy name once).run := by
  intro s
  refine Operation.wp_retrying Conduct.mono_asks (fun attempt t (_ : True) => ?_)
    (fun line t _ => ⟨trivial, fun _ _ => trivial⟩) (fun t _ => ?_) (fun _ _ _ => trivial) trivial
  · -- a pause draws its random part, says how long it is, and waits
    exact ⟨trivial, fun _ _ => ⟨trivial, fun _ _ => ⟨trivial, fun _ _ => trivial⟩⟩⟩
  · refine Program.wp_mono Conduct.mono_asks (fun r u _ => ?_) _ t (h t)
    cases r with
    | ok _ => trivial
    | error e =>
        show if e.isVersionConflict then True else True
        split <;> trivial

theorem careful_planning_bind {plan : Operation α} {f : α → Operation β}
    (h : ∀ s, plan.run.wp conduct.asks (Operation.Then conduct.asks f fun _ _ => True) s) :
    Careful (Operation.planning plan >>= f).run := by
  intro s
  rw [Conduct.Keeps, Operation.wp_bind]
  refine ⟨trivial, fun stop _ => ?_⟩
  cases stop with
  | false => exact h s
  | true => trivial

theorem wp_commit {c : ChangeSet} {Q : Except StoreError Unit → Basis → Prop} (hs : s.Carries c)
    (h : ∀ r, Q r s) : (World.store (.commit c)).wp conduct.asks Q s :=
  ⟨hs, fun r _ => h r⟩

theorem wp_commit_bind {c : ChangeSet} {f : Except StoreError Unit → Operation β}
    (hs : s.Carries c) (hf : ∀ r, Careful (f r).run) :
    ((liftM (World.store (.commit c)) : Operation _) >>= f).run.wp conduct.asks
      (fun _ _ => True) s := by
  rw [Operation.wp_lift_bind]
  exact wp_commit hs fun r => hf r s

/-! ## Parts of plans -/

theorem wp_clock_bind {f : Instant → Operation β}
    (h : ∀ now, (f now).run.wp conduct.asks Q { s with shown := s.shown ++ [now] }) :
    ((liftM World.clock : Operation Instant) >>= f).run.wp conduct.asks Q s := by
  rw [Operation.wp_lift_bind]
  exact ⟨trivial, fun now _ => h now⟩

theorem wp_freshId_bind {f : Uuid → Operation β}
    (h : ∀ id, (f id).run.wp conduct.asks Q s) :
    ((liftM World.freshId : Operation Uuid) >>= f).run.wp conduct.asks Q s := by
  rw [Operation.wp_lift_bind]
  exact ⟨trivial, fun id _ => h id⟩

theorem wp_read_bind {q : Store.Request} {f : q.Answer → Operation β} (hq : q.isLookup = true)
    (herror : ∀ e, Q (.error e) s) (h : ∀ a, (f a).run.wp conduct.asks Q (s.learn q a)) :
    (Operation.read q >>= f).run.wp conduct.asks Q s := by
  refine ⟨hq, fun reply _ => ?_⟩
  match reply with
  | none => exact herror _
  | some (.error e) => exact herror _
  | some (.ok a) => exact h a

theorem wp_stage {origin : Origin} {events : List Event} {Q : List Message → Basis → Prop} :
    ∀ {s : Basis},
      (∀ messages, Q messages { s with shown := s.shown ++ messages.map Message.occurredAt }) →
      (World.stage origin events).wp conduct.asks Q s := by
  induction events generalizing Q with
  | nil =>
      intro s h
      have hnone := h []
      rwa [List.map_nil, List.append_nil] at hnone
  | cons event events ih =>
      intro s h
      refine ⟨trivial, fun id _ => ⟨trivial, fun now _ => ?_⟩⟩
      refine (congrFun (Program.wp_map _ _ Q) _).mpr (ih fun messages => ?_)
      have hall := h (.ofEvent event origin id now :: messages)
      rwa [List.map_cons, List.append_cons] at hall

theorem wp_stage_bind {origin : Origin} {events : List Event}
    {f : List Message → Operation β}
    (h : ∀ messages, (f messages).run.wp conduct.asks Q
      { s with shown := s.shown ++ messages.map Message.occurredAt }) :
    ((liftM (World.stage origin events) : Operation _) >>= f).run.wp conduct.asks Q s := by
  rw [Operation.wp_lift_bind]
  exact wp_stage h

end

end Basis

open BalanceLedger.Basis (Careful)

/-! ## Postings -/

namespace Posting

variable {p : Posting} {origin : Origin}

theorem careful_replay (winner : Entry) : Careful (p.replay winner) := by
  intro s
  unfold replay
  cases p.agrees winner with
  | true => trivial
  | false => exact ⟨trivial, fun _ _ => trivial⟩

theorem carries_earlier_bind {β : Type} {f : Option Entry → Operation β} {s : Basis}
    {Q : Except LedgerError β → Basis → Prop} (herror : ∀ e, Q (.error e) s)
    (h : ∀ found, (f found).run.wp Basis.conduct.asks Q s) :
    (p.earlier >>= f).run.wp Basis.conduct.asks Q s := by
  unfold earlier
  cases p.draft.key with
  | none => exact h none
  | some key => exact Basis.wp_read_bind rfl herror h

theorem carries_plan {Q : Except LedgerError PostingPlan → Basis → Prop} {s : Basis}
    (herror : ∀ e t, Q (.error e) t) (hheld : ∀ winner t, Q (.ok (.replay winner)) t)
    (hplanned : ∀ c r t, t.Carries c → Q (.ok (.commit c r)) t) :
    (p.plan origin).run.wp Basis.conduct.asks Q s := by
  refine carries_earlier_bind (fun e => herror e s) fun found => ?_
  cases found with
  | some winner => exact hheld winner s
  | none =>
      refine Basis.wp_read_bind rfl (fun e => herror e s) fun stored => ?_
      refine Basis.wp_clock_bind fun now =>
        Operation.wp_lawful_bind (fun q hmove => ?_) fun e _ => herror _ _
      refine Basis.wp_freshId_bind fun id => Basis.wp_clock_bind fun later =>
        Operation.wp_lawful_bind (fun e hpost => ?_) fun e _ => herror _ _
      refine Basis.wp_stage_bind fun outbox => ?_
      obtain rfl := Entry.post_ok hpost
      obtain ⟨hsucceeds, -⟩ := Slot.move_ok hmove
      refine hplanned _ _ _ ⟨p.slotKey, stored, rfl, ?_, ?_, hsucceeds.version, ?_⟩
      · rw [hsucceeds.key]
        cases stored <;> rfl
      · exact Slot.version_getD_opened ..
      · -- the slot is dated by the first reading, the entry by the second
        exact (List.sublist_append_right [now] [later]).append_right _

theorem careful_once : Careful (p.once origin).run := by
  refine Basis.careful_planning_bind fun s => carries_plan (fun _ _ => trivial) ?_ ?_
  · intro winner t
    refine (congrFun (Operation.wp_lift (p.replay winner) _) t).mpr (careful_replay winner t)
  · intro c r t hcarries
    refine Basis.wp_commit_bind hcarries fun verdict => ?_
    match verdict with
    | .ok () => exact Basis.careful_log_bind (Basis.careful_return _)
    | .error (.duplicateKey text) =>
        refine (Basis.careful_lawful _).bind fun key => (Basis.careful_ask rfl).bind fun found => ?_
        cases found with
        | none => exact Basis.careful_throw _
        | some winner =>
            exact fun t => (congrFun (Operation.wp_lift (p.replay winner) _) t).mpr
              (careful_replay winner t)
    | .error (.versionConflict ..) | .error (.duplicateVoid _) | .error (.corrupt _)
    | .error (.database _) | .error (.notClaimed _) => exact Basis.careful_throw _

end Posting

/-! ## Voids -/

namespace VoidCommand

variable {c : VoidCommand} {origin : Origin}

theorem carries_plan {Q : Except LedgerError VoidPlan → Basis → Prop} {s : Basis}
    (herror : ∀ e t, Q (.error e) t) (hplanned : ∀ plan t, t.Carries plan.changes → Q (.ok plan) t) :
    (c.plan origin).run.wp Basis.conduct.asks Q s := by
  refine Basis.wp_read_bind rfl (fun e => herror e s) fun found => ?_
  cases found with
  | none => exact herror _ _
  | some target =>
      dsimp only
      cases hvoid : target.isVoid with
      | true => exact herror _ _
      | false =>
          refine Basis.wp_read_bind rfl (fun e => herror e _) fun voided => ?_
          cases voided with
          | some _ => exact herror _ _
          | none =>
              refine Basis.wp_read_bind rfl (fun e => herror e _) fun stored => ?_
              cases stored with
              | none => exact herror _ _
              | some slot =>
                  refine Operation.wp_money_bind (fun amount _ => ?_) fun e _ => herror _ _
                  refine Basis.wp_clock_bind fun now =>
                    Operation.wp_lawful_bind (fun q hmove => ?_) fun e _ => herror _ _
                  refine Basis.wp_freshId_bind fun id => Basis.wp_clock_bind fun later =>
                    Operation.wp_lawful_bind (fun q hentry => ?_) fun e _ => herror _ _
                  refine Basis.wp_stage_bind fun outbox => ?_
                  obtain ⟨hsucceeds, -⟩ := Slot.move_ok hmove
                  refine hplanned _ _ ⟨target.slotKey, some slot, rfl, hsucceeds.key, rfl,
                    hsucceeds.version, ?_⟩
                  rw [Store.ChangeSet.dates, (Entry.void_ok hentry).1]
                  exact (List.sublist_append_right [now] [later]).append_right _

theorem careful_once : Careful (c.once origin).run := by
  refine Basis.careful_planning_bind fun s => carries_plan (fun _ _ => trivial) ?_
  intro plan t hcarries
  refine Basis.wp_commit_bind hcarries fun verdict => ?_
  match verdict with
  | .ok () => exact Basis.careful_log_bind (Basis.careful_return _)
  | .error e => cases e <;> exact Basis.careful_throw _

end VoidCommand

/-! ## Reservations -/

namespace Earmark

variable {k : Earmark} {account : Uuid} {currency : Currency} {amount : Amount} {origin : Origin}

theorem carries_plan {Q : Except LedgerError (ChangeSet × ReservationResult) → Basis → Prop}
    {s : Basis} (herror : ∀ e t, Q (.error e) t)
    (hplanned : ∀ c r t, t.Carries c → Q (.ok (c, r)) t) :
    (k.plan account currency amount origin).run.wp Basis.conduct.asks Q s := by
  refine Basis.wp_read_bind rfl (fun e => herror e s) fun stored => ?_
  cases stored with
  | none => exact herror _ _
  | some slot =>
      refine Basis.wp_clock_bind fun now =>
        Operation.wp_lawful_bind (fun q hchange => ?_) fun e _ => herror _ _
      refine Basis.wp_stage_bind fun outbox => ?_
      obtain ⟨hsucceeds, -⟩ := change_keeps hchange
      exact hplanned _ _ _ ⟨(account, currency), some slot, rfl, hsucceeds.key, rfl,
        hsucceeds.version, List.sublist_append_right [now] _⟩

theorem careful_once : Careful (k.once account currency amount origin).run := by
  refine Basis.careful_planning_bind fun s => carries_plan (fun _ _ => trivial) ?_
  intro c r t hcarries
  refine Operation.wp_ask_bind (Basis.wp_commit hcarries fun verdict => ?_)
  cases verdict with
  | ok _ => exact Basis.careful_log_bind (Basis.careful_return _) _
  | error e => trivial

end Earmark

/-! ## Calls -/

/-- Every call is `Careful`. -/
theorem Call.careful_execute (call : Call) : Careful call.execute.run := by
  obtain ⟨command, policy, origin⟩ := call
  cases command with
  | post c =>
      refine Careful.bind ?_ fun _ => Basis.careful_return _
      exact (Basis.careful_lawful _).bind fun _ => Basis.careful_retrying Posting.careful_once
  | void c =>
      refine Careful.bind ?_ fun _ => Basis.careful_return _
      unfold VoidCommand.execute
      dsimp only
      split
      · exact Basis.careful_throw _
      · exact Basis.careful_retrying VoidCommand.careful_once
  | adjust c =>
      refine Careful.bind ?_ fun _ => Basis.careful_return _
      refine Basis.careful_freshId_bind fun _ => (Basis.careful_lawful _).bind fun _ => ?_
      refine (Basis.careful_retrying Posting.careful_once).bind fun _ => ?_
      exact Basis.careful_log_bind (Basis.careful_return _)
  | earmark k c =>
      refine Careful.bind ?_ fun _ => Basis.careful_return _
      unfold ReserveCommand.execute
      -- how the currency is read is kept out of the way of unification
      generalize Currency.parse c.currency = parsed
      refine (Basis.careful_money _).bind fun _ => (Basis.careful_money _).bind fun _ => ?_
      exact Basis.careful_retrying Earmark.careful_once

/-! ## What has been shown and what has been written -/

def Turn.shown? : Turn World → Option Instant
  | ⟨.clock, now⟩ => some now
  | _ => none

namespace Interleaving

variable {τ α : Type} [Task τ α]

/-- What the clock has shown to the parties, in order. -/
def readings (s : Interleaving τ α) (steps : List (Step τ)) : List Instant :=
  (s.transcript steps).filterMap fun u => u.turn.shown?

/-- The clock has not stepped back: the `readings` are in order. -/
def Steady (s : Interleaving τ α) (steps : List (Step τ)) : Prop :=
  (s.readings steps).Pairwise (· ≤ ·)

instance (s : Interleaving τ α) (steps : List (Step τ)) : Decidable (s.Steady steps) :=
  inferInstanceAs (Decidable (List.Pairwise _ _))

/-- What the plan of the party at a place goes by. -/
def basisAt (s : Interleaving τ α) (steps : List (Step τ)) (place : Nat) : Basis :=
  Basis.conduct.after {} (s.dialogue steps place)

end Interleaving

namespace Store.Memory

def changesOn (key : Slot.Key) (journal : List (Nat × ChangeSet)) : List ChangeSet :=
  (journal.filter fun p => p.2.slot.key = key).map Prod.snd

/-- The dates of what a journal has written for a slot, in the order of the commits. -/
def datesOn (key : Slot.Key) (journal : List (Nat × ChangeSet)) : List Instant :=
  (changesOn key journal).flatMap ChangeSet.dates

theorem length_changesOn (key : Slot.Key) (journal : List (Nat × ChangeSet)) :
    (changesOn key journal).length = commitsOn key journal := by
  rw [changesOn, List.length_map, commitsOn, List.countP_eq_length_filter]

theorem changesOn_concat (key : Slot.Key) (journal : List (Nat × ChangeSet)) (p : Nat × ChangeSet) :
    changesOn key (journal ++ [p]) =
      changesOn key journal ++ if p.2.slot.key = key then [p.2] else [] := by
  rw [changesOn, List.filter_append, List.map_append, changesOn]
  by_cases hkey : p.2.slot.key = key <;> simp [hkey]

theorem commitsOn_concat (key : Slot.Key) (journal : List (Nat × ChangeSet)) (p : Nat × ChangeSet) :
    commitsOn key (journal ++ [p]) = commitsOn key journal + if p.2.slot.key = key then 1 else 0 := by
  rw [commitsOn_append]
  by_cases hkey : p.2.slot.key = key <;> simp [commitsOn, hkey]

theorem datesOn_concat (key : Slot.Key) (journal : List (Nat × ChangeSet)) (p : Nat × ChangeSet) :
    datesOn key (journal ++ [p]) =
      datesOn key journal ++ if p.2.slot.key = key then p.2.dates else [] := by
  rw [datesOn, changesOn_concat, List.flatMap_append, datesOn]
  split <;> simp

theorem eq_of_ofNat_eq {n k : Nat} (hn : n < versions) (hk : k < versions)
    (h : Int64.ofNat n = Int64.ofNat k) : n = k := by
  have hbits := congrArg (fun i : Int64 => i.toBitVec.toNat) h
  simp only [Int64.toBitVec_ofNat', BitVec.toNat_ofNat] at hbits
  unfold versions Word.maxNat64 at hn hk
  omega

end Store.Memory

/-- The dates that a journal has written go along with its commits, and so do the dates that plans
under way are going to write, where `basis` is what they go by. -/
structure Dated (m : Memory) (journal : List (Nat × ChangeSet)) (readings : List Instant)
    (basis : Nat → Basis) : Prop where
  slot_key : ∀ key slot, m.slots.get? key = some slot → slot.key = key
  version : ∀ key, m.versionOf key = Int64.ofNat (Memory.commitsOn key journal)
  /-- The version that a commit writes is its number among the commits on the slot. -/
  counted : ∀ key n c, (Memory.changesOn key journal)[n]? = some c →
    c.slot.version = Int64.ofNat (n + 1)
  shown : ∀ place, (basis place).shown.Sublist readings
  dates : ∀ key, ∀ t ∈ Memory.datesOn key journal, t ∈ readings
  sorted : ∀ key, (Memory.datesOn key journal).Pairwise (· ≤ ·)
  /-- A plan has loaded what was stored after some of the commits.  If there has been none on the
  slot since then, all that has been written for it is older than what the plan goes by. -/
  loaded : ∀ place key stored, (basis place).loaded = some (key, stored) →
    (stored.map Slot.key).getD key = key ∧
    ∃ n ≤ Memory.commitsOn key journal, Slot.versionRead stored = Int64.ofNat n ∧
      (n = Memory.commitsOn key journal →
        ∀ t ∈ Memory.datesOn key journal, ∀ now ∈ (basis place).shown, t ≤ now)

namespace Dated

variable {m m' : Memory} {journal : List (Nat × ChangeSet)} {readings : List Instant}
  {basis basis' : Nat → Basis}

theorem empty : Dated .empty [] [] fun _ => {} where
  slot_key key slot h := absurd h (by simp [Memory.empty, Index.get?, Index.find?])
  version _ := rfl
  counted _ _ _ h := absurd h (by simp [Memory.changesOn])
  shown _ := List.Sublist.refl _
  dates _ _ h := absurd h List.not_mem_nil
  sorted _ := List.Pairwise.nil
  loaded _ _ _ h := absurd h (by simp)

theorem of_slots_eq (h : Dated m journal readings basis) (hm : m'.slots = m.slots) :
    Dated m' journal readings basis where
  slot_key := hm ▸ h.slot_key
  version key := by
    rw [Memory.versionOf, hm]
    exact h.version key
  counted := h.counted
  shown := h.shown
  dates := h.dates
  sorted := h.sorted
  loaded := h.loaded

theorem read (h : Dated m journal readings basis) {now : Instant}
    (hlast : ∀ t ∈ readings, t ≤ now) {place : Nat}
    (hbasis : ∀ n, basis' n =
      if place = n then { basis n with shown := (basis n).shown ++ [now] } else basis n) :
    Dated m journal (readings ++ [now]) basis' where
  slot_key := h.slot_key
  version := h.version
  counted := h.counted
  shown n := by
    rw [hbasis]
    split
    · exact (h.shown n).append_right _
    · exact (h.shown n).trans (List.sublist_append_left ..)
  dates key t ht := List.mem_append_left _ (h.dates key t ht)
  sorted := h.sorted
  loaded n key stored hloaded := by
    have hsame : (basis' n).loaded = (basis n).loaded := by
      rw [hbasis]
      split <;> rfl
    obtain ⟨hkey, k, hk, hversion, holder⟩ := h.loaded n key stored (hsame ▸ hloaded)
    refine ⟨hkey, k, hk, hversion, fun heq t ht later hlater => ?_⟩
    rw [hbasis] at hlater
    split at hlater
    · rcases List.mem_append.mp hlater with hlater | hlater
      · exact holder heq t ht later hlater
      · -- whatever is written has been shown before
        rw [List.mem_singleton.mp hlater]
        exact hlast t (h.dates key t ht)
    · exact holder heq t ht later hlater

theorem load (h : Dated m journal readings basis) {place : Nat} {key : Slot.Key}
    (hbasis : ∀ n, basis' n =
      if place = n then { loaded := some (key, m.slots.get? key) } else basis n) :
    Dated m journal readings basis' where
  slot_key := h.slot_key
  version := h.version
  counted := h.counted
  shown n := by
    rw [hbasis]
    split
    · exact List.nil_sublist _
    · exact h.shown n
  dates := h.dates
  sorted := h.sorted
  loaded n key' stored hloaded := by
    rw [hbasis] at hloaded ⊢
    split at hloaded
    · rename_i hplace
      obtain ⟨rfl, rfl⟩ := Prod.mk.inj (Option.some.inj hloaded)
      rw [if_pos hplace]
      refine ⟨?_, Memory.commitsOn key journal, Nat.le_refl _, h.version key,
        fun _ _ _ _ hnow => absurd hnow List.not_mem_nil⟩
      cases hslot : m.slots.get? key with
      | none => rfl
      | some slot => exact h.slot_key key slot hslot
    · rename_i hplace
      rw [if_neg hplace]
      exact h.loaded n key' stored hloaded

/-- What is committed on top of what was loaded is dated after all that has been written for the
slot. -/
theorem commit (h : Dated m journal readings basis) {place : Nat} {c : ChangeSet}
    (hcarries : (basis place).Carries c) (haccepted : m.fault? c = none)
    (hfew : ∀ key, Memory.commitsOn key journal < Memory.versions)
    (hsteady : readings.Pairwise (· ≤ ·)) :
    Dated (m.write c) (journal ++ [(place, c)]) readings basis := by
  obtain ⟨key, stored, hloaded, hslot, hexpected, hnext, hdates⟩ := hcarries
  obtain ⟨hkey, n, hn, hread, holder⟩ := h.loaded place key stored hloaded
  obtain rfl : c.slot.key = key := hslot.trans hkey
  have hversion : m.versionOf c.slot.key = c.expected :=
    (Memory.fault?_eq_none_iff.mp haccepted).1
  have hcurrent : n = Memory.commitsOn c.slot.key journal := by
    refine Memory.eq_of_ofNat_eq (Nat.lt_of_le_of_lt hn (hfew _)) (hfew _) ?_
    rw [← h.version, hversion, hexpected, hread]
  have hcounted : c.slot.version = Int64.ofNat (Memory.commitsOn c.slot.key journal + 1) := by
    rw [hnext, ← hversion, h.version, Int64.ofNat_add]
    rfl
  have hshown := hdates.trans (h.shown place)
  refine ⟨?slot_key, ?version, ?counted, h.shown, ?dates, ?sorted, ?loaded⟩
  case slot_key =>
    intro key slot hget
    rw [Memory.get?_slots_write] at hget
    split at hget
    · rename_i hkey
      exact Option.some.inj hget ▸ hkey
    · exact h.slot_key key slot hget
  case version =>
    intro key
    rw [Memory.versionOf_write, Memory.commitsOn_concat]
    split
    · rename_i hkey
      rw [hcounted, hkey]
    · exact h.version key
  case counted =>
    intro key n' c' hc'
    rw [Memory.changesOn_concat] at hc'
    split at hc'
    · rename_i hkey
      rcases Interleaving.getElem?_concat_cases hc' with hc' | ⟨hn', rfl⟩
      · exact h.counted key n' c' hc'
      · rw [hn', Memory.length_changesOn, ← hkey]
        exact hcounted
    · rw [List.append_nil] at hc'
      exact h.counted key n' c' hc'
  case dates =>
    intro key t ht
    rw [Memory.datesOn_concat] at ht
    rcases List.mem_append.mp ht with ht | ht
    · exact h.dates key t ht
    · split at ht
      · exact hshown.subset ht
      · exact absurd ht List.not_mem_nil
  case sorted =>
    intro key
    rw [Memory.datesOn_concat]
    split
    · rename_i hkey
      refine List.pairwise_append.mpr ⟨h.sorted key, hsteady.sublist hshown, ?_⟩
      rw [← hkey]
      exact fun t ht now hnow => holder hcurrent t ht now (hdates.subset hnow)
    · rw [List.append_nil]
      exact h.sorted key
  case loaded =>
    intro n' key stored' hloaded'
    obtain ⟨hkey, k, hk, hread, holder⟩ := h.loaded n' key stored' hloaded'
    rw [Memory.commitsOn_concat, Memory.datesOn_concat]
    refine ⟨hkey, k, by omega, hread, fun heq => ?_⟩
    -- there has been no commit on the slot since it was loaded, so not this one either
    split at heq
    · omega
    · rename_i hother
      rw [if_neg hother, List.append_nil]
      exact holder heq

end Dated

/-! ## Every interleaving -/

namespace Interleaving

variable {τ α : Type} {s : Interleaving τ α}

theorem answered_cases (s : Interleaving τ α) (place : Nat) (p : Party τ α) (w : Moment)
    {request : World.Request} (next : World.Reply request → Program World α) {b : Basis}
    (hmay : b.may request) :
    (∃ c, request = .store (.commit c) ∧ s.memory.fault? c = none ∧
        (s.answered place p w request next).memory = s.memory.write c ∧
        (s.answered place p w request next).journal = s.journal ++ [(place, c)]) ∨
      (∃ outbox, (s.answered place p w request next).memory = { s.memory with outbox } ∧
        (outbox.map Message.label).Sublist (s.memory.outbox.map Message.label)) ∧
        (s.answered place p w request next).journal = s.journal := by
  have hquiet : ∃ outbox, s.memory = { s.memory with outbox } ∧
      (outbox.map Message.label).Sublist (s.memory.outbox.map Message.label) :=
    ⟨s.memory.outbox, rfl, List.Sublist.refl _⟩
  cases request with
  | store q =>
      by_cases hcommit : ∃ c, q = .commit c
      · obtain ⟨c, rfl⟩ := hcommit
        have hmemory : (s.answered place p w (.store (.commit c)) next).memory =
            (s.memory.answer w.now (.commit c)).2 := rfl
        have hjournal : (s.answered place p w (.store (.commit c)) next).journal =
            s.journal ++ (s.memory.accepted? (.store (.commit c))).toList.map
              fun c => (place, c) := rfl
        rw [hmemory, hjournal, Memory.accepted?, World.Request.changes?]
        cases hfault : s.memory.fault? c with
        | none =>
            rw [Memory.answer_commit_accepted hfault]
            exact .inl ⟨c, rfl, hfault, rfl, by simp [hfault]⟩
        | some f =>
            rw [Memory.answer_commit_refused hfault]
            exact .inr ⟨hquiet, by simp [hfault]⟩
      · have hq : ∀ c, q ≠ .commit c := fun c hc => hcommit ⟨c, hc⟩
        refine .inr ⟨s.memory.exists_outbox_answer hq w.now, ?_⟩
        cases q with
        | commit c => exact absurd rfl (hq c)
        | _ => exact List.append_nil _
  | plan q =>
      have hmemory : (w.reply p.stopping s.memory (.plan q)).2 = s.memory := by
        unfold Moment.reply
        split
        · rfl
        · cases q with
          | loadSlot | findEntry | findByKey | findVoidOf => rfl
          | _ => exact absurd hmay (by simp [Basis.may, Store.Request.isLookup])
      refine .inr ⟨?_, List.append_nil _⟩
      rw [answered, hmemory]
      exact hquiet
  | _ => exact .inr ⟨hquiet, List.append_nil _⟩

/-- What a party is answered keeps the journal `Dated`, if its request is allowed. -/
theorem dated_answered {readings : List Instant} {basis : Nat → Basis}
    (h : Dated s.memory s.journal readings basis) {place : Nat} {p : Party τ α} {w : Moment}
    {request : World.Request} {next : World.Reply request → Program World α}
    (hmay : (basis place).may request)
    (hfew : ∀ key, Memory.commitsOn key s.journal < Memory.versions)
    (hsteady : (readings ++ (w.turn p.stopping s.memory request).shown?.toList).Pairwise (· ≤ ·)) :
    Dated (s.answered place p w request next).memory (s.answered place p w request next).journal
      (readings ++ (w.turn p.stopping s.memory request).shown?.toList) fun n =>
        if place = n then
          Basis.moved (basis n) request (w.turn p.stopping s.memory request).reply
        else basis n := by
  rcases s.answered_cases place p w next hmay with
    ⟨c, rfl, haccepted, hmemory, hjournal⟩ | ⟨⟨outbox, hmemory, -⟩, hjournal⟩
  · rw [hmemory, hjournal]
    have hwritten := h.commit hmay haccepted hfew (hsteady.sublist (List.sublist_append_left ..))
    show Dated (s.memory.write c) (s.journal ++ [(place, c)]) (readings ++ []) fun n =>
      if place = n then basis n else basis n
    simpa only [ite_self, List.append_nil] using hwritten
  · rw [hjournal]
    have hslots : (s.answered place p w request next).memory.slots = s.memory.slots := by
      rw [hmemory]
    refine Dated.of_slots_eq ?_ hslots
    have hsame : Dated s.memory s.journal (readings ++ []) fun n =>
        if place = n then basis n else basis n := by
      simpa only [ite_self, List.append_nil] using h
    cases request with
    | clock =>
        have hlast := (List.pairwise_append.mp hsteady).2.2
        exact h.read (fun t ht => hlast t ht w.now (List.mem_singleton.mpr rfl)) fun _ => rfl
    | plan q =>
        show Dated s.memory s.journal (readings ++ []) fun n =>
          if place = n then
            Basis.moved (basis n) (.plan q) (w.reply p.stopping s.memory (.plan q)).1
          else basis n
        by_cases hgiven : (p.stopping && w.yields) = true
        · have hreply : (w.reply p.stopping s.memory (.plan q)).1 = none := by
            simp [Moment.reply, hgiven]
          rw [hreply]
          exact hsame
        · have hreply : (w.reply p.stopping s.memory (.plan q)).1 =
              some (s.memory.answer w.now q).1 := by
            simp [Moment.reply, hgiven]
          rw [hreply]
          cases q with
          | loadSlot account currency =>
              rw [List.append_nil]
              exact h.load fun _ => rfl
          | findEntry | findByKey | findVoidOf => exact hsame
          | _ => exact absurd hmay (by simp [Basis.may, Store.Request.isLookup])
    | _ => exact hsame

variable [Task τ α] {steps : List (Step τ)} {x : Step τ} {u : Utterance}

theorem readings_concat (s : Interleaving τ α) (steps : List (Step τ)) (x : Step τ) :
    s.readings (steps ++ [x]) =
      s.readings steps ++ (((s.run steps).heard? x).bind fun u => u.turn.shown?).toList := by
  rw [readings, transcript_concat, List.filterMap_append, readings]
  cases (s.run steps).heard? x with
  | none => rfl
  | some u => cases hshown : u.turn.shown? <;> simp [hshown]

theorem basisAt_concat (h : (s.run steps).heard? x = some u) (n : Nat) :
    s.basisAt (steps ++ [x]) n =
      if u.place = n then Basis.moved (s.basisAt steps n) u.turn.request u.turn.reply
      else s.basisAt steps n := by
  rw [basisAt, dialogue_concat, dialogue_singleton h]
  split
  · exact Conduct.after_concat
  · rw [List.append_nil]
    rfl

theorem step_of_heard?_eq_none (h : s.heard? x = none) :
    (s.step x).memory = s.memory ∧ (s.step x).journal = s.journal := by
  cases x with
  | act place w =>
      rcases s.act_heard place w with ⟨-, hact⟩ | ⟨_, _, _, -, -, -, hsome, -⟩
      · rw [step, hact]
        exact ⟨rfl, rfl⟩
      · exact absurd (h.symm.trans hsome) (by simp)
  | _ => exact ⟨rfl, rfl⟩

/-- Dates go along with commits in every interleaving of parties that are `Careful`, as long as the
clock does not step back and no version comes round. -/
theorem dated_run (hcareful : ∀ task : τ, Basis.Careful (Task.program task))
    (steps : List (Step τ)) :
    let start : Interleaving τ α := on .empty
    let s := start.run steps
    start.Steady steps → (∀ key, Memory.commitsOn key s.journal < Memory.versions) →
      Dated s.memory s.journal (start.readings steps) (start.basisAt steps) := by
  intro start s
  induction steps using List.reverseRecOn with
  | nil => exact fun _ _ => .empty
  | append_singleton steps x ih =>
      intro hsteady hfew
      rw [Steady, readings_concat] at hsteady
      have hrun : s = (start.run steps).step x := run_concat start steps x
      rw [readings_concat, hrun]
      obtain ⟨rest, hrest⟩ : (start.run steps).journal <+: s.journal := by
        rw [hrun]
        exact journal_run_mono (start.run steps) [x]
      have hfew' : ∀ key, Memory.commitsOn key (start.run steps).journal < Memory.versions := by
        intro key
        refine Nat.lt_of_le_of_lt ?_ (hfew key)
        rw [← hrest, Memory.commitsOn_append]
        exact Nat.le_add_right ..
      have hbefore := ih (hsteady.sublist (List.sublist_append_left ..)) hfew'
      cases hx : (start.run steps).heard? x with
      | none =>
          obtain ⟨hmemory, hjournal⟩ := step_of_heard?_eq_none hx
          rw [hmemory, hjournal, Option.bind_none, Option.toList_none, List.append_nil]
          have hbasis : start.basisAt (steps ++ [x]) = start.basisAt steps := by
            funext place
            rw [basisAt, dialogue_concat, dialogue_singleton_of_none hx, List.append_nil, basisAt]
          rw [hbasis]
          exact hbefore
      | some u =>
          have hbasis : start.basisAt (steps ++ [x]) = fun n =>
              if u.place = n then
                Basis.moved (start.basisAt steps n) u.turn.request u.turn.reply
              else start.basisAt steps n := funext fun n => basisAt_concat hx n
          rw [hx, Option.bind_some] at hsteady
          rw [hbasis, Option.bind_some]
          cases x with
          | act place w =>
              rcases (start.run steps).act_heard place w with
                ⟨hnone, -⟩ | ⟨p, request, next, hp, hrest, -, hsome, hact⟩
              · exact absurd (hnone.symm.trans hx) (by simp)
              · obtain rfl := Option.some.inj (hsome.symm.trans hx)
                obtain ⟨-, hkeeps⟩ := keeps_run hp (hcareful p.task {}) fun _ _ _ => trivial
                rw [hrest] at hkeeps
                rw [step, hact]
                exact dated_answered hbefore hkeeps.1 hfew' hsteady
          | _ => exact absurd hx (by simp [heard?])

end Interleaving

end BalanceLedger
