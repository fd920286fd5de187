/-
# `Proofs.Alone` — operations that run alone

A program runs alone on a store if nobody else works on it meanwhile and no shutdown
comes.  What it answers then and the store it leaves follow from the store it finds, the
identifiers it draws and the clock; the relation `Alone` says so without speaking of
parties.  It is inductive along the program, and it lists the identifiers that are
drawn, in their order, because a serial run has to draw the same ones.

There is one rule for each part that operations are made of, and an operation is run by
applying them along its text.  Only `retrying` needs a condition, that the first attempt
does not lose the race.

An operation that runs alone is a block of an interleaving: it starts, and every step
until it returns is one of its own.  `exists_turn` makes the block, so whatever runs
alone can follow any interleaving, as long as it draws identifiers that nobody has
drawn.  The moments of the block are read off the derivation by `exists_run`.
-/
import BalanceLedger.Proofs.Effect

namespace BalanceLedger

open Store (ChangeSet Memory)
open Time (Instant)

/-- The program, alone on a store, draws these identifiers, answers and leaves a store. -/
inductive Alone {α : Type} : Program World α → Memory → List Uuid → α → Memory → Prop
  | done (a : α) (m : Memory) : Alone (.done a) m [] a m
  | ask (w : Moment) {request : World.Request} {next : World.Reply request → Program World α}
      {m m' : Memory} {ids : List Uuid} {a : α} :
      (∀ id ∈ w.drawn request, id ∉ m.ids) →
      Alone (next (w.reply false m request).1) (w.reply false m request).2 ids a m' →
      Alone (.ask request next) m (w.drawn request ++ ids) a m'

namespace Alone

variable {α β : Type} {m m₁ m' : Memory} {ids ids' : List Uuid}

/-! ## Programs -/

theorem bind {p : Program World α} {f : α → Program World β} {a : α} {b : β}
    (hp : Alone p m ids a m₁) (hf : Alone (f a) m₁ ids' b m') :
    Alone (p.bind f) m (ids ++ ids') b m' := by
  induction hp with
  | done => exact hf
  | ask w hfresh _ ih =>
      rw [List.append_assoc]
      exact .ask w hfresh (ih hf)

theorem freshId {id : Uuid} (h : id ∉ m.ids) : Alone World.freshId m [id] id m :=
  .ask { now := .epoch, id } (by simpa [Moment.drawn] using h) (.done id m)

theorem clock (now : Instant) : Alone World.clock m [] now m :=
  .ask { now } (by simp [Moment.drawn]) (.done now m)

theorem log (level : Log.Level) (message : String) (fields : List (String × Json)) :
    Alone (World.log level message fields) m [] () m :=
  .ask { now := .epoch } (by simp [Moment.drawn]) (.done () m)

theorem stage {origin : Origin} {events : List Event} {messages : List Outbox.Message}
    (h : World.Staged origin events ids messages) (hfresh : ∀ id ∈ ids, id ∉ m.ids) :
    Alone (World.stage origin events) m ids messages m := by
  induction h with
  | nil => exact .done [] m
  | cons event id now hstaged ih =>
      have hid : id ∉ m.ids := hfresh id (by simp)
      have hrest := ih fun id hid => hfresh id (List.mem_cons_of_mem _ hid)
      have hmessage := bind (f := fun rest => .done (.ofEvent event origin id now :: rest)) hrest
        (.done _ m)
      rw [List.append_nil] at hmessage
      exact bind (freshId hid) (bind (f := fun now => (World.stage origin _).bind fun rest =>
        .done (.ofEvent event origin id now :: rest)) (clock now) hmessage)

theorem commit {c : ChangeSet} (h : m.fault? c = none) :
    Alone (World.store (.commit c)) m [] (.ok ()) (m.write c) := by
  have hreply : ({ now := .epoch } : Moment).reply false m (.store (.commit c)) =
      (.ok (), m.write c) := by
    simp [Moment.reply, Memory.answer_commit_accepted h]
  refine .ask { now := .epoch } (by simp [Moment.drawn]) ?_
  rw [hreply]
  exact .done _ _

/-! ## Operations -/

variable {r : Except LedgerError β}

theorem bind_run {o : Operation α} {f : α → Operation β} {a : α}
    (ho : Alone o.run m ids (.ok a) m₁) (hf : Alone (f a).run m₁ ids' r m') :
    Alone (o >>= f).run m (ids ++ ids') r m' := by
  rw [ExceptT.run_bind]
  exact bind ho hf

theorem bind_first {o : Operation α} {f : α → Operation β} {a : α}
    (ho : Alone o.run m [] (.ok a) m₁) (hf : Alone (f a).run m₁ ids r m') :
    Alone (o >>= f).run m ids r m' :=
  bind_run ho hf

theorem bind_last {o : Operation α} {f : α → Operation β} {a : α}
    (ho : Alone o.run m ids (.ok a) m₁) (hf : Alone (f a).run m₁ [] r m') :
    Alone (o >>= f).run m ids r m' := by
  rw [← List.append_nil ids]
  exact bind_run ho hf

theorem bind_error {o : Operation α} {f : α → Operation β} {e : LedgerError}
    (ho : Alone o.run m ids (.error e) m') : Alone (o >>= f).run m ids (.error e) m' := by
  rw [ExceptT.run_bind, ← List.append_nil ids]
  exact bind ho (.done _ _)

theorem lift {p : Program World α} {a : α} (h : Alone p m ids a m') :
    Alone (liftM p : Operation α).run m ids (.ok a) m' := by
  rw [ExceptT.run_liftM, map_eq_pure_bind, ← List.append_nil ids]
  exact bind h (.done _ _)

theorem answer (a : β) : Alone (pure a : Operation β).run m [] (.ok a) m :=
  .done _ _

theorem lawful_error {x : Except DomainError α} {e : DomainError} (h : x = .error e) :
    Alone (Operation.lawful x).run m [] (.error (.domain e)) m := by
  rw [h]
  exact .done _ _

theorem money_ok {x : Except MoneyError α} {a : α} (h : x = .ok a) :
    Alone (Operation.money x).run m [] (.ok a) m := by
  rw [h]
  exact .done _ _

theorem money_error {x : Except MoneyError α} {e : MoneyError} (h : x = .error e) :
    Alone (Operation.money x).run m [] (.error (.ofMoney e)) m := by
  rw [h]
  exact .done _ _

theorem lawful_bind {x : Except DomainError α} {f : α → Operation β} {a : α} (h : x = .ok a)
    (hf : Alone (f a).run m ids r m') : Alone (Operation.lawful x >>= f).run m ids r m' := by
  rw [h]
  exact hf

theorem clock_bind {f : Instant → Operation β} (now : Instant)
    (hf : Alone (f now).run m ids r m') :
    Alone ((liftM World.clock : Operation Instant) >>= f).run m ids r m' :=
  bind_run (lift (clock now)) hf

theorem freshId_bind {f : Uuid → Operation β} {id : Uuid} (hid : id ∉ m.ids)
    (hf : Alone (f id).run m ids r m') :
    Alone ((liftM World.freshId : Operation Uuid) >>= f).run m (id :: ids) r m' :=
  bind_run (lift (freshId hid)) hf

theorem read {q : Store.Request} {found : q.Answer}
    (h : ∀ now, Memory.answer m now q = (.ok found, m)) :
    Alone (Operation.read q).run m [] (.ok found) m := by
  have hreply : ({ now := .epoch } : Moment).reply false m (.plan q) =
      (some (.ok found), m) := by
    simp [Moment.reply, h]
  refine .ask { now := .epoch } (by simp [Moment.drawn]) ?_
  rw [hreply]
  exact .done _ _

theorem ask_commit {c : ChangeSet} (h : m.fault? c = none) :
    Alone (Operation.ask (.commit c)).run m [] (.ok ()) (m.write c) :=
  bind_first (lift (commit h)) (answer ())

theorem planning {o : Operation β} (h : Alone o.run m ids r m') :
    Alone (Operation.planning o).run m ids r m' :=
  .ask { now := .epoch } (by simp [Moment.drawn]) h

/-- What the first attempt answers is the answer, unless it loses the race. -/
theorem retrying {policy : RetryPolicy} {name : String} {once : Operation β}
    (h : Alone once.run m ids r m') (hwon : ∀ e, r = .error e → e.isVersionConflict = false) :
    Alone (Operation.retrying policy name once).run m ids r m' := by
  have hattempt : ∀ again : Operation β, Alone
      (tryCatch once fun e => if e.isVersionConflict then again else throw e).run
      m ids r m' := by
    intro again
    rw [ExceptT.run_tryCatch, ← List.append_nil ids]
    refine bind h ?_
    cases r with
    | ok a => exact .done _ _
    | error e =>
        simp only [hwon e rfl]
        exact .done _ _
  unfold Operation.retrying
  cases policy.attempts - 1 with
  | zero => exact hattempt _
  | succ left => exact hattempt _

/-! ## In an interleaving -/

variable {τ : Type} [Task τ α]

theorem exists_run {p : Program World α} {a : α} (h : Alone p m ids a m') :
    ∀ (s : Interleaving τ α) (parties : List (Party τ α)) {q : Party τ α},
      s.memory = m → s.parties = parties ++ [q] → q.rest = p → q.stopping = false →
      (ids ++ q.drawn).Nodup → (∀ id ∈ ids, ∀ q' ∈ parties, id ∉ q'.drawn) →
      ∃ ws : List Moment, ∃ q',
        (s.run (ws.map (.act parties.length))).memory = m' ∧
        (s.run (ws.map (.act parties.length))).parties = parties ++ [q'] ∧
        q'.answer? = some a ∧ q'.task = q.task ∧ q'.drawn ⊆ ids ++ q.drawn := by
  induction h with
  | done a m =>
      intro s parties q hm hparties hrest _ _ _
      refine ⟨[], q, hm, hparties, ?_, rfl, by simp⟩
      rw [Party.answer?, hrest]
  | ask w hfresh _ ih =>
      rename_i request next m m' ids a _
      intro s parties q hm hparties hrest hstopping hnodup hapart
      obtain ⟨-, hdistinct, hnew⟩ := List.nodup_append.mp hnodup
      have hp : s.parties[parties.length]? = some q := by
        rw [hparties, List.getElem?_concat_length]
      have hall : (w.drawn request).all s.isFresh = true := by
        refine List.all_eq_true.mpr fun id hid => ?_
        have hall : ∀ q' ∈ s.parties, id ∉ q'.drawn := by
          intro q' hq'
          rw [hparties] at hq'
          rcases List.mem_append.mp hq' with hq' | hq'
          · exact hapart id (List.mem_append_left _ hid) q' hq'
          · obtain rfl := List.mem_singleton.mp hq'
            exact fun hd => hnew id (List.mem_append_left _ hid) id hd rfl
        have := hfresh id hid
        simp only [Interleaving.isFresh, hm, Bool.and_eq_true, Bool.not_eq_true',
          List.all_eq_true, List.contains_eq_mem, decide_eq_false_iff_not]
        exact ⟨this, hall⟩
      have hact : s.act parties.length w = s.answered parties.length q w request next := by
        simp only [Interleaving.act, hp, hrest, hall, if_true]
      have hparties' : (s.answered parties.length q w request next).parties = parties ++
          [{ q with
            drawn := w.drawn request ++ q.drawn
            rest := next (w.reply false m request).1 }] := by
        simp [Interleaving.answered, hparties, hm, hstopping]
      have hm' : (s.answered parties.length q w request next).memory =
          (w.reply false m request).2 := by
        simp [Interleaving.answered, hm, hstopping]
      have hnodup' : (ids ++ (w.drawn request ++ q.drawn)).Nodup := by
        rw [List.append_assoc] at hnodup
        exact (List.perm_append_comm_assoc ..).nodup_iff.mp hnodup
      obtain ⟨ws, q', hmemory, hrun, hanswer, htask, hdrawn⟩ :=
        ih _ parties hm' hparties' rfl hstopping hnodup' fun id hid =>
          hapart id (List.mem_append_right _ hid)
      have hsteps : s.run ((w :: ws).map (.act parties.length)) =
          (s.answered parties.length q w request next).run (ws.map (.act parties.length)) := by
        rw [← hact]
        rfl
      refine ⟨w :: ws, q', hsteps ▸ hmemory, hsteps ▸ hrun, hanswer, htask, ?_⟩
      intro id hid
      have := hdrawn hid
      simp only [List.mem_append] at this ⊢
      tauto

/-- What runs `Alone` can follow any interleaving, if it draws what nobody has drawn. -/
theorem exists_turn (s : Interleaving τ α) (task : τ) {a : α}
    (h : Alone (Task.program task) s.memory ids a m') (hnodup : ids.Nodup)
    (hnew : ∀ id ∈ ids, ∀ q ∈ s.parties, id ∉ q.drawn) :
    ∃ ws : List Moment, ∃ q,
      (s.run (.start task :: ws.map (.act s.parties.length))).memory = m' ∧
      (s.run (.start task :: ws.map (.act s.parties.length))).parties = s.parties ++ [q] ∧
      q.answer? = some a ∧ q.task = task ∧ q.drawn ⊆ ids := by
  obtain ⟨ws, q, hmemory, hparties, hanswer, htask, hdrawn⟩ :=
    h.exists_run (s.step (.start task)) s.parties rfl rfl rfl rfl
      (by simpa using hnodup) hnew
  exact ⟨ws, q, hmemory, hparties, hanswer, htask, by simpa using hdrawn⟩

end Alone

end BalanceLedger
