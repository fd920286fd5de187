/-
# `Proofs.Attempt` — attempts, request by request

Until an operation commits it has left no trace: nothing in the journal is in its name,
and what it has drawn names no entry.  Such an operation is `Quiet`, and it stays quiet
when the others go on, when it reads and when it draws.

The rules here carry a condition through the parts that operations are made of, from the
end back to the beginning.  They are rules for `Terms.wp`, so they hold among others:

  * `wp_read_bind`: a reading is answered by the store of some moment since the
    operation began, or it is given up;

  * `wp_freshId` and `wp_stage`: what is drawn is new, and each message has an
    identifier of its own;

  * `wp_commit`: a commit is refused for a reason, or it is made, and then it has to be
    what is due.

An attempt that loses the race leaves the operation quiet, so the next attempt stands
where the first one stood, and `wp_retrying` asks for one attempt only.  Nothing that an
earlier attempt has read is carried over; that is what makes the invariant so small.
-/
import BalanceLedger.Proofs.Guarantee

namespace BalanceLedger

open Store (ChangeSet Memory)
open Time (Instant)

/-- The messages of events, with the identifiers they are given. -/
inductive World.Staged (origin : Origin) : List Event → List Uuid → List Outbox.Message → Prop
  | nil : Staged origin [] [] []
  | cons (event : Event) (id : Uuid) (now : Instant) {events : List Event} {ids : List Uuid}
      {messages : List Outbox.Message} : Staged origin events ids messages →
      Staged origin (event :: events) (id :: ids) (.ofEvent event origin id now :: messages)

namespace Terms

variable {T : Terms} {α β : Type} {start v w : View}

/-! ## Quiet operations -/

/-- An operation that started at a view has not committed yet. -/
structure Quiet (T : Terms) (start v : View) : Prop where
  orderly : T.base.Orderly v.journal
  silent : ∀ p ∈ v.journal, p.1 ≠ T.place
  distinct : v.drawn.Nodup
  unused : ∀ id ∈ v.drawn, id ∉ (T.memory v).ids
  since : start.journal <+: v.journal
  drawn : start.drawn <:+ v.drawn

theorem Later.unused (h : T.Later v w) (hv : ∀ id ∈ v.drawn, id ∉ (T.memory v).ids) :
    ∀ id ∈ w.drawn, id ∉ (T.memory w).ids := by
  obtain ⟨more, hw, hmore⟩ := h.others
  rw [h.drawn]
  unfold memory at hv ⊢
  rw [hw]
  clear hw
  induction more using List.reverseRecOn with
  | nil => simpa using hv
  | append_singleton more p ih =>
      intro id hid hmem
      rw [← List.append_assoc, Memory.after_concat, Memory.ids_write] at hmem
      rcases List.mem_append.mp hmem with hmem | hmem
      · exact ih (fun q hq => hmore q (List.mem_append_left _ hq)) id hid hmem
      · obtain ⟨e, he, rfl⟩ := Option.map_eq_some_iff.mp (Option.mem_toList.mp hmem)
        exact (hmore p (by simp)).2 e he hid

namespace Quiet

theorem later (h : T.Quiet start v) (hw : T.Later v w) : T.Quiet start w where
  orderly := hw.orderly
  silent := by
    obtain ⟨more, heq, hmore⟩ := hw.others
    intro p hp
    rw [heq] at hp
    rcases List.mem_append.mp hp with hp | hp
    · exact h.silent p hp
    · exact (hmore p hp).1
  distinct := hw.drawn ▸ h.distinct
  unused := hw.unused h.unused
  since := h.since.trans hw.grown
  drawn := hw.drawn ▸ h.drawn

theorem draw (h : T.Quiet start v) {id : Uuid} (hm : id ∉ (T.memory v).ids) (hd : id ∉ v.drawn) :
    T.Quiet start (v.draw id) where
  orderly := h.orderly
  silent := h.silent
  distinct := List.nodup_cons.mpr ⟨hd, h.distinct⟩
  unused := by
    intro id' hid
    rcases List.mem_cons.mp hid with rfl | hid
    · exact hm
    · exact h.unused id' hid
  since := h.since
  drawn := h.drawn.trans (List.suffix_cons ..)

theorem restart (h : T.Quiet start v) : T.Quiet v v where
  orderly := h.orderly
  silent := h.silent
  distinct := h.distinct
  unused := h.unused
  since := List.prefix_refl _
  drawn := List.suffix_refl _

end Quiet

/-! ## Parts of programs -/

theorem wp_freshId {Q : Uuid → View → Prop} (hv : T.Quiet start v)
    (h : ∀ w id, T.Quiet start w → v.journal <+: w.journal → w.drawn = id :: v.drawn → Q id w) :
    T.wp World.freshId Q v := by
  intro w hw id hm hd
  refine h (w.draw id) id ((hv.later hw).draw hm hd) hw.grown ?_
  rw [← hw.drawn]
  rfl

theorem wp_stage {origin : Origin} {events : List Event} {Q : List Outbox.Message → View → Prop} :
    ∀ {v : View}, T.Quiet start v →
      (∀ w ids messages, T.Quiet start w → v.journal <+: w.journal →
        w.drawn = ids.reverse ++ v.drawn → World.Staged origin events ids messages →
        Q messages w) →
      T.wp (World.stage origin events) Q v := by
  induction events generalizing Q with
  | nil =>
      intro v hv h
      exact h _ [] [] hv (List.prefix_refl _) rfl .nil
  | cons event events ih =>
      intro v hv h
      refine wp_bind (wp_freshId hv fun w id hw hvw hid =>
        wp_bind fun now => wp_bind (ih hw ?_))
      intro u ids messages hu hwu hids hstaged
      refine h u (id :: ids) _ hu (hvw.trans hwu) ?_ (.cons event id now hstaged)
      rw [hids, hid, List.reverse_cons, List.append_assoc]
      rfl

/-- A commit is refused, or it is made and is due. -/
theorem wp_commit {c : ChangeSet} {Q : Except StoreError Unit → View → Prop}
    (hv : T.Quiet start v)
    (hrefused : ∀ w e, T.Quiet start w → v.journal <+: w.journal → w.drawn = v.drawn →
      (T.memory w).fault? c = some e → Q (.error e) w)
    (hmade : ∀ w, T.Quiet start w → v.journal <+: w.journal → w.drawn = v.drawn →
      (T.memory w).fault? c = none → T.Due w c ∧ Q (.ok ()) (w.push T.place c)) :
    T.wp (World.store (.commit c)) Q v :=
  fun w hw =>
    ⟨fun e he => hrefused w e (hv.later hw) hw.grown hw.drawn he,
      fun hn => hmade w (hv.later hw) hw.grown hw.drawn hn⟩

theorem wp_findByKey {key : IdempotencyKey} {Q : Except StoreError (Option Entry) → View → Prop}
    (hv : T.Quiet start v)
    (h : ∀ w, T.Quiet start w → v.journal <+: w.journal →
      Q (.ok ((T.memory w).entryByKey? key)) w) :
    T.wp (World.store (.findByKey key)) Q v :=
  ⟨fun _ _ => rfl, fun w hw _ => h w (hv.later hw) hw.grown⟩

/-! ## Parts of operations -/

variable {Q : Except LedgerError β → View → Prop}

/-- What has to hold of an operation, so that a condition holds when another one follows.  It is
`Operation.Then` for the requests of a party among others. -/
def Then (T : Terms) (f : α → Operation β) (Q : Except LedgerError β → View → Prop) :
    Except LedgerError α → View → Prop
  | .ok a, v => T.wp (f a).run Q v
  | .error e, v => Q (.error e) v

theorem then_eq (f : α → Operation β) (Q : Except LedgerError β → View → Prop) :
    T.Then f Q = Operation.Then T.asks f Q := by
  funext r
  cases r with
  | ok a => exact wp_eq (f a).run Q
  | error e => rfl

theorem wp_bind_run {o : Operation α} {f : α → Operation β} (h : T.wp o.run (T.Then f Q) v) :
    T.wp (o >>= f).run Q v := by
  rw [wp_eq, then_eq] at h
  rw [wp_eq, Operation.wp_bind]
  exact h

theorem wp_lift {p : Program World β} (h : T.wp p (fun a w => Q (.ok a) w) v) :
    T.wp (liftM p : Operation β).run Q v := by
  rw [wp_eq] at h
  rw [wp_eq, Operation.wp_lift]
  exact h

theorem wp_lift_bind {p : Program World α} {f : α → Operation β}
    (h : T.wp p (fun a w => T.wp (f a).run Q w) v) :
    T.wp ((liftM p : Operation α) >>= f).run Q v := by
  simp only [wp_eq] at h ⊢
  rw [Operation.wp_lift_bind]
  exact h

theorem wp_lawful_bind {x : Except DomainError α} {f : α → Operation β}
    (hok : ∀ a, x = .ok a → T.wp (f a).run Q v)
    (herror : ∀ e, x = .error e → Q (.error (.domain e)) v) :
    T.wp (Operation.lawful x >>= f).run Q v := by
  cases x with
  | ok a => exact hok a rfl
  | error e => exact herror e rfl

theorem wp_money_bind {x : Except MoneyError α} {f : α → Operation β}
    (hok : ∀ a, x = .ok a → T.wp (f a).run Q v)
    (herror : ∀ e, x = .error e → Q (.error (.domain (.ofMoney e))) v) :
    T.wp (Operation.money x >>= f).run Q v := by
  cases x with
  | ok a => exact hok a rfl
  | error e => exact herror e rfl

/-- A reading for a plan sees the store of one moment, or is given up. -/
theorem wp_read_bind {q : Store.Request} {f : q.Answer → Operation β} (found : Memory → q.Answer)
    (hq : ∀ m now, Memory.answer m now q = (.ok (found m), m)) (hv : T.Quiet start v)
    (hcancelled : ∀ w, T.Quiet start w → Q (.error .cancelled) w)
    (h : ∀ w, T.Quiet start w → v.journal <+: w.journal → w.drawn = v.drawn →
      T.wp (f (found (T.memory w))).run Q w) :
    T.wp (Operation.read q >>= f).run Q v := by
  refine ⟨fun m now => by rw [hq], fun w hw => ⟨hcancelled w (hv.later hw), fun now => ?_⟩⟩
  rw [hq]
  exact h w (hv.later hw) hw.grown hw.drawn

theorem wp_ask_bind {q : Store.Request} {f : q.Answer → Operation β}
    (h : T.wp (World.store q) (fun r w =>
      (∀ a, r = .ok a → T.wp (f a).run Q w) ∧ ∀ e, r = .error e → Q (.error (.store e)) w) v) :
    T.wp (Operation.ask q >>= f).run Q v := by
  unfold Operation.ask
  rw [bind_assoc]
  refine wp_lift_bind (wp_mono ?_ h)
  intro r w hr
  cases r with
  | ok a => exact hr.1 a rfl
  | error e => exact hr.2 e rfl

theorem wp_planning {o : Operation β} (hcancelled : Q (.error .cancelled) v)
    (h : T.wp o.run Q v) : T.wp (Operation.planning o).run Q v := by
  intro x
  cases x with
  | false => exact h
  | true => exact hcancelled

/-! ## Attempts made again -/

/-- What holds after one attempt: what is wanted of the answer, or the race is lost and the
operation is still `Quiet`. -/
def Attempted (T : Terms) (start : View) (Q : Except LedgerError β → View → Prop) :
    Except LedgerError β → View → Prop
  | .ok a, v => Q (.ok a) v
  | .error e, v => if e.isVersionConflict then T.Quiet start v else Q (.error e) v

theorem attempted_eq (Q : Except LedgerError β → View → Prop) :
    T.Attempted start Q = Operation.Attempted (T.Quiet start) Q := by
  funext r
  cases r with
  | ok a => rfl
  | error e => rfl

theorem attempted_error {e : LedgerError} (he : e.isVersionConflict = false)
    (h : Q (.error e) v) : T.Attempted start Q (.error e) v := by
  rw [attempted_eq]
  exact Operation.attempted_error he h

/-- What holds of every attempt that does not lose the race, and of giving up, holds of `retrying`.
-/
theorem wp_retrying {policy : RetryPolicy} {name : String} {once : Operation β}
    (honce : ∀ w, T.Quiet start w → T.wp once.run (T.Attempted start Q) w)
    (hexhausted : ∀ w n, T.Quiet start w → Q (.error (.exhausted n)) w)
    (hv : T.Quiet start v) : T.wp (Operation.retrying policy name once).run Q v := by
  simp only [wp_eq, attempted_eq] at honce
  rw [wp_eq]
  refine Operation.wp_retrying mono_asks (fun attempt w hw => ?_) (fun line w hw _ => hw) honce
    (fun n w hw => hexhausted w n hw) hv
  exact fun _ _ _ => hw

end Terms

end BalanceLedger
