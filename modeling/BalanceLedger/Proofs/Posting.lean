/-
# `Proofs.Posting` — how postings end

A posting looks its key up and reads its slot, at two moments.  So it ends in one of
these ways: it commits its effect on the slot; the key is held, and the entry that holds
it is the answer; the slot as it was read refuses it, the key having been free when it
was looked up (`Refused`); or it is given up, because shutdown comes or every attempt
loses the race.  That the store refuses the change set for the key is a way to the
second end: what refuses the key is an entry, and it is found.

`wp_once` says this of one attempt among others, and it is put together from the parts
of the text, `wp_earlier_bind` for the key and `wp_plan` for the rest of the plan.  The
two moments cannot be made one.  Between them the key can come to be used, and then the
refusal that is answered is not that of the store at any one time.

A posting that runs alone sees one store, so there the key alone decides between the
answer of the entry, `alone_held`, and the slot: `alone_once` where it takes the effect
and `alone_refused` where it does not.
-/
import BalanceLedger.Proofs.Alone
import BalanceLedger.Proofs.Commitment

namespace BalanceLedger

open Store (ChangeSet Memory)
open Time (Instant)

theorem IdempotencyKey.parse_text (key : IdempotencyKey) : parse key.text = .ok key := by
  have hshort := Nat.not_lt.mpr key.short
  simp [parse, key.trimmed, key.nonempty, hshort]

namespace Posting

def IsFree (p : Posting) (m : Memory) : Prop :=
  ∀ key, p.draft.key = some key → m.entryByKey? key = none

def IsHeldBy (p : Posting) (m : Memory) (e : Entry) : Prop :=
  ∃ key, p.draft.key = some key ∧ m.entryByKey? key = some e

theorem isFree_or_isHeldBy (p : Posting) (m : Memory) : p.IsFree m ∨ ∃ e, p.IsHeldBy m e := by
  cases hkey : p.draft.key with
  | none => exact .inl fun key h => absurd (hkey.symm.trans h) (by simp)
  | some key =>
      cases hfound : m.entryByKey? key with
      | none =>
          refine .inl fun key' h => ?_
          obtain rfl := Option.some.inj (hkey.symm.trans h)
          exact hfound
      | some e => exact .inr ⟨e, key, hkey, hfound⟩

instance (p : Posting) (m : Memory) : Decidable (p.IsFree m) :=
  decidable_of_iff (p.draft.key.all fun key => (m.entryByKey? key).isNone)
    (by simp only [IsFree, Option.all_eq_true, Option.isNone_iff_eq_none])

def written (p : Posting) (e : Entry) : PostingResult :=
  { entry := e.id, status := p.status, balance := e.runningBalance }

/-- The answer when the entry holds the key already; its status is `.alreadyProcessed`. -/
def replayed (e : Entry) : PostingResult :=
  { entry := e.id, status := .alreadyProcessed, balance := e.runningBalance }

variable {p : Posting} {origin : Origin} {T : Terms} {start v : View}

/-- The key was free, and the slot that was read then refuses the posting. -/
def Refused (p : Posting) (T : Terms) (start w : View) (e : DomainError) : Prop :=
  ∃ j j', start.journal <+: j ∧ j <+: j' ∧ j' <+: w.journal ∧ p.IsFree (T.base.after j) ∧
    p.refusal? ((T.base.after j').slots.get? p.slotKey) = some e

/-! ## Among others -/

theorem wp_replay {e : Entry} {Q : PostingResult → View → Prop} (h : Q (replayed e) v) :
    T.wp (p.replay e) Q v := by
  unfold replay
  cases p.agrees e with
  | true => exact h
  | false => exact fun _ => h

theorem wp_earlier_bind {β : Type} {f : Option Entry → Operation β}
    {Q : Except LedgerError β → View → Prop} (hv : T.Quiet start v)
    (hcancelled : ∀ w, T.Quiet start w → Q (.error .cancelled) w)
    (hheld : ∀ w e, T.Quiet start w → p.IsHeldBy (T.memory w) e → T.wp (f (some e)).run Q w)
    (hfree : ∀ w, T.Quiet start w → w.drawn = v.drawn → p.IsFree (T.memory w) →
      T.wp (f none).run Q w) :
    T.wp (p.earlier >>= f).run Q v := by
  unfold earlier
  cases hkey : p.draft.key with
  | none => exact hfree v hv rfl fun key h => absurd (hkey.symm.trans h) (by simp)
  | some key =>
      refine Terms.wp_read_bind (fun m => m.entryByKey? key) (fun _ _ => rfl) hv
        hcancelled fun w hw _ hdrawn => ?_
      cases hfound : (T.memory w).entryByKey? key with
      | none =>
          refine hfree w hw hdrawn fun key' h => ?_
          obtain rfl := Option.some.inj (hkey.symm.trans h)
          exact hfound
      | some e => exact hheld w e hw ⟨key, hkey, hfound⟩

theorem wp_plan {Q : Except LedgerError PostingPlan → View → Prop} (hv : T.Quiet start v)
    (hcancelled : ∀ w, T.Quiet start w → Q (.error .cancelled) w)
    (hheld : ∀ w e, T.Quiet start w → p.IsHeldBy (T.memory w) e → Q (.ok (.replay e)) w)
    (hrefused : ∀ w e, T.Quiet start w → p.Refused T start w e → Q (.error (.domain e)) w)
    (hplanned : ∀ w j stored now later id x e ids c, T.Quiet start w → j <+: w.journal →
      (T.base.after j).slots.get? p.slotKey = stored → w.drawn = (id :: ids).reverse ++ v.drawn →
      p.effect stored now later id = .ok x → x.entry = some e → x.Written origin stored ids c →
      Q (.ok (.commit c (p.written e))) w) :
    T.wp (p.plan origin).run Q v := by
  refine wp_earlier_bind hv hcancelled hheld fun w₁ hw₁ hdrawn₁ hfree => ?_
  refine Terms.wp_read_bind (fun m => m.slots.get? p.slotKey) (fun _ _ => rfl) hw₁
    hcancelled fun w₂ hw₂ hlater hdrawn₂ => ?_
  -- the slot as it is read here is what the rest of the attempt goes by
  generalize hstored : (T.memory w₂).slots.get? p.slotKey = stored
  have hrefuse : ∀ w e, T.Quiet start w → w₂.journal <+: w.journal →
      p.refusal? stored = some e → Q (.error (.domain e)) w := by
    intro w e hw hj he
    exact hrefused w e hw ⟨w₁.journal, w₂.journal, hw₁.since, hlater, hj, hfree, hstored ▸ he⟩
  refine Terms.wp_lift_bind fun now => Terms.wp_lawful_bind (fun q hmove => ?_) fun e hmove =>
    hrefuse w₂ e hw₂ (List.prefix_refl _) (refusal?_of_move hmove)
  obtain ⟨moved, updated⟩ := q
  refine Terms.wp_lift_bind (Terms.wp_freshId hw₂ fun w₃ id hw₃ hlater₃ hdrawn₃ => ?_)
  refine Terms.wp_lift_bind fun later => Terms.wp_lawful_bind (fun e hpost => ?_) fun e hpost =>
    hrefuse w₃ e hw₃ hlater₃ (refusal?_of_post hmove hpost)
  refine Terms.wp_lift_bind (Terms.wp_stage hw₃ fun w₄ ids outbox hw₄ hlater₄ hdrawn₄ hstaged => ?_)
  have heffect := effect_eq_ok hmove hpost
  obtain rfl : e.id = id := by rw [Entry.post_ok hpost]
  refine hplanned w₄ w₂.journal stored now later e.id _ e ids _ hw₄ (hlater₃.trans hlater₄) hstored
    ?_ heffect rfl ⟨rfl, ?_, rfl, hstaged⟩
  · rw [hdrawn₄, hdrawn₃, hdrawn₂, hdrawn₁, List.reverse_cons, List.append_assoc]
    rfl
  · exact Slot.version_getD_opened ..

theorem wp_once {Q : Except LedgerError PostingResult → View → Prop} (hbase : T.base.Indexed)
    (hcancelled : ∀ w, T.Quiet start w → Q (.error .cancelled) w)
    (hheld : ∀ w e, T.Quiet start w → p.IsHeldBy (T.memory w) e → Q (.ok (replayed e)) w)
    (hrefused : ∀ w e, T.Quiet start w → p.Refused T start w e → Q (.error (.domain e)) w)
    (hmade : ∀ w stored now later id x e ids c,
      p.effect stored now later id = .ok x → x.entry = some e →
      T.Commitment start w origin p.slotKey stored x [id] ids c →
      T.owes w c ∧ Q (.ok (p.written e)) (w.push T.place c))
    (hv : T.Quiet start v) : T.wp (p.once origin).run (T.Attempted start Q) v := by
  have hrefused' : ∀ w e, T.Quiet start w → p.Refused T start w e →
      T.Attempted start Q (.error (.domain e)) w :=
    fun w e hw h => Terms.attempted_error rfl (hrefused w e hw h)
  have hcancelled' : ∀ w, T.Quiet start w → T.Attempted start Q (.error .cancelled) w :=
    fun w hw => Terms.attempted_error rfl (hcancelled w hw)
  refine Terms.wp_bind_run (Terms.wp_planning (hcancelled' v hv) (wp_plan hv hcancelled' ?_
    hrefused' ?_))
  · intro w e hw h
    exact Terms.wp_lift (wp_replay (hheld w e hw h))
  · intro w j stored now later id x e ids c hw hj hread hdrawn heffect hentry hwritten
    obtain ⟨e', hentry', hid, hkey, htarget⟩ := effect_entry heffect
    obtain rfl := Option.some.inj (hentry.symm.trans hentry')
    refine Terms.wp_lift_bind (Terms.wp_commit hw (fun u f hu _ _ hf => ?_)
      fun u hu hlater hdrawn' haccepted => ?_)
    · rcases Memory.fault?_eq_some hf with rfl | ⟨e', key, he', hkey', hused, rfl⟩ |
        ⟨e', target, he', htarget', -⟩
      · exact hu
      · -- what refuses the key is an entry, and it is found when the key is looked up again
        obtain rfl := Option.some.inj (hentry.symm.trans (hwritten.entry.symm.trans he'))
        dsimp only
        rw [key.parse_text]
        obtain ⟨e₀, he₀⟩ := (hbase.after hu.orderly).entryByKey?_isSome hused
        refine Terms.wp_ask_bind (Terms.wp_findByKey hu fun t ht hlater => ⟨fun a ha => ?_, ?_⟩)
        · have hfound := Memory.entryByKey?_after hbase ht.orderly hlater he₀
          obtain rfl := Except.ok.inj ha
          simp only [Terms.memory, hfound]
          exact Terms.wp_lift (wp_replay (hheld t e₀ ht ⟨key, hkey ▸ hkey', hfound⟩))
        · intro e₁ h
          exact absurd h (by simp)
      · obtain rfl := Option.some.inj (hentry.symm.trans (hwritten.entry.symm.trans he'))
        exact absurd (htarget'.symm.trans htarget) (by simp)
    · have hkeeps := keeps heffect fun s hs =>
        (hbase.after (hw.orderly.earlier hj)).slot_key p.slotKey s (hread.trans hs)
      have hcommitment := hv.commitment hu (hj.trans hlater) hread (hdrawn'.trans hdrawn) hwritten
        hkeeps (Effect.named hentry hid) haccepted
      obtain ⟨howes, hdone⟩ := hmade u stored now later id x e ids c heffect hentry hcommitment
      exact ⟨hcommitment.due howes, fun _ => hdone⟩

/-! ## Alone -/

variable {m : Memory} {x : Effect} {e : Entry} {id : Uuid} {ids : List Uuid} {c : ChangeSet}
  {now later : Instant}

theorem alone_replay (e : Entry) : Alone (p.replay e) m [] (replayed e) m := by
  unfold replay
  cases p.agrees e with
  | true => exact .done _ _
  | false => exact .bind (Alone.log ..) (.done _ _)

theorem alone_earlier_held (h : p.IsHeldBy m e) : Alone p.earlier.run m [] (.ok (some e)) m := by
  obtain ⟨key, hkey, hfound⟩ := h
  unfold earlier
  rw [hkey]
  exact .read fun now => by rw [← hfound]; rfl

theorem alone_earlier_free (h : p.IsFree m) : Alone p.earlier.run m [] (.ok none) m := by
  unfold earlier
  cases hkey : p.draft.key with
  | none => exact .answer none
  | some key => exact .read fun now => by rw [← h key hkey]; rfl

theorem alone_plan (hfree : p.IsFree m)
    (heffect : p.effect (m.slots.get? p.slotKey) now later id = .ok x) (hentry : x.entry = some e)
    (hwritten : x.Written origin (m.slots.get? p.slotKey) ids c)
    (hnew : ∀ id' ∈ id :: ids, id' ∉ m.ids) :
    Alone (p.plan origin).run m (id :: ids) (.ok (.commit c (p.written e))) m := by
  obtain ⟨moved, updated, e', hmove, hpost, rfl⟩ := effect_ok heffect
  obtain rfl := Option.some.inj hentry
  obtain rfl : e'.id = id := by rw [Entry.post_ok hpost]
  have houtbox := Alone.lift (.stage hwritten.outbox fun id' hid =>
    hnew id' (List.mem_cons_of_mem _ hid))
  refine .bind_first (alone_earlier_free hfree) ?_
  refine .bind_first (.read fun _ => rfl) (.clock_bind now (.lawful_bind hmove ?_))
  refine .freshId_bind (hnew _ (by simp)) (.clock_bind later (.lawful_bind hpost ?_))
  rw [hwritten.eq, ← Slot.version_getD_opened _ p.account p.currency now]
  exact .bind_last houtbox (.answer _)

/-- A posting whose `effect` the store accepts commits it. -/
theorem alone_once (heffect : p.effect (m.slots.get? p.slotKey) now later id = .ok x)
    (hentry : x.entry = some e) (hwritten : x.Written origin (m.slots.get? p.slotKey) ids c)
    (haccepted : m.fault? c = none) (hnew : ∀ id' ∈ id :: ids, id' ∉ m.ids) :
    Alone (p.once origin).run m (id :: ids) (.ok (p.written e)) (m.write c) := by
  have hfree : p.IsFree m := by
    obtain ⟨e', hentry', -, hkey, -⟩ := effect_entry heffect
    obtain ⟨-, hmarks⟩ := Memory.fault?_eq_none_iff.mp haccepted
    intro key hp
    exact Memory.entryByKey?_eq_none
      ((hmarks e' (hwritten.entry.trans hentry')).1 key (hkey.trans hp))
  have hplan := alone_plan hfree heffect hentry hwritten hnew
  exact .bind_last (.planning hplan) (.bind_last (.lift (.commit haccepted))
    (.bind_last (.lift (.log ..)) (.answer _)))

theorem alone_held (h : p.IsHeldBy m e) :
    Alone (p.once origin).run m [] (.ok (replayed e)) m := by
  have hplan : Alone (p.plan origin).run m [] (.ok (.replay e)) m :=
    .bind_last (alone_earlier_held h) (.answer _)
  exact .bind_last (.planning hplan) (.lift (alone_replay e))

/-- A posting whose key `IsFree` is refused by what refuses it on the slot. -/
theorem alone_refused (origin : Origin) {e : DomainError} (hfree : p.IsFree m)
    (h : p.refusal? (m.slots.get? p.slotKey) = some e) (hid : id ∉ m.ids) :
    ∃ ids, ids.Sublist [id] ∧ Alone (p.once origin).run m ids (.error (.domain e)) m := by
  have hread : Alone (Operation.read (.loadSlot p.account p.currency)).run m []
      (.ok (m.slots.get? p.slotKey)) m := .read fun _ => rfl
  cases hmove : ((m.slots.get? p.slotKey).getD (.opened p.account p.currency .epoch)).move
      p.draft.side p.draft.amount .epoch with
  | error e' =>
      obtain rfl := Option.some.inj (h.symm.trans (refusal?_of_move hmove))
      refine ⟨[], List.nil_sublist _, .bind_error (.planning ?_)⟩
      exact .bind_first (alone_earlier_free hfree)
        (.bind_first hread (.clock_bind .epoch (.bind_error (.lawful_error hmove))))
  | ok q =>
      obtain ⟨moved, updated⟩ := q
      cases hpost : Entry.post moved p.draft id .epoch with
      | error e' =>
          obtain rfl := Option.some.inj (h.symm.trans (refusal?_of_post hmove hpost))
          refine ⟨[id], List.Sublist.refl _, .bind_error (.planning ?_)⟩
          refine .bind_first (alone_earlier_free hfree) ?_
          refine .bind_first hread (.clock_bind .epoch (.lawful_bind hmove ?_))
          exact .freshId_bind hid (.clock_bind .epoch (.bind_error (.lawful_error hpost)))
      | ok e' =>
          have heffect := (effect_error_iff .epoch .epoch id).mpr h
          rw [effect_eq_ok hmove hpost] at heffect
          exact absurd heffect (by simp)

end Posting

end BalanceLedger
