/-
# `Proofs.Voiding` — how voids end

A void finds the entry that it is to void, asks whether that entry is voided already,
and reads its slot, at three moments.  So it ends in one of these ways: it commits its
effect on the slot; the log bars it, as it was at one moment (`Barred`); the entry was
open when the log was asked, and the slot as it was read then refuses it; or it is given
up.  The second and the third are `Refused`, and `wp_once` says that there is no other
refusal.

An entry that is found once stays as it is, so the effect is that of voiding the entry
as it stands when the commit is made; that nobody has voided it by then is what the
store checks, and when the store refuses the change set for that, the log bars the void
from then on.

A void that runs alone sees one store, so there the log decides before the slot:
`alone_barred` where the log bars the void, and else `alone_once` or `alone_refused`, by
the slot.  Among others it need not be so, and the slot can refuse what the log would
have barred a moment later.
-/
import BalanceLedger.Proofs.Alone
import BalanceLedger.Proofs.Commitment

namespace BalanceLedger.VoidCommand

open Store (ChangeSet Memory)
open Time (Instant)

def written (target e : Entry) : VoidResult :=
  { voidEntry := e.id, target := target.id, status := .voided, balance := e.runningBalance }

/-- The log bars the void. -/
inductive Barred (c : VoidCommand) (m : Memory) : DomainError → Prop
  | missing : m.entry? c.target = none → Barred c m (.entryNotFound c.target)
  | void {target : Entry} : m.entry? c.target = some target → target.isVoid = true →
      Barred c m (.voidOfVoid target.id)
  | voided {target e : Entry} : m.entry? c.target = some target → target.isVoid = false →
      m.voidOf? target.id = some e → Barred c m (.alreadyVoided target.id)

/-- The entry is in the log, no void, and not voided. -/
def IsOpen (c : VoidCommand) (m : Memory) (target : Entry) : Prop :=
  m.entry? c.target = some target ∧ target.isVoid = false ∧ m.voidOf? target.id = none

instance (c : VoidCommand) (m : Memory) (target : Entry) : Decidable (c.IsOpen m target) :=
  inferInstanceAs (Decidable (_ ∧ _))

variable {c : VoidCommand} {origin : Origin} {T : Terms} {start v w : View}

/-- The log bars the void, or the entry was open and the slot that was read then refuses it. -/
inductive Refused (c : VoidCommand) (T : Terms) (start w : View) (e : DomainError) : Prop
  | barred {j : List (Nat × ChangeSet)} : start.journal <+: j → j <+: w.journal →
      c.Barred (T.base.after j) e → Refused c T start w e
  | slot {j j' : List (Nat × ChangeSet)} {target : Entry} : start.journal <+: j → j <+: j' →
      j' <+: w.journal → c.IsOpen (T.base.after j) target →
      c.refusal? target ((T.base.after j').slots.get? target.slotKey) = some e →
      Refused c T start w e

theorem Barred.refused {e : DomainError} (h : c.Barred (T.memory w) e) (hw : T.Quiet start w) :
    c.Refused T start w e :=
  .barred hw.since (List.prefix_refl _) h

/-! ## Among others -/

theorem wp_plan {Q : Except LedgerError VoidPlan → View → Prop} (hbase : T.base.Indexed)
    (hv : T.Quiet start v)
    (hcancelled : ∀ w, T.Quiet start w → Q (.error .cancelled) w)
    (hrefused : ∀ w e, T.Quiet start w → c.Refused T start w e → Q (.error (.domain e)) w)
    (hplanned : ∀ w j target slot now later id x e ids changes, T.Quiet start w →
      j <+: w.journal → Memory.entry? (T.memory w) c.target = some target → target.isVoid = false →
      (T.base.after j).slots.get? target.slotKey = some slot →
      w.drawn = (id :: ids).reverse ++ v.drawn →
      c.effect target slot now later id = .ok x → x.entry = some e →
      x.Written origin (some slot) ids changes →
      Q (.ok { target, changes, result := written target e }) w) :
    T.wp (c.plan origin).run Q v := by
  refine Terms.wp_read_bind (fun m => m.entry? c.target) (fun _ _ => rfl) hv
    hcancelled fun w₁ hw₁ _ hdrawn₁ => ?_
  cases htarget : Memory.entry? (T.memory w₁) c.target with
  | none => exact hrefused w₁ _ hw₁ (Barred.refused (.missing htarget) hw₁)
  | some target =>
      dsimp only
      cases hvoid : target.isVoid with
      | true => exact hrefused w₁ _ hw₁ (Barred.refused (.void htarget hvoid) hw₁)
      | false =>
          refine Terms.wp_read_bind (fun m => m.voidOf? target.id) (fun _ _ => rfl) hw₁
            hcancelled fun w₂ hw₂ hlater₂ hdrawn₂ => ?_
          have hfound₂ : Memory.entry? (T.memory w₂) c.target = some target :=
            Memory.entry?_after hbase hw₂.orderly hlater₂ htarget
          cases hopen : (T.memory w₂).voidOf? target.id with
          | some e => exact hrefused w₂ _ hw₂ (Barred.refused (.voided hfound₂ hvoid hopen) hw₂)
          | none =>
              refine Terms.wp_read_bind (fun m => m.slots.get? target.slotKey)
                (fun _ _ => rfl) hw₂ hcancelled fun w₃ hw₃ hlater₃ hdrawn₃ => ?_
              -- the slot as it is read here is what the rest of the attempt goes by
              have hrefuse : ∀ w e, T.Quiet start w → w₃.journal <+: w.journal →
                  c.refusal? target ((T.memory w₃).slots.get? target.slotKey) = some e →
                  Q (.error (.domain e)) w := by
                intro w e hw hj he
                exact hrefused w e hw (.slot hw₂.since hlater₃ hj ⟨hfound₂, hvoid, hopen⟩ he)
              cases hslot : (T.memory w₃).slots.get? target.slotKey with
              | none => exact hrefuse w₃ _ hw₃ (List.prefix_refl _) (by rw [hslot]; rfl)
              | some slot =>
                  rw [hslot] at hrefuse
                  refine Terms.wp_money_bind (fun amount hamount => ?_) fun e hamount =>
                    hrefuse w₃ _ hw₃ (List.prefix_refl _) (refusal?_of_amount hamount)
                  refine Terms.wp_lift_bind fun now => Terms.wp_lawful_bind (fun q hmove => ?_)
                    fun e hmove =>
                      hrefuse w₃ e hw₃ (List.prefix_refl _) (refusal?_of_move hamount hmove)
                  obtain ⟨moved, updated⟩ := q
                  refine Terms.wp_lift_bind
                    (Terms.wp_freshId hw₃ fun w₄ id hw₄ hlater₄ hdrawn₄ => ?_)
                  refine Terms.wp_lift_bind fun later => Terms.wp_lawful_bind (fun q hentry => ?_)
                    fun e hentry => hrefuse w₄ e hw₄ hlater₄ (refusal?_of_void hamount hmove hentry)
                  obtain ⟨e, voided⟩ := q
                  refine Terms.wp_lift_bind
                    (Terms.wp_stage hw₄ fun w₅ ids outbox hw₅ hlater₅ hdrawn₅ hstaged => ?_)
                  have heffect := effect_eq_ok hamount hmove hentry
                  obtain rfl : e.id = id := by rw [(Entry.void_ok hentry).1]
                  have hfound : Memory.entry? (T.memory w₅) c.target = some target :=
                    Memory.entry?_after hbase hw₅.orderly
                      (hlater₂.trans (hlater₃.trans (hlater₄.trans hlater₅))) htarget
                  refine hplanned w₅ w₃.journal target slot now later e.id _ e ids _ hw₅
                    (hlater₄.trans hlater₅) hfound hvoid hslot ?_ heffect rfl
                    ⟨rfl, rfl, rfl, hstaged⟩
                  rw [hdrawn₅, hdrawn₄, hdrawn₃, hdrawn₂, hdrawn₁, List.reverse_cons,
                    List.append_assoc]
                  rfl

theorem wp_once {Q : Except LedgerError VoidResult → View → Prop} (hbase : T.base.Indexed)
    (hcancelled : ∀ w, T.Quiet start w → Q (.error .cancelled) w)
    (hrefused : ∀ w e, T.Quiet start w → c.Refused T start w e → Q (.error (.domain e)) w)
    (hmade : ∀ w target slot now later id x e ids changes,
      Memory.entry? (T.memory w) c.target = some target → target.isVoid = false →
      c.effect target slot now later id = .ok x → x.entry = some e →
      T.Commitment start w origin target.slotKey (some slot) x [id] ids changes →
      T.owes w changes ∧ Q (.ok (written target e)) (w.push T.place changes))
    (hv : T.Quiet start v) : T.wp (c.once origin).run (T.Attempted start Q) v := by
  have hrefused' : ∀ w e, T.Quiet start w → c.Refused T start w e →
      T.Attempted start Q (.error (.domain e)) w :=
    fun w e hw h => Terms.attempted_error rfl (hrefused w e hw h)
  have hcancelled' : ∀ w, T.Quiet start w → T.Attempted start Q (.error .cancelled) w :=
    fun w hw => Terms.attempted_error rfl (hcancelled w hw)
  refine Terms.wp_bind_run (Terms.wp_planning (hcancelled' v hv) (wp_plan hbase hv hcancelled'
    hrefused' ?_))
  intro w j target slot now later id x e ids changes hw hj hfound hvoid hread hdrawn heffect hentry
    hwritten
  obtain ⟨e', hentry', hid, hkey, htarget⟩ := effect_entry heffect
  obtain rfl := Option.some.inj (hentry.symm.trans hentry')
  refine Terms.wp_lift_bind (Terms.wp_commit hw (fun u f hu hlater _ hf => ?_)
    fun u hu hlater hdrawn' haccepted => ?_)
  · rcases Memory.fault?_eq_some hf with rfl | ⟨e', key, he', hkey', -, rfl⟩ |
      ⟨e', target', he', htarget', hvoided, rfl⟩
    · exact hu
    · obtain rfl := Option.some.inj (hentry.symm.trans (hwritten.entry.symm.trans he'))
      exact absurd (hkey'.symm.trans hkey) (by simp)
    · -- what refuses the change set is the void of the same entry
      obtain rfl := Option.some.inj (hentry.symm.trans (hwritten.entry.symm.trans he'))
      obtain rfl := Option.some.inj (htarget'.symm.trans htarget)
      obtain ⟨e₀, he₀⟩ := (hbase.after hu.orderly).voidOf?_isSome hvoided
      have hfound' := Memory.entry?_after hbase hu.orderly hlater hfound
      exact hrefused' u _ hu (Barred.refused (.voided hfound' hvoid he₀) hu)
  · have hkeeps := keeps heffect
      ((hbase.after (hw.orderly.earlier hj)).slot_key target.slotKey slot hread)
    have hcommitment := hv.commitment hu (hj.trans hlater) hread (hdrawn'.trans hdrawn) hwritten
      hkeeps (Effect.named hentry hid) haccepted
    have hfound' := Memory.entry?_after hbase hu.orderly hlater hfound
    obtain ⟨howes, hdone⟩ :=
      hmade u target slot now later id x e ids changes hfound' hvoid heffect hentry hcommitment
    exact ⟨hcommitment.due howes, fun _ => hdone⟩

/-! ## Alone -/

variable {m : Memory} {target : Entry} {slot : Slot} {x : Effect} {e : Entry} {id : Uuid}
  {ids : List Uuid} {changes : ChangeSet} {now later : Instant}

theorem alone_plan (hfound : m.entry? c.target = some target) (hvoid : target.isVoid = false)
    (hopen : m.voidOf? target.id = none) (hslot : m.slots.get? target.slotKey = some slot)
    (heffect : c.effect target slot now later id = .ok x) (hentry : x.entry = some e)
    (hwritten : x.Written origin (some slot) ids changes)
    (hnew : ∀ id' ∈ id :: ids, id' ∉ m.ids) :
    Alone (c.plan origin).run m (id :: ids)
      (.ok { target, changes, result := written target e }) m := by
  obtain ⟨amount, moved, updated, e', voided, hamount, hmove, hentry', rfl⟩ := effect_ok heffect
  obtain rfl := Option.some.inj hentry
  obtain rfl : e'.id = id := by rw [(Entry.void_ok hentry').1]
  have hread : Alone (Operation.read (.findEntry c.target)).run m [] (.ok (some target)) m :=
    .read fun _ => by rw [← hfound]; rfl
  have hread' : Alone (Operation.read (.findVoidOf target.id)).run m [] (.ok none) m :=
    .read fun _ => by rw [← hopen]; rfl
  have hread'' : Alone (Operation.read (.loadSlot target.account target.currency)).run m []
      (.ok (some slot)) m :=
    .read fun _ => by rw [← hslot]; rfl
  have houtbox := Alone.lift (.stage hwritten.outbox fun id' hid =>
    hnew id' (List.mem_cons_of_mem _ hid))
  refine .bind_first hread ?_
  dsimp only
  rw [hvoid]
  refine .bind_first hread' (.bind_first hread'' ?_)
  refine .bind_first (.money_ok hamount) (.clock_bind now (.lawful_bind hmove ?_))
  refine .freshId_bind (hnew _ (by simp)) (.clock_bind later (.lawful_bind hentry' ?_))
  rw [hwritten.eq]
  exact .bind_last houtbox (.answer _)

/-- A void whose `effect` the store accepts commits it. -/
theorem alone_once (hfound : m.entry? c.target = some target) (hvoid : target.isVoid = false)
    (hslot : m.slots.get? target.slotKey = some slot)
    (heffect : c.effect target slot now later id = .ok x) (hentry : x.entry = some e)
    (hwritten : x.Written origin (some slot) ids changes) (haccepted : m.fault? changes = none)
    (hnew : ∀ id' ∈ id :: ids, id' ∉ m.ids) :
    Alone (c.once origin).run m (id :: ids) (.ok (written target e)) (m.write changes) := by
  have hopen : m.voidOf? target.id = none := by
    obtain ⟨e', hentry', -, -, htarget⟩ := effect_entry heffect
    obtain ⟨-, hmarks⟩ := Memory.fault?_eq_none_iff.mp haccepted
    exact Memory.voidOf?_eq_none ((hmarks e' (hwritten.entry.trans hentry')).2 _ htarget)
  have hplan := alone_plan hfound hvoid hopen hslot heffect hentry hwritten hnew
  exact .bind_last (.planning hplan) (.bind_last (.lift (.commit haccepted))
    (.bind_last (.lift (.log ..)) (.answer _)))

theorem alone_barred {e : DomainError} (h : c.Barred m e) :
    Alone (c.once origin).run m [] (.error (.domain e)) m := by
  have hread : Alone (Operation.read (.findEntry c.target)).run m [] (.ok (m.entry? c.target)) m :=
    .read fun _ => rfl
  refine .bind_error (.planning (.bind_first hread ?_))
  cases h with
  | missing hfound =>
      rw [hfound]
      exact .done _ _
  | void hfound hvoid =>
      rw [hfound]
      dsimp only
      rw [hvoid]
      exact .done _ _
  | voided hfound hvoid hvoided =>
      rename_i target e'
      have hread' : Alone (Operation.read (.findVoidOf target.id)).run m [] (.ok (some e')) m :=
        .read fun _ => by rw [← hvoided]; rfl
      rw [hfound]
      dsimp only
      rw [hvoid]
      exact .bind_first hread' (.done _ _)

/-- A void of an entry that `IsOpen` is refused by what refuses it on the slot. -/
theorem alone_refused (origin : Origin) {e : DomainError} (hopen : c.IsOpen m target)
    (h : c.refusal? target (m.slots.get? target.slotKey) = some e) (hid : id ∉ m.ids) :
    ∃ ids, ids.Sublist [id] ∧ Alone (c.once origin).run m ids (.error (.domain e)) m := by
  obtain ⟨hfound, hvoid, hvoided⟩ := hopen
  have hread : Alone (Operation.read (.findEntry c.target)).run m [] (.ok (some target)) m :=
    .read fun _ => by rw [← hfound]; rfl
  have hread' : Alone (Operation.read (.findVoidOf target.id)).run m [] (.ok none) m :=
    .read fun _ => by rw [← hvoided]; rfl
  have hread'' : Alone (Operation.read (.loadSlot target.account target.currency)).run m []
      (.ok (m.slots.get? target.slotKey)) m := .read fun _ => rfl
  -- the log bars nothing, so what refuses is what follows the reading of the slot
  suffices hrest : ∃ ids, ids.Sublist [id] ∧ Alone (c.plan origin).run m ids
      (.error (.domain e)) m by
    obtain ⟨ids, hids, hplan⟩ := hrest
    exact ⟨ids, hids, .bind_error (.planning hplan)⟩
  unfold plan
  cases hslot : m.slots.get? target.slotKey with
  | none =>
      rw [hslot] at h hread''
      obtain rfl := Option.some.inj h
      refine ⟨[], List.nil_sublist _, .bind_first hread ?_⟩
      simp only [hvoid]
      exact .bind_first hread' (.bind_first hread'' (.done _ _))
  | some slot =>
      rw [hslot] at h hread''
      cases hamount : Amount.ofInt64 target.amount with
      | error e' =>
          obtain rfl := Option.some.inj (h.symm.trans (refusal?_of_amount hamount))
          refine ⟨[], List.nil_sublist _, .bind_first hread ?_⟩
          simp only [hvoid]
          exact .bind_first hread' (.bind_first hread'' (.bind_error (.money_error hamount)))
      | ok amount =>
          cases hmove : slot.move target.side.opposite amount .epoch with
          | error e' =>
              obtain rfl := Option.some.inj (h.symm.trans (refusal?_of_move hamount hmove))
              refine ⟨[], List.nil_sublist _, .bind_first hread ?_⟩
              simp only [hvoid]
              refine .bind_first hread' (.bind_first hread'' (.bind_first (.money_ok hamount) ?_))
              exact .clock_bind .epoch (.bind_error (.lawful_error hmove))
          | ok q =>
              obtain ⟨moved, updated⟩ := q
              cases hentry : target.void c.reason moved id .epoch with
              | error e' =>
                  obtain rfl := Option.some.inj
                    (h.symm.trans (refusal?_of_void hamount hmove hentry))
                  refine ⟨[id], List.Sublist.refl _, .bind_first hread ?_⟩
                  simp only [hvoid]
                  refine .bind_first hread' (.bind_first hread'' (.bind_first (.money_ok hamount) ?_))
                  refine .clock_bind .epoch (.lawful_bind hmove (.freshId_bind hid ?_))
                  exact .clock_bind .epoch (.bind_error (.lawful_error hentry))
              | ok voided =>
                  have heffect := (effect_error_iff .epoch .epoch id).mpr h
                  rw [effect_eq_ok hamount hmove hentry] at heffect
                  exact absurd heffect (by simp)

end BalanceLedger.VoidCommand
