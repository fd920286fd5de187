/-
# `Proofs.Reservation` — how reservations and releases end

A reservation reads one thing only, the slot.  It commits its effect on the slot, or it
is refused by the slot as it was read, or it is given up.  So there is nothing here of
the care that postings and voids take between two readings: `wp_once` is one reading and
one commit, and `alone_once` is its counterpart where nobody else works on the store.

Reservations and releases are one development, since `Earmark` is the parameter in which
they differ.
-/
import BalanceLedger.Proofs.Alone
import BalanceLedger.Proofs.Commitment

namespace BalanceLedger.Earmark

open Store (ChangeSet Memory)
open Time (Instant)

variable {k : Earmark} {account : Uuid} {currency : Currency} {amount : Amount} {origin : Origin}
  {T : Terms} {start v : View}

/-! ## Among others -/

theorem wp_once {Q : Except LedgerError ReservationResult → View → Prop} (hbase : T.base.Indexed)
    (hcancelled : ∀ w, T.Quiet start w → Q (.error .cancelled) w)
    (hrefused : ∀ w e, T.Quiet start w → Q (.error (.domain e)) w)
    (hmade : ∀ w slot now x ids c, k.effect slot amount now = .ok x →
      T.Commitment start w origin (account, currency) (some slot) x [] ids c →
      T.owes w c ∧ Q (.ok (k.result x.slot)) (w.push T.place c))
    (hv : T.Quiet start v) :
    T.wp (k.once account currency amount origin).run (T.Attempted start Q) v := by
  have hrefused' : ∀ w e, T.Quiet start w → T.Attempted start Q (.error (.domain e)) w :=
    fun w e hw => Terms.attempted_error rfl (hrefused w e hw)
  have hcancelled' : ∀ w, T.Quiet start w → T.Attempted start Q (.error .cancelled) w :=
    fun w hw => Terms.attempted_error rfl (hcancelled w hw)
  refine Terms.wp_bind_run (Terms.wp_planning (hcancelled' v hv) ?_)
  refine Terms.wp_read_bind (fun m => m.slots.get? (account, currency)) (fun _ _ => rfl)
    hv hcancelled' fun w₁ hw₁ _ hdrawn₁ => ?_
  cases hslot : (T.memory w₁).slots.get? (account, currency) with
  | none => exact hrefused' w₁ _ hw₁
  | some slot =>
      refine Terms.wp_lift_bind fun now => Terms.wp_lawful_bind (fun q hchange => ?_)
        fun e _ => hrefused' w₁ e hw₁
      obtain ⟨changed, event⟩ := q
      refine Terms.wp_lift_bind
        (Terms.wp_stage hw₁ fun w₂ ids outbox hw₂ hlater₂ hdrawn₂ hstaged => ?_)
      have heffect := effect_eq_ok hchange
      refine Terms.wp_ask_bind (Terms.wp_commit hw₂ (fun u f hu _ _ hf => ?_)
        fun u hu hlater hdrawn haccepted => ?_)
      · refine ⟨fun a h => absurd h (by simp), fun f' hf' => ?_⟩
        obtain rfl := Except.error.inj hf'
        rcases Memory.fault?_eq_some hf with rfl | ⟨e, _, he, -⟩ | ⟨e, _, he, -⟩
        · exact hu
        · exact absurd he (by simp)
        · exact absurd he (by simp)
      · have hkey := (hbase.after hw₁.orderly).slot_key _ slot hslot
        have hkeeps := hkey ▸ keeps heffect
        have hdrawn' : u.drawn = ([] ++ ids).reverse ++ v.drawn := by
          rw [hdrawn, hdrawn₂, hdrawn₁]
          rfl
        have hcommitment := hv.commitment hu (hlater₂.trans hlater) hslot hdrawn'
          ⟨rfl, rfl, rfl, hstaged⟩ hkeeps (by simp) haccepted
        obtain ⟨howes, hdone⟩ := hmade u slot now _ ids _ heffect hcommitment
        exact ⟨hcommitment.due howes, fun _ _ _ => hdone, fun e h => absurd h (by simp)⟩

/-! ## Alone -/

/-- A reservation whose `effect` the store accepts commits it. -/
theorem alone_once {m : Memory} {slot : Slot} {x : Effect} {ids : List Uuid} {c : ChangeSet}
    {now : Instant} (hslot : m.slots.get? (account, currency) = some slot)
    (heffect : k.effect slot amount now = .ok x) (hwritten : x.Written origin (some slot) ids c)
    (haccepted : m.fault? c = none) (hnew : ∀ id ∈ ids, id ∉ m.ids) :
    Alone (k.once account currency amount origin).run m ids (.ok (k.result x.slot))
      (m.write c) := by
  obtain ⟨changed, event, hchange, rfl⟩ := effect_ok heffect
  have hread : Alone (Operation.read (.loadSlot account currency)).run m [] (.ok (some slot)) m :=
    .read fun _ => by rw [← hslot]; rfl
  have hplan : Alone (k.plan account currency amount origin).run m ids
      (.ok (c, k.result changed)) m := by
    refine .bind_first hread (.clock_bind now (.lawful_bind hchange ?_))
    rw [hwritten.eq]
    exact .bind_last (.lift (.stage hwritten.outbox hnew)) (.answer _)
  exact .bind_last (.planning hplan) (.bind_last (.ask_commit haccepted)
    (.bind_last (.lift (.log ..)) (.answer _)))

end BalanceLedger.Earmark
