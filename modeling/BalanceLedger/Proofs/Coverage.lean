/-
# `Proofs.Coverage` — whether an amount is covered, asked and tried

There are four ways to find out whether what is available covers an amount: to ask, to
debit it, to adjust the balance by it, and to reserve it.  They are four programs, each
with its own reading of the currency and its own idea of a slot that is not there.  A
question takes such a slot to cover nothing, a reservation refuses it, and a posting
opens one and finds it empty; an adjustment turns the sign of the amount round first.

On a store that nobody else uses they come to the same, and `asking_agrees_with_taking`
says so for every store that calls have led to, every text of a currency and every
amount.  `Agrees` is what agrees: the answer to the question whether the amount is
covered, the figures that are shown, and the outcome of each command that takes it.

What decides is what is available, as the slot is read (`availableRead`); and whatever
the slot is, it is found under its own key, so that the change set that takes the amount
is accepted.  It is from there that the state of the store matters, and a store that
calls have led to is such a store.

The commands are those that `Command.Takes` describes, so that none of them is refused
for anything else: they have no key, and their texts are in order.  `solo_execute` is
the lemma about all of them, and `isCovered_eq` the one about the question.
-/
import BalanceLedger.Operation.Query
import BalanceLedger.Proofs.Cancellation
import BalanceLedger.Proofs.Session

namespace BalanceLedger

open Store (ChangeSet Memory)
open Time (Instant)

/-! ## What is available -/

namespace Slot

def availableRead (stored : Option Slot) : Int64 :=
  (stored.map Slot.available).getD 0

theorem available_getD_opened (stored : Option Slot) (account : Uuid) (currency : Currency)
    (now : Instant) :
    (stored.getD (.opened account currency now)).available = availableRead stored := by
  cases stored with
  | none => exact show (0 : Int64) - 0 = 0 by decide
  | some s => rfl

theorem available_debit {s t : Slot} {amount : Amount} {now : Instant} {u : BalanceUpdated}
    (h : s.debit amount now = .ok (t, u)) :
    t.available = s.available - amount.val := by
  obtain ⟨-, hreserved, -, hbalance, -⟩ := debit_ok h
  rw [available, available, hbalance, hreserved]
  grind

end Slot

open Slot (availableRead)

/-! ## Commands that take an amount -/

/-- A debit without a key, whose texts are in order. -/
structure PostCommand.IsDebitOf (c : PostCommand) (account : Uuid) (currency : String)
    (amount : Amount) : Prop where
  account : c.account = account
  currency : c.currency = currency
  amount : c.amount = amount.val
  side : c.side = .debit
  key : c.key = none
  description : Text.isBlankText c.description = false ∧
    c.description.length ≤ Entry.maxDescription
  reference : ∀ r, c.reference = some r → r.length ≤ Entry.maxReference

/-- An adjustment by the opposite of an amount, whose reason is in order. -/
structure AdjustCommand.IsDebitOf (c : AdjustCommand) (account : Uuid) (currency : String)
    (amount : Amount) : Prop where
  account : c.account = account
  currency : c.currency = currency
  amount : c.amount = -amount.val
  reason : Text.isBlankText c.reason = false ∧
    ("Adjustment (" ++ c.kind.name ++ "): " ++ Text.trim c.reason).length ≤ Entry.maxDescription

/-- A command that takes an amount out of what an account has available in a currency. -/
inductive Command.Takes (account : Uuid) (currency : String) (amount : Amount) : Command → Prop
  | post {c : PostCommand} (h : c.IsDebitOf account currency amount) :
      Takes account currency amount (.post c)
  | adjust {c : AdjustCommand} (h : c.IsDebitOf account currency amount) :
      Takes account currency amount (.adjust c)
  | reserve : Takes account currency amount
      (.earmark .reserve { account, currency, amount := amount.val })

/-- A posting that takes an amount, and whose entry can be recorded. -/
structure Posting.Takes (p : Posting) (account : Uuid) (currency : Currency) (amount : Amount) :
    Prop where
  account : p.account = account
  currency : p.currency = currency
  side : p.draft.side = .debit
  amount : p.draft.amount = amount
  key : p.draft.key = none
  recorded : ∀ slot id now, ∃ e, Entry.post slot p.draft id now = .ok e

theorem Entry.exists_post {draft : EntryDraft} (slot : Slot) (id : Uuid) (now : Instant)
    (hdescription : draft.description.length ≤ maxDescription)
    (hreference : ∀ r, draft.reference = some r → r.length ≤ maxReference) :
    ∃ e, Entry.post slot draft id now = .ok e := by
  have hshort (field text : String) (limit : Nat) (h : text.length ≤ limit) :
      checkLength field text limit = .ok () := if_neg (Nat.not_lt.mpr h)
  unfold post
  rw [hshort _ _ _ hdescription]
  cases hr : draft.reference with
  | none => exact ⟨_, rfl⟩
  | some r =>
      have hcheck := hshort "reference" r _ (hreference r hr)
      simp only [hcheck]
      exact ⟨_, rfl⟩

variable {account : Uuid} {currency : String} {amount : Amount}

theorem PostCommand.IsDebitOf.ofCommand {c : PostCommand}
    (h : c.IsDebitOf account currency amount) :
    (∀ e, Currency.parse currency = .error e → Posting.ofCommand c = .error (.ofMoney e)) ∧
      ∀ k, Currency.parse currency = .ok k →
        ∃ p, Posting.ofCommand c = .ok p ∧ p.Takes account k amount := by
  unfold Posting.ofCommand
  simp only [h.amount, amount.ofInt64_val, h.currency, h.key, h.description.1]
  constructor
  · intro e he
    rw [he]
    rfl
  · intro k hk
    rw [hk]
    exact ⟨_, rfl, h.account, rfl, h.side, rfl, rfl, fun slot id now =>
      Entry.exists_post slot id now h.description.2 h.reference⟩

theorem Amount.checkedAbs_neg (a : Amount) : Word.checkedAbs (-a.val) = some a.val := by
  have hpos := a.toInt_pos
  have hfits := Word.fits_toInt a.val
  have habs : ((-a.val).toInt.natAbs : Int) = a.val.toInt := by
    rw [Word.toInt_neg_of_pos hpos]
    omega
  rw [Word.checkedAbs, habs, if_pos hfits, Int64.ofInt_toInt]

theorem AdjustCommand.IsDebitOf.toPosting {c : AdjustCommand}
    (h : c.IsDebitOf account currency amount) (transaction : Uuid) :
    (∀ e, Currency.parse currency = .error e → c.toPosting transaction = .error (.ofMoney e)) ∧
      ∀ k, Currency.parse currency = .ok k →
        ∃ p, c.toPosting transaction = .ok p ∧ p.Takes account k amount := by
  have hneg : (-amount.val).toInt = -amount.val.toInt := Word.toInt_neg_of_pos amount.toInt_pos
  have hpos := amount.toInt_pos
  have hnonzero : ¬ -amount.val = 0 := fun hzero => by
    rw [hzero] at hneg
    simp at hneg
    omega
  have hdebit : ¬ (0 : Int64) < -amount.val := fun hlt => by
    rw [Int64.lt_iff_toInt_lt, hneg] at hlt
    simp at hlt
    omega
  unfold AdjustCommand.toPosting
  simp only [h.amount, if_neg hnonzero, h.reason.1, amount.checkedAbs_neg, h.currency,
    amount.ofInt64_val, if_neg hdebit]
  constructor
  · intro e he
    rw [he]
    rfl
  · intro k hk
    rw [hk]
    exact ⟨_, rfl, h.account, rfl, rfl, rfl, rfl, fun slot id now =>
      Entry.exists_post slot id now h.reason.2 fun r hr => by
        obtain rfl := Option.some.inj hr
        cases c.kind <;> decide⟩

/-- The `refusal?` of a posting that takes an amount: it is refused if and only if what is available
does not cover it. -/
theorem Posting.Takes.refusal? {p : Posting} {k : Currency} (h : p.Takes account k amount)
    (stored : Option Slot) :
    p.refusal? stored = if availableRead stored < amount.val then
      some (.insufficientBalance amount.val (availableRead stored)) else none := by
  have havailable := Slot.available_getD_opened stored p.account p.currency .epoch
  unfold Posting.refusal? Posting.effect
  simp only [h.side, h.amount, Slot.move, Slot.debit, havailable]
  by_cases hshort : availableRead stored < amount.val
  · simp only [if_pos hshort]
    rfl
  · simp only [if_neg hshort]
    generalize stored.getD (.opened p.account p.currency .epoch) = slot
    obtain ⟨e, he⟩ :=
      h.recorded ({ slot with balance := slot.balance - amount.val }.touch .epoch) .nil .epoch
    simp only [bind, Except.bind, he, pure, Except.pure]

/-! ## Alone on a store -/

open Program (solo)

variable {m : Memory} {origin : Origin} {key : Slot.Key}

/-- What comes of taking an amount from a slot: it is taken if it is available, and else refused for
what is available, and the store is left as it was. -/
def Taken {α : Type} (amount : Amount) (m : Memory) (key : Slot.Key) :
    Except LedgerError α → Memory → Prop
  | .ok _, after =>
    ¬ availableRead (m.slots.get? key) < amount.val ∧
      availableRead (after.slots.get? key) = availableRead (m.slots.get? key) - amount.val
  | .error e, after =>
    availableRead (m.slots.get? key) < amount.val ∧ after = m ∧
      e = .domain (.insufficientBalance amount.val (availableRead (m.slots.get? key)))

theorem taken_write {α : Type} (a : α) {c : ChangeSet} (hkey : c.slot.key = key)
    (hcovered : ¬ availableRead (m.slots.get? key) < amount.val)
    (hleft : c.slot.available = availableRead (m.slots.get? key) - amount.val) :
    Taken amount m key (.ok a) (m.write c) := by
  refine ⟨hcovered, ?_⟩
  rw [Memory.get?_slots_write, if_pos hkey]
  exact hleft

theorem Store.Memory.fault?_eq_none_of_read {c : ChangeSet} (hkey : c.slot.key = key)
    (hexpected : c.expected = Slot.versionRead (m.slots.get? key))
    (hunmarked : ∀ e, c.entry = some e → e.key = none ∧ e.target = none) : m.fault? c = none := by
  refine Memory.fault?_eq_none_iff.mpr ⟨?_, fun e he => ⟨fun k hk => ?_, fun t ht => ?_⟩⟩
  · rw [hkey, hexpected]
    rfl
  · exact absurd ((hunmarked e he).1.symm.trans hk) (by simp)
  · exact absurd ((hunmarked e he).2.symm.trans ht) (by simp)

namespace Posting

variable {p : Posting}

theorem solo_plan {Q : Except LedgerError PostingPlan → Memory → Prop} (hkey : p.draft.key = none)
    (hrefused : ∀ e, p.refusal? (m.slots.get? p.slotKey) = some e → Q (.error (.domain e)) m)
    (hplanned : ∀ now later id x e outbox,
      p.effect (m.slots.get? p.slotKey) now later id = .ok x → x.entry = some e →
      Q (.ok (.commit
        { slot := x.slot, expected := Slot.versionRead (m.slots.get? p.slotKey), entry := some e,
          outbox } (p.written e))) m) : (p.plan origin).run.wp solo Q m := by
  unfold plan earlier
  rw [hkey]
  refine Operation.solo_read_bind (fun _ => rfl) (Operation.solo_clock_bind fun now => ?_)
  refine Operation.wp_lawful_bind (fun q hmove => ?_) fun e he => hrefused e (refusal?_of_move he)
  obtain ⟨moved, updated⟩ := q
  refine Operation.solo_freshId_bind fun id => Operation.solo_clock_bind fun later => ?_
  refine Operation.wp_lawful_bind (fun e hpost => ?_) fun e he =>
    hrefused e (refusal?_of_post hmove he)
  rw [Operation.wp_lift_bind]
  refine Operation.solo_stage fun outbox => ?_
  have hplan := hplanned now later id _ e outbox (effect_eq_ok hmove hpost) rfl
  obtain rfl : e.id = id := by rw [Entry.post_ok hpost]
  rwa [← Slot.version_getD_opened _ p.account p.currency now] at hplan

theorem Takes.effect_ok {k : Currency} (hp : p.Takes account k amount) {stored : Option Slot}
    {now later : Instant} {id : Uuid} {x : Effect} (h : p.effect stored now later id = .ok x) :
    ¬ availableRead stored < amount.val ∧ x.slot.available = availableRead stored - amount.val := by
  constructor
  · intro hshort
    have hrefusal := hp.refusal? stored
    rw [if_pos hshort, ← effect_error_iff now later id, h] at hrefusal
    exact absurd hrefusal (by simp)
  · obtain ⟨moved, updated, e, hmove, -, rfl⟩ := Posting.effect_ok h
    rw [hp.side, hp.amount] at hmove
    rw [Slot.available_debit hmove, Slot.available_getD_opened]

theorem Takes.solo_once {k : Currency} (hp : p.Takes account k amount) (hm : m.Indexed) :
    (p.once origin).run.wp solo
      (Operation.Attempted (fun _ => False) (Taken amount m p.slotKey)) m := by
  unfold once
  rw [Operation.wp_bind]
  refine Operation.solo_planning (solo_plan hp.key (fun e he => ?refused) ?made)
  case refused =>
    rw [hp.refusal?, Option.ite_none_right_eq_some] at he
    obtain ⟨hshort, he⟩ := he
    have hattempted : Operation.Attempted (fun _ => False) (Taken amount m p.slotKey)
        (.error (.domain e) : Except LedgerError PostingResult) m :=
      Operation.attempted_error rfl ⟨hshort, rfl, by rw [Option.some.inj he]⟩
    exact hattempted
  case made =>
    intro now later id x e outbox heffect hentry
    obtain ⟨hcovered, hleft⟩ := hp.effect_ok heffect
    have hslot := (keeps heffect (hm.slot_key p.slotKey)).slotKey
    obtain ⟨e', hentry', -, hkey, htarget⟩ := effect_entry heffect
    obtain rfl := Option.some.inj (hentry.symm.trans hentry')
    have haccepted : m.fault? ⟨x.slot, Slot.versionRead (m.slots.get? p.slotKey), some e, outbox⟩ =
        none := by
      refine Memory.fault?_eq_none_of_read hslot rfl fun e' he' => ?_
      obtain rfl := Option.some.inj he'
      exact ⟨hkey.trans hp.key, htarget⟩
    dsimp only [Operation.Then]
    rw [Operation.wp_lift_bind]
    exact Operation.solo_commit haccepted fun _ =>
      taken_write (p.written e) hslot hcovered hleft

end Posting

namespace Earmark

variable {slot : Slot} {now : Instant}

theorem change_reserve_ok {changed : Slot} {event : Event}
    (h : reserve.change slot amount now = .ok (changed, event)) :
    ¬ slot.available < amount.val ∧ changed.key = slot.key ∧
      changed.available = slot.available - amount.val := by
  by_cases hshort : slot.available < amount.val
  · simp [change, Slot.reserve, hshort, Except.map] at h
  · simp only [change, Slot.reserve, if_neg hshort, Except.map] at h
    obtain ⟨rfl, -⟩ := Prod.mk.inj (Except.ok.inj h)
    refine ⟨hshort, rfl, ?_⟩
    show slot.balance - (slot.reserved + amount.val) = slot.balance - slot.reserved - amount.val
    grind

theorem change_reserve_error {e : DomainError}
    (h : reserve.change slot amount now = .error e) :
    slot.available < amount.val ∧ e = .insufficientBalance amount.val slot.available := by
  by_cases hshort : slot.available < amount.val
  · simp only [change, Slot.reserve, if_pos hshort, Except.map] at h
    exact ⟨hshort, (Except.error.inj h).symm⟩
  · simp [change, Slot.reserve, hshort, Except.map] at h

theorem solo_once_reserve {k : Currency} (hm : m.Indexed) :
    (reserve.once account k amount origin).run.wp solo
      (Operation.Attempted (fun _ => False) (Taken amount m (account, k))) m := by
  have hrefused (hshort : availableRead (m.slots.get? (account, k)) < amount.val) :
      Operation.Attempted (fun _ => False) (Taken amount m (account, k))
        (.error (.domain (.insufficientBalance amount.val
          (availableRead (m.slots.get? (account, k))))) : Except LedgerError ReservationResult) m :=
    Operation.attempted_error rfl ⟨hshort, rfl, rfl⟩
  unfold once
  rw [Operation.wp_bind]
  refine Operation.solo_planning (Operation.solo_read_bind (fun _ => rfl) ?_)
  cases hstored : m.slots.get? (account, k) with
  | none =>
      rw [hstored] at hrefused
      exact hrefused amount.pos
  | some slot =>
      have hread : availableRead (m.slots.get? (account, k)) = slot.available := by
        rw [hstored]
        rfl
      rw [hread] at hrefused
      refine Operation.solo_clock_bind fun now => Operation.wp_lawful_bind (fun q hq => ?_)
        fun e he => ?_
      · obtain ⟨changed, event⟩ := q
        obtain ⟨hcovered, hkey, hleft⟩ := change_reserve_ok hq
        rw [← hread] at hcovered hleft
        have hslot : changed.key = (account, k) := hkey.trans (hm.slot_key _ slot hstored)
        rw [Operation.wp_lift_bind]
        refine Operation.solo_stage fun outbox => ?_
        have haccepted : m.fault? ⟨changed, slot.version, none, outbox⟩ = none :=
          Memory.fault?_eq_none_of_read hslot (by rw [hstored]; rfl) (by simp)
        refine Operation.wp_ask_bind (Operation.solo_commit haccepted ?_)
        exact fun _ => taken_write (reserve.result changed) hslot hcovered hleft
      · obtain ⟨hshort, rfl⟩ := change_reserve_error he
        exact hrefused hshort

end Earmark

/-! ## Calls -/

namespace Command.Takes

variable {call : Call}

theorem taken_map {α β : Type} {f : α → β} (r : Except LedgerError α) (t : Memory)
    (h : Taken amount m key r t) : Taken amount m key (r.map f) t := by
  cases r with
  | ok a => exact h
  | error e => exact h

/-- A command that takes an amount takes what is available: what it comes to is `Taken`. -/
theorem solo_execute {k : Currency} (h : call.command.Takes account currency amount)
    (hk : Currency.parse currency = .ok k) (hm : m.Indexed) :
    call.execute.run.wp solo (Taken amount m (account, k)) m := by
  have happly {p : Posting} (hp : p.Takes account k amount) :
      (p.apply call.policy call.origin).run.wp solo (Taken amount m (account, k)) m := by
    have hslot : p.slotKey = (account, k) := Prod.ext hp.account hp.currency
    exact hslot ▸ Operation.solo_retrying (hp.solo_once hm)
  unfold Call.execute
  generalize call.command = command at h
  cases h with
  | @post c hc =>
      obtain ⟨p, hp, htakes⟩ := hc.ofCommand.2 k hk
      refine Operation.solo_answer taken_map ?_
      unfold PostCommand.execute
      rw [hp]
      exact happly htakes
  | @adjust c hc =>
      refine Operation.solo_answer taken_map ?_
      unfold AdjustCommand.execute
      refine Operation.solo_freshId_bind fun transaction => ?_
      obtain ⟨p, hp, htakes⟩ := (hc.toPosting transaction).2 k hk
      rw [hp]
      show (p.apply call.policy call.origin >>= _).run.wp solo _ m
      rw [Operation.wp_bind]
      refine Program.wp_mono Program.mono_solo (fun r t hr => ?_) _ m (happly htakes)
      cases r with
      | ok a => exact fun _ => hr
      | error e => exact hr
  | reserve =>
      refine Operation.solo_answer taken_map ?_
      unfold ReserveCommand.execute
      simp only [amount.ofInt64_val, hk]
      exact Operation.solo_retrying (Earmark.solo_once_reserve hm)

theorem solo_execute_error {e : MoneyError} (h : call.command.Takes account currency amount)
    (he : Currency.parse currency = .error e) :
    call.execute.run.wp solo (fun r t => r = .error (.domain (.ofMoney e)) ∧ t = m) m := by
  unfold Call.execute
  generalize call.command = command at h
  cases h with
  | @post c hc =>
      simp only [PostCommand.execute, hc.ofCommand.1 e he]
      exact ⟨rfl, rfl⟩
  | @adjust c hc =>
      refine Operation.solo_answer
        (Q := fun r t => r = .error (.domain (.ofMoney e)) ∧ t = m) (fun r t hr => ?_) ?_
      · rw [hr.1]
        exact ⟨rfl, hr.2⟩
      · unfold AdjustCommand.execute
        refine Operation.solo_freshId_bind fun transaction => ?_
        rw [(hc.toPosting transaction).1 e he]
        exact ⟨rfl, rfl⟩
  | reserve =>
      simp only [ReserveCommand.execute, amount.ofInt64_val, he]
      exact ⟨rfl, rfl⟩

end Command.Takes

/-! ## Questions -/

namespace Query

variable {around : Surroundings}

theorem slot_eq_ask {k : Currency} (hk : Currency.parse currency = .ok k) :
    slot account currency = Operation.ask (.loadSlot account k) := by
  rw [slot, hk]
  rfl

theorem slot_eq_throw {e : MoneyError} (he : Currency.parse currency = .error e) :
    slot account currency = throw (.domain (.ofMoney e)) := by
  rw [slot, he]
  rfl

theorem any_covers (amount : Amount) (stored : Option Slot) :
    stored.any (·.covers amount.val) = decide (¬ availableRead stored < amount.val) := by
  cases stored with
  | none => exact (decide_eq_false (not_not.mpr amount.pos)).symm
  | some s => exact decide_eq_decide.mpr Int64.not_lt.symm

/-- Whether an amount is covered is told from the answer of `slot`. -/
theorem isCovered_eq (account : Uuid) (currency : String) (amount : Amount) :
    isCovered account currency amount.val =
      (do return decide (¬ availableRead (← slot account currency) < amount.val)) := by
  simp only [isCovered, if_neg (Int64.not_le.mpr amount.pos), any_covers]

theorem play_slot {k : Currency} (hk : Currency.parse currency = .ok k) :
    let r := (slot account currency).run.play around { memory := m }
    r.1 = .ok (m.slots.get? (account, k)) ∧ r.2.memory = m := by
  rw [slot_eq_ask hk]
  exact ⟨rfl, rfl⟩

theorem play_slot_error {e : MoneyError} (he : Currency.parse currency = .error e) :
    (slot account currency).run.play around { memory := m } =
      (.error (.domain (.ofMoney e)), { memory := m }) := by
  rw [slot_eq_throw he]
  rfl

theorem play_isCovered {k : Currency} (hk : Currency.parse currency = .ok k) :
    let r := (isCovered account currency amount.val).run.play around { memory := m }
    r.1 = .ok (decide (¬ availableRead (m.slots.get? (account, k)) < amount.val)) ∧
      r.2.memory = m := by
  rw [isCovered_eq, slot_eq_ask hk]
  exact ⟨rfl, rfl⟩

theorem play_isCovered_error {e : MoneyError} (he : Currency.parse currency = .error e) :
    (isCovered account currency amount.val).run.play around { memory := m } =
      (.error (.domain (.ofMoney e)), { memory := m }) := by
  rw [isCovered_eq, slot_eq_throw he]
  rfl

end Query

/-! ## Agreement -/

/-- What is answered about an amount agrees: to the question whether it is covered, to the question
for the slot, and to a call that takes it. -/
structure Agrees (m : Memory) (account : Uuid) (currency : String) (amount : Amount)
    (asked : Except LedgerError Bool × Session) (seen : Except LedgerError (Option Slot) × Session)
    (done : Except LedgerError Answer × Session) : Prop where
  /-- An amount is covered if and only if it can be taken. -/
  covered_iff : asked.1 = .ok true ↔ ∃ answer, done.1 = .ok answer
  /-- If it is not covered, the call is refused for what is seen to be available. -/
  short : asked.1 = .ok false → ∃ stored, seen.1 = .ok stored ∧
    done.1 = .error (.domain (.insufficientBalance amount.val (availableRead stored))) ∧
      done.2.memory = m
  /-- If the currency is none, that is what all of them are told. -/
  malformed : (∀ k, Currency.parse currency ≠ .ok k) →
    asked.1 = .error (.domain (.invalidCurrency (Text.trim currency))) ∧
      seen.1 = .error (.domain (.invalidCurrency (Text.trim currency))) ∧
      done.1 = .error (.domain (.invalidCurrency (Text.trim currency))) ∧ done.2.memory = m
  wellFormed : ∀ k, Currency.parse currency = .ok k → ∃ answer, asked.1 = .ok answer
  /-- What has been taken is no longer available. -/
  taken : ∀ answer, done.1 = .ok answer → ∃ k, Currency.parse currency = .ok k ∧
    availableRead (done.2.memory.slots.get? (account, k)) =
      availableRead (m.slots.get? (account, k)) - amount.val
  unchanged : asked.2.memory = m ∧ seen.2.memory = m

theorem Currency.parse_error {e : MoneyError} (h : Currency.parse currency = .error e) :
    e = .badCurrency (Text.trim currency) := by
  dsimp only [Currency.parse] at h
  split at h
  · exact absurd h (by simp)
  · exact (Except.error.inj h).symm

namespace Agrees

variable {asked : Except LedgerError Bool × Session}
  {seen : Except LedgerError (Option Slot) × Session} {done : Except LedgerError Answer × Session}

theorem of_ok {k : Currency} (hk : Currency.parse currency = .ok k)
    (hasked : asked.1 = .ok (decide (¬ availableRead (m.slots.get? (account, k)) < amount.val)) ∧
      asked.2.memory = m)
    (hseen : seen.1 = .ok (m.slots.get? (account, k)) ∧ seen.2.memory = m)
    (hdone : Taken amount m (account, k) done.1 done.2.memory) :
    Agrees m account currency amount asked seen done := by
  obtain ⟨hasked, hafter⟩ := hasked
  refine ⟨?covered_iff, ?short, ?malformed, fun _ _ => ⟨_, hasked⟩, ?taken, hafter, hseen.2⟩
  case covered_iff =>
    rw [hasked, Except.ok.injEq, decide_eq_true_iff]
    cases hdone' : done.1 with
    | ok answer =>
        rw [hdone'] at hdone
        exact ⟨fun _ => ⟨answer, rfl⟩, fun _ => hdone.1⟩
    | error e =>
        rw [hdone'] at hdone
        exact ⟨fun h => absurd hdone.1 h, fun ⟨_, h⟩ => absurd h (by simp)⟩
  case short =>
    intro h
    rw [hasked, Except.ok.injEq, decide_eq_false_iff_not, not_not] at h
    refine ⟨_, hseen.1, ?_⟩
    cases hdone' : done.1 with
    | ok answer =>
        rw [hdone'] at hdone
        exact absurd h hdone.1
    | error e =>
        rw [hdone'] at hdone
        exact ⟨by rw [hdone.2.2], hdone.2.1⟩
  case malformed => exact fun h => absurd hk (h k)
  case taken =>
    intro answer h
    rw [h] at hdone
    exact ⟨k, hk, hdone.2⟩

theorem of_error {e : MoneyError} (he : Currency.parse currency = .error e)
    (hasked : asked = (.error (.domain (.ofMoney e)), { memory := m }))
    (hseen : seen = (.error (.domain (.ofMoney e)), { memory := m }))
    (hdone : done.1 = .error (.domain (.ofMoney e)) ∧ done.2.memory = m) :
    Agrees m account currency amount asked seen done := by
  obtain rfl := Currency.parse_error he
  obtain ⟨hdone, hafter⟩ := hdone
  subst hasked hseen
  refine ⟨?covered_iff, ?short, ?malformed, ?wellFormed, ?taken, rfl, rfl⟩
  case covered_iff =>
    rw [hdone]
    exact ⟨fun h => absurd h (by simp), fun ⟨_, h⟩ => absurd h (by simp)⟩
  case short => exact fun h => absurd h (by simp)
  case malformed => exact fun _ => ⟨rfl, rfl, hdone, hafter⟩
  case wellFormed => exact fun k hk => absurd (he.symm.trans hk) (by simp)
  case taken => exact fun _ h => absurd (hdone.symm.trans h) (by simp)

end Agrees

/-- On every store that calls have led to, `Query.isCovered` says that an amount is covered if and
only if a debit of it, an adjustment by its opposite and a reservation of it succeed, and if it is
not, each of them is refused for what is available. -/
theorem asking_agrees_with_taking (steps : List (Interleaving.Step Call)) (account : Uuid)
    (currency : String) (amount : Amount) (call : Call)
    (hcall : call.command.Takes account currency amount) (around around' around'' : Surroundings) :
    let m := ((Interleaving.on .empty).run steps : Traffic).memory
    Agrees m account currency amount
      ((Query.isCovered account currency amount.val).run.play around { memory := m })
      ((Query.slot account currency).run.play around' { memory := m })
      (call.execute.run.play around'' { memory := m }) := by
  intro m
  have hm : m.Indexed := Traffic.indexed_run Memory.indexed_empty steps
  cases hparse : Currency.parse currency with
  | error e =>
      exact .of_error hparse (Query.play_isCovered_error hparse) (Query.play_slot_error hparse)
        (Program.play_of_wp around'' (hcall.solo_execute_error hparse))
  | ok k =>
      exact .of_ok hparse (Query.play_isCovered hparse) (Query.play_slot hparse)
        (Program.play_of_wp around'' (hcall.solo_execute hparse hm))

/-- Of the 100 that there are after a credit, a reservation, a debit and its void, 30 are reserved:
70 can be taken, and 71 cannot. -/
theorem asking_agrees_with_taking_creditReserveDebitVoid :
    let m := ((Interleaving.on .empty).run creditReserveDebitVoid : Traffic).memory
    let around : Surroundings := fun _ => { now := .epoch }
    let asked (n : Int64) := (Query.isCovered .nil "mad" n).run.play around { memory := m }
    let seen := (Query.slot .nil "mad").run.play around { memory := m }
    let debit (n : Int64) : Call := { command := .post (.debit .nil "mad" n "out") }
    let done (n : Int64) := (debit n).execute.run.play around { memory := m }
    let enough : Amount := ⟨70, by decide, by decide⟩
    let much : Amount := ⟨71, by decide, by decide⟩
    (debit 70).command.Takes .nil "mad" enough ∧ (debit 71).command.Takes .nil "mad" much ∧
      (asked 70).1 = .ok true ∧ (asked 71).1 = .ok false ∧
      Agrees m .nil "mad" enough (asked 70) seen (done 70) ∧
      Agrees m .nil "mad" much (asked 71) seen (done 71) := by
  intro m around asked seen debit done enough much
  have htakes (amount : Amount) : (debit amount.val).command.Takes .nil "mad" amount :=
    .post ⟨rfl, rfl, rfl, rfl, rfl, show Text.isBlankText "out" = false ∧
      "out".length ≤ Entry.maxDescription by decide +kernel, by simp [PostCommand.debit]⟩
  exact ⟨htakes enough, htakes much, by decide +kernel, by decide +kernel,
    asking_agrees_with_taking creditReserveDebitVoid .nil "mad" enough _ (htakes enough) _ _ _,
    asking_agrees_with_taking creditReserveDebitVoid .nil "mad" much _ (htakes much) _ _ _⟩

end BalanceLedger
