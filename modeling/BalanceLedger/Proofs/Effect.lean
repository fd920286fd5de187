/-
# `Proofs.Effect` — what a command does to a slot

A command that has read a slot has one `Effect` on it, or is refused: the slot after it,
the entry it adds to the log, and what it announces.  The effect is worked out from what
was read, without the store, so it is the same at whatever moment the slot is found to
be what it was.  There is one definition for each kind of command, `Posting.effect`,
`VoidCommand.effect` and `Earmark.effect`, and each is tied to the text of its operation
where the operation is proved.

Every effect `Keeps` the books: it counts the version up by one, leaves a solvent slot
solvent, and moves the balance by what its entry states.  Conservation, versions and
histories all come down to this.

What a command is refused with is worked out beside its effect, as `refusal?`.  Neither
the clock nor the identifier that is drawn has a part in it, by the two lemmas
`effect_error_iff`, so a refusal belongs to a slot and a command; without that an answer
could not be compared with the answer of another run, which draws other identifiers and
reads the clock at other times.
-/
import BalanceLedger.Operation.Adjustment
import BalanceLedger.Operation.Reservation
import BalanceLedger.Operation.Voiding
import BalanceLedger.Proofs.Attempt
import BalanceLedger.Proofs.Solvent

namespace BalanceLedger

open Store (ChangeSet)
open Time (Instant)

theorem exists_of_bind_ok {ε α β : Type} {x : Except ε α} {f : α → Except ε β} {b : β}
    (h : x >>= f = .ok b) : ∃ a, x = .ok a ∧ f a = .ok b := by
  cases x with
  | error e => exact absurd h (by simp [bind, Except.bind])
  | ok a => exact ⟨a, rfl, h⟩

theorem eq_ok_of_mapError_ok {ε ε' α : Type} {x : Except ε α} {f : ε → ε'} {a : α}
    (h : x.mapError f = .ok a) : x = .ok a := by
  cases x with
  | ok _ => exact congrArg _ (Except.ok.inj h)
  | error e => exact absurd h (by simp [Except.mapError])

def Slot.versionRead (stored : Option Slot) : Int64 :=
  (stored.map Slot.version).getD 0

def Slot.balanceRead (stored : Option Slot) : Int64 :=
  (stored.map Slot.balance).getD 0

theorem Slot.version_getD_opened (stored : Option Slot) (account : Uuid) (currency : Currency)
    (now : Instant) :
    (stored.getD (.opened account currency now)).version = versionRead stored := by
  cases stored <;> rfl

/-- What a command does: the slot after it, the entry it adds, and what it announces. -/
structure Effect where
  slot : Slot
  entry : Option Entry
  events : List Event

namespace Effect

/-- A change set writes an effect on a slot that was read, its messages having these identifiers:
the slot, the entry and the outbox are those of the `Effect`, and what is expected is `versionRead`.
-/
structure Written (x : Effect) (origin : Origin) (stored : Option Slot) (ids : List Uuid)
    (c : ChangeSet) : Prop where
  slot : c.slot = x.slot
  expected : c.expected = Slot.versionRead stored
  entry : c.entry = x.entry
  outbox : World.Staged origin x.events ids c.outbox

theorem Written.eq {x : Effect} {origin : Origin} {stored : Option Slot} {ids : List Uuid}
    {c : ChangeSet} (h : x.Written origin stored ids c) :
    c = { slot := x.slot, expected := Slot.versionRead stored, entry := x.entry,
          outbox := c.outbox } := by
  cases c with
  | mk slot expected entry outbox =>
      obtain ⟨hslot, hexpected, hentry, -⟩ := h
      simp only at hslot hexpected hentry
      rw [hslot, hexpected, hentry]

/-- An effect on a slot that was read keeps the books. -/
structure Keeps (x : Effect) (stored : Option Slot) (key : Slot.Key) : Prop where
  slotKey : x.slot.key = key
  version : x.slot.version = Slot.versionRead stored + 1
  announced : x.events ≠ []
  entry : ∀ e, x.entry = some e → e.slotKey = key ∧ e.runningBalance = x.slot.balance
  balance : (∀ s, stored = some s → s.Solvent) →
    x.slot.Solvent ∧ x.slot.balance.toInt =
      (Slot.balanceRead stored).toInt + (x.entry.map fun e => e.signedAmount.toInt).getD 0

theorem named {x : Effect} {e : Entry} {id : Uuid} (hentry : x.entry = some e) (hid : e.id = id) :
    ∀ e', x.entry = some e' → e'.id ∈ [id] := by
  intro e' he'
  obtain rfl := Option.some.inj (hentry.symm.trans he')
  exact List.mem_singleton.mpr hid

end Effect

theorem Entry.toInt_signedAmount {e : Entry} (h : 0 < e.amount.toInt) :
    e.signedAmount.toInt = e.side.signed e.amount.toInt := by
  unfold signedAmount
  cases e.side with
  | credit => rfl
  | debit => exact Word.toInt_neg_of_pos h

/-! ## Postings -/

theorem Entry.post_ok {slot : Slot} {draft : EntryDraft} {id : Uuid} {now : Instant} {e : Entry}
    (h : Entry.post slot draft id now = .ok e) :
    e = {
      id, account := slot.account, currency := slot.currency, side := draft.side,
      amount := draft.amount.val, description := draft.description, reference := draft.reference,
      transaction := draft.transaction, target := none, date := now,
      runningBalance := slot.balance, key := draft.key } := by
  obtain ⟨-, -, h⟩ := exists_of_bind_ok h
  cases hr : draft.reference with
  | none =>
      rw [hr] at h
      exact (Except.ok.inj h).symm
  | some reference =>
      rw [hr] at h
      dsimp only at h
      obtain ⟨-, -, h⟩ := exists_of_bind_ok h
      exact (Except.ok.inj h).symm

/-- Only the texts of a draft are refused. -/
theorem Entry.post_error {slot slot' : Slot} {draft : EntryDraft} {id id' : Uuid}
    {now now' : Instant} {e : DomainError} (h : Entry.post slot draft id now = .error e) :
    Entry.post slot' draft id' now' = .error e := by
  unfold post at h ⊢
  cases hd : checkLength "description" draft.description maxDescription with
  | error e' =>
      rw [hd] at h
      exact h
  | ok _ =>
      rw [hd] at h
      cases hr : draft.reference with
      | none =>
          rw [hr] at h
          exact absurd h (by simp [bind, Except.bind, pure, Except.pure])
      | some reference =>
          simp only [hr, bind, Except.bind, pure, Except.pure] at h ⊢
          split at h
          · exact h
          · exact absurd h (by simp)

/-- A change is refused for the figures of a slot, at whatever time. -/
theorem Slot.move_error {s t : Slot} (hbalance : t.balance = s.balance)
    (hreserved : t.reserved = s.reserved) {side : Side} {amount : Amount} {now now' : Instant}
    {e : DomainError} (h : s.move side amount now = .error e) :
    t.move side amount now' = .error e := by
  cases side with
  | credit =>
      simp only [move, credit, hbalance] at h ⊢
      split at h
      · exact h
      · exact absurd h (by simp)
  | debit =>
      have havailable : t.available = s.available := by
        rw [available, available, hbalance, hreserved]
      simp only [move, debit, havailable] at h ⊢
      by_cases hlow : s.available < amount.val
      · rw [if_pos hlow] at h ⊢
        exact h
      · rw [if_neg hlow] at h
        exact absurd h (by simp)

theorem Slot.move_error_cases {s : Slot} {side : Side} {amount : Amount} {now : Instant}
    {e : DomainError} (h : s.move side amount now = .error e) :
    e = .insufficientBalance amount.val s.available ∨ e = .balanceOverflow := by
  cases side with
  | credit =>
      simp only [move, credit] at h
      split at h
      · exact .inr (Except.error.inj h).symm
      · exact absurd h (by simp)
  | debit =>
      simp only [move, debit] at h
      split at h
      · exact .inl (Except.error.inj h).symm
      · exact absurd h (by simp)

namespace Posting

def slotKey (p : Posting) : Slot.Key :=
  (p.account, p.currency)

/-- The effect on a slot that was read. -/
def effect (p : Posting) (stored : Option Slot) (now later : Instant) (id : Uuid) :
    Except DomainError Effect := do
  let slot := stored.getD (.opened p.account p.currency now)
  let (moved, updated) ← slot.move p.draft.side p.draft.amount now
  let entry ← Entry.post moved p.draft id later
  return {
    slot := moved, entry := some entry
    events := [.balanceUpdated updated, .entryCreated entry.created] }

/-- What the posting is refused with on a slot that was read; `none` if it has an `effect`. -/
def refusal? (p : Posting) (stored : Option Slot) : Option DomainError :=
  match p.effect stored .epoch .epoch .nil with
  | .ok _ => none
  | .error e => some e

variable {p : Posting} {stored : Option Slot} {now later : Instant} {id : Uuid}

theorem effect_ok {x : Effect} (h : p.effect stored now later id = .ok x) :
    ∃ moved updated e,
      (stored.getD (.opened p.account p.currency now)).move p.draft.side p.draft.amount now =
        .ok (moved, updated) ∧
      Entry.post moved p.draft id later = .ok e ∧
      x = {
        slot := moved, entry := some e
        events := [.balanceUpdated updated, .entryCreated e.created] } := by
  obtain ⟨⟨moved, updated⟩, hmove, h⟩ := exists_of_bind_ok h
  obtain ⟨e, hpost, h⟩ := exists_of_bind_ok h
  exact ⟨moved, updated, e, hmove, hpost, (Except.ok.inj h).symm⟩

theorem effect_entry {x : Effect} (h : p.effect stored now later id = .ok x) :
    ∃ e, x.entry = some e ∧ e.id = id ∧ e.key = p.draft.key ∧ e.target = none := by
  obtain ⟨_, _, e, -, hpost, rfl⟩ := effect_ok h
  obtain rfl := Entry.post_ok hpost
  exact ⟨_, rfl, rfl, rfl, rfl⟩

theorem effect_eq_ok {moved : Slot} {updated : BalanceUpdated} {e : Entry}
    (hmove : (stored.getD (.opened p.account p.currency now)).move p.draft.side p.draft.amount now =
      .ok (moved, updated)) (hpost : Entry.post moved p.draft id later = .ok e) :
    p.effect stored now later id = .ok {
      slot := moved, entry := some e
      events := [.balanceUpdated updated, .entryCreated e.created] } := by
  simp only [effect, bind, Except.bind, hmove, hpost]
  rfl

theorem effect_error {e : DomainError} (h : p.effect stored now later id = .error e)
    (now' later' : Instant) (id' : Uuid) : p.effect stored now' later' id' = .error e := by
  have hopened : ∀ now now' : Instant,
      (stored.getD (.opened p.account p.currency now')).balance =
          (stored.getD (.opened p.account p.currency now)).balance ∧
        (stored.getD (.opened p.account p.currency now')).reserved =
          (stored.getD (.opened p.account p.currency now)).reserved := by
    intro now now'
    cases stored <;> exact ⟨rfl, rfl⟩
  unfold effect at h ⊢
  simp only [bind, Except.bind, pure, Except.pure] at h ⊢
  cases hmove : (stored.getD (.opened p.account p.currency now)).move p.draft.side p.draft.amount
      now with
  | error e' =>
      rw [hmove] at h
      rw [Slot.move_error (hopened now now').1 (hopened now now').2 hmove]
      exact h
  | ok moved =>
      rw [hmove] at h
      cases hmove' : (stored.getD (.opened p.account p.currency now')).move p.draft.side
          p.draft.amount now' with
      | error e' =>
          rw [Slot.move_error (hopened now' now).1 (hopened now' now).2 hmove'] at hmove
          exact absurd hmove (by simp)
      | ok moved' =>
          simp only at h ⊢
          split at h
          · rename_i hpost
            rw [Entry.post_error hpost]
            exact h
          · exact absurd h (by simp)

/-- Neither the clock nor the identifier decides whether a posting is refused: it is by its
`refusal?`. -/
theorem effect_error_iff {e : DomainError} (now later : Instant) (id : Uuid) :
    p.effect stored now later id = .error e ↔ p.refusal? stored = some e := by
  unfold refusal?
  constructor
  · intro h
    rw [effect_error h]
  · intro h
    split at h
    · exact absurd h (by simp)
    · rename_i hrefused
      rw [← Option.some.inj h]
      exact effect_error hrefused ..

theorem refusal?_of_move {e : DomainError}
    (h : (stored.getD (.opened p.account p.currency now)).move p.draft.side p.draft.amount now =
      .error e) : p.refusal? stored = some e := by
  refine (effect_error_iff now now .nil).mp ?_
  simp only [effect, bind, Except.bind, h]

theorem refusal?_of_post {moved : Slot} {updated : BalanceUpdated} {e : DomainError}
    (hmove : (stored.getD (.opened p.account p.currency now)).move p.draft.side p.draft.amount now =
      .ok (moved, updated)) (h : Entry.post moved p.draft id later = .error e) :
    p.refusal? stored = some e := by
  refine (effect_error_iff now later id).mp ?_
  simp only [effect, bind, Except.bind, hmove, h]

theorem keeps {x : Effect} (h : p.effect stored now later id = .ok x)
    (hstored : ∀ s, stored = some s → s.key = p.slotKey) : x.Keeps stored p.slotKey := by
  obtain ⟨moved, updated, e, hmove, hpost, rfl⟩ := effect_ok h
  obtain rfl := Entry.post_ok hpost
  obtain ⟨hsucceeds, hsolvent⟩ := Slot.move_ok hmove
  have hkey : (stored.getD (.opened p.account p.currency now)).key = p.slotKey := by
    cases stored with
    | none => rfl
    | some s => exact hstored s rfl
  have hmoved : moved.key = p.slotKey := hsucceeds.key.trans hkey
  refine ⟨hmoved, ?_, by simp, ?_, ?_⟩
  · rw [hsucceeds.version]
    cases stored <;> rfl
  · intro e he
    obtain rfl := Option.some.inj he
    exact ⟨hmoved, rfl⟩
  · intro hs
    have hread : (stored.getD (.opened p.account p.currency now)).Solvent := by
      cases stored with
      | none => exact Slot.solvent_opened ..
      | some s => exact hs s rfl
    obtain ⟨hafter, hbalance⟩ := hsolvent hread
    refine ⟨hafter, ?_⟩
    rw [hbalance, Option.map_some, Option.getD_some, Entry.toInt_signedAmount]
    · cases stored <;> rfl
    · exact p.draft.amount.toInt_pos

end Posting

/-! ## Voids -/

theorem Amount.val_of_ofInt64 {n : Int64} {a : Amount} (h : ofInt64 n = .ok a) : a.val = n := by
  unfold ofInt64 at h
  split at h
  · split at h
    · rw [← Except.ok.inj h]
    · exact absurd h (by simp)
  · exact absurd h (by simp)

theorem Entry.void_ok {target e : Entry} {reason : String} {slot : Slot} {id : Uuid}
    {now : Instant} {u : EntryVoided} (h : target.void reason slot id now = .ok (e, u)) :
    e = {
      id, account := target.account, currency := target.currency,
      side := target.side.opposite, amount := target.amount,
      description := voidDescription reason,
      reference := some ("VOID-" ++ target.id.render), transaction := target.transaction,
      target := some target.id, date := now, runningBalance := slot.balance, key := none } ∧
    u = { target := target.id, voidEntry := id, account := target.account,
          reason := Text.trim reason } := by
  unfold void at h
  dsimp only at h
  split at h
  · obtain ⟨_, hthrow, -⟩ := exists_of_bind_ok h
    exact absurd hthrow (by simp)
  · obtain ⟨-, -, h⟩ := exists_of_bind_ok h
    obtain ⟨rfl, rfl⟩ := Prod.mk.inj (Except.ok.inj h)
    exact ⟨rfl, rfl⟩

/-- Neither the slot nor the identifier nor the time decides whether a void is refused. -/
theorem Entry.void_error {target : Entry} {reason : String} {slot slot' : Slot} {id id' : Uuid}
    {now now' : Instant} {e : DomainError} (h : target.void reason slot id now = .error e) :
    target.void reason slot' id' now' = .error e := by
  unfold void at h ⊢
  generalize hlength : checkLength "description" (voidDescription reason) maxDescription = checked
    at h ⊢
  cases hvoid : target.isVoid with
  | true =>
      simp only [hvoid, if_true, throw, throwThe, MonadExceptOf.throw, bind, Except.bind] at h ⊢
      exact h
  | false =>
      cases checked with
      | error e' =>
          simp only [hvoid, Bool.false_eq_true, if_false, bind, Except.bind] at h ⊢
          exact h
      | ok _ => exact absurd h (by simp [hvoid, bind, Except.bind, pure, Except.pure])

/-- The void of a regular entry is refused only for the length of its description. -/
theorem Entry.void_error_eq {target : Entry} {reason : String} {slot : Slot} {id : Uuid}
    {now : Instant} {e : DomainError} (hvoid : target.isVoid = false)
    (h : target.void reason slot id now = .error e) : e = .tooLong "description" maxDescription := by
  unfold void at h
  simp only [hvoid, Bool.false_eq_true, if_false, checkLength, bind, Except.bind] at h
  split at h
  · rename_i hlong
    split at hlong
    · rw [← Except.error.inj h, ← Except.error.inj hlong]
    · exact absurd hlong (by simp)
  · exact absurd h (by simp [pure, Except.pure])

namespace VoidCommand

variable {c : VoidCommand} {target : Entry} {slot : Slot} {now later : Instant} {id : Uuid}

/-- The effect on the slot of the entry that is voided. -/
def effect (c : VoidCommand) (target : Entry) (slot : Slot) (now later : Instant) (id : Uuid) :
    Except DomainError Effect := do
  let amount ← (Amount.ofInt64 target.amount).mapError .ofMoney
  let (moved, updated) ← slot.move target.side.opposite amount now
  let (entry, voided) ← target.void c.reason moved id later
  return {
    slot := moved, entry := some entry
    events := [.balanceUpdated updated, .entryCreated entry.created, .entryVoided voided] }

theorem effect_ok {x : Effect} (h : c.effect target slot now later id = .ok x) :
    ∃ amount moved updated e voided,
      Amount.ofInt64 target.amount = .ok amount ∧
      slot.move target.side.opposite amount now = .ok (moved, updated) ∧
      target.void c.reason moved id later = .ok (e, voided) ∧
      x = {
        slot := moved, entry := some e
        events := [.balanceUpdated updated, .entryCreated e.created, .entryVoided voided] } := by
  obtain ⟨amount, hamount, h⟩ := exists_of_bind_ok h
  obtain ⟨⟨moved, updated⟩, hmove, h⟩ := exists_of_bind_ok h
  obtain ⟨⟨e, voided⟩, hvoid, h⟩ := exists_of_bind_ok h
  exact ⟨amount, moved, updated, e, voided, eq_ok_of_mapError_ok hamount, hmove, hvoid,
    (Except.ok.inj h).symm⟩

theorem effect_error {e : DomainError} (h : c.effect target slot now later id = .error e)
    (now' later' : Instant) (id' : Uuid) : c.effect target slot now' later' id' = .error e := by
  simp only [effect, bind, Except.bind, pure, Except.pure] at h ⊢
  cases hamount : (Amount.ofInt64 target.amount).mapError DomainError.ofMoney with
  | error e' =>
      rw [hamount] at h
      exact h
  | ok amount =>
      simp only [hamount] at h ⊢
      cases hmove : slot.move target.side.opposite amount now with
      | error e' =>
          rw [hmove] at h
          rw [Slot.move_error rfl rfl hmove]
          exact h
      | ok moved =>
          rw [hmove] at h
          cases hmove' : slot.move target.side.opposite amount now' with
          | error e' =>
              rw [Slot.move_error rfl rfl hmove'] at hmove
              exact absurd hmove (by simp)
          | ok moved' =>
              simp only at h ⊢
              split at h
              · rename_i hvoid
                rw [Entry.void_error hvoid]
                exact h
              · exact absurd h (by simp)

/-- What the void of an entry is refused with on a slot that was read. -/
def refusal? (c : VoidCommand) (target : Entry) : Option Slot → Option DomainError
  | none => some (.noSlot target.currency.code target.account)
  | some slot =>
    match c.effect target slot .epoch .epoch .nil with
    | .ok _ => none
    | .error e => some e

/-- Neither the clock nor the identifier decides whether a void is refused. -/
theorem effect_error_iff {e : DomainError} (now later : Instant) (id : Uuid) :
    c.effect target slot now later id = .error e ↔ c.refusal? target (some slot) = some e := by
  simp only [refusal?]
  constructor
  · intro h
    rw [effect_error h]
  · intro h
    split at h
    · exact absurd h (by simp)
    · rename_i hrefused
      rw [← Option.some.inj h]
      exact effect_error hrefused ..

theorem refusal?_of_amount {e : MoneyError} (h : Amount.ofInt64 target.amount = .error e) :
    c.refusal? target (some slot) = some (.ofMoney e) := by
  refine (effect_error_iff .epoch .epoch .nil).mp ?_
  simp only [effect, bind, Except.bind, h, Except.mapError]

theorem refusal?_of_move {amount : Amount} {e : DomainError}
    (hamount : Amount.ofInt64 target.amount = .ok amount)
    (h : slot.move target.side.opposite amount now = .error e) :
    c.refusal? target (some slot) = some e := by
  refine (effect_error_iff now now .nil).mp ?_
  simp only [effect, bind, Except.bind, hamount, Except.mapError, h]

theorem refusal?_of_void {amount : Amount} {moved : Slot} {updated : BalanceUpdated}
    {e : DomainError} (hamount : Amount.ofInt64 target.amount = .ok amount)
    (hmove : slot.move target.side.opposite amount now = .ok (moved, updated))
    (h : target.void c.reason moved id later = .error e) :
    c.refusal? target (some slot) = some e := by
  refine (effect_error_iff now later id).mp ?_
  simp only [effect, bind, Except.bind, hamount, Except.mapError, hmove, h]

/-- What refuses the void of a regular entry on a slot is the slot, or the length of the
description. -/
theorem refusal?_cases {amount : Amount} {e : DomainError} (hvoid : target.isVoid = false)
    (hamount : Amount.ofInt64 target.amount = .ok amount)
    (h : c.refusal? target (some slot) = some e) :
    slot.move target.side.opposite amount .epoch = .error e ∨
      ∃ moved, target.void c.reason moved .nil .epoch = .error e ∧
        e = .tooLong "description" Entry.maxDescription := by
  have heffect := (effect_error_iff .epoch .epoch .nil).mpr h
  simp only [effect, bind, Except.bind, hamount, Except.mapError] at heffect
  cases hmove : slot.move target.side.opposite amount .epoch with
  | error e' =>
      rw [hmove] at heffect
      exact .inl (congrArg _ (Except.error.inj heffect))
  | ok q =>
      obtain ⟨moved, updated⟩ := q
      rw [hmove] at heffect
      dsimp only at heffect
      split at heffect
      · rename_i hentry
        obtain rfl := Except.error.inj heffect
        exact .inr ⟨moved, hentry, Entry.void_error_eq hvoid hentry⟩
      · exact absurd heffect (by simp [pure, Except.pure])

theorem effect_entry {x : Effect} (h : c.effect target slot now later id = .ok x) :
    ∃ e, x.entry = some e ∧ e.id = id ∧ e.key = none ∧ e.target = some target.id := by
  obtain ⟨_, _, _, e, _, -, -, hvoid, rfl⟩ := effect_ok h
  obtain ⟨rfl, -⟩ := Entry.void_ok hvoid
  exact ⟨_, rfl, rfl, rfl, rfl⟩

theorem effect_eq_ok {amount : Amount} {moved : Slot} {updated : BalanceUpdated} {e : Entry}
    {voided : EntryVoided} (hamount : Amount.ofInt64 target.amount = .ok amount)
    (hmove : slot.move target.side.opposite amount now = .ok (moved, updated))
    (hvoid : target.void c.reason moved id later = .ok (e, voided)) :
    c.effect target slot now later id = .ok {
      slot := moved, entry := some e
      events := [.balanceUpdated updated, .entryCreated e.created, .entryVoided voided] } := by
  simp only [effect, bind, Except.bind, hamount, Except.mapError, hmove, hvoid]
  rfl

theorem keeps {x : Effect} (h : c.effect target slot now later id = .ok x)
    (hslot : slot.key = target.slotKey) : x.Keeps (some slot) target.slotKey := by
  obtain ⟨amount, moved, updated, e, voided, hamount, hmove, hvoid, rfl⟩ := effect_ok h
  obtain ⟨rfl, -⟩ := Entry.void_ok hvoid
  obtain ⟨hsucceeds, hsolvent⟩ := Slot.move_ok hmove
  have hval := Amount.val_of_ofInt64 hamount
  refine ⟨hsucceeds.key.trans hslot, hsucceeds.version, by simp, ?_, ?_⟩
  · intro e he
    obtain rfl := Option.some.inj he
    exact ⟨rfl, rfl⟩
  · intro hs
    obtain ⟨hafter, hbalance⟩ := hsolvent (hs slot rfl)
    have hpos : 0 < target.amount.toInt := hval ▸ amount.toInt_pos
    refine ⟨hafter, ?_⟩
    rw [hbalance, hval, Option.map_some, Option.getD_some, Entry.toInt_signedAmount]
    · rfl
    · exact hpos

end VoidCommand

/-! ## Reservations -/

namespace Earmark

variable {k : Earmark} {slot : Slot} {amount : Amount} {now : Instant}

def effect (k : Earmark) (slot : Slot) (amount : Amount) (now : Instant) :
    Except DomainError Effect :=
  (k.change slot amount now).map fun (changed, event) =>
    { slot := changed, entry := none, events := [event] }

theorem effect_ok {x : Effect} (h : k.effect slot amount now = .ok x) :
    ∃ changed event, k.change slot amount now = .ok (changed, event) ∧
      x = { slot := changed, entry := none, events := [event] } := by
  unfold effect at h
  cases hchange : k.change slot amount now with
  | error e =>
      rw [hchange] at h
      exact absurd h (by simp [Except.map])
  | ok q =>
      rw [hchange] at h
      exact ⟨q.1, q.2, rfl, (Except.ok.inj h).symm⟩

theorem effect_eq_ok {changed : Slot} {event : Event}
    (h : k.change slot amount now = .ok (changed, event)) :
    k.effect slot amount now = .ok { slot := changed, entry := none, events := [event] } := by
  rw [effect, h]
  rfl

theorem change_ok {changed : Slot} {event : Event}
    (h : k.change slot amount now = .ok (changed, event)) :
    (∃ u, slot.reserve amount now = .ok (changed, u) ∧ event = .fundsReserved u) ∨
      ∃ u, slot.release amount now = .ok (changed, u) ∧ event = .reservationReleased u := by
  cases k with
  | reserve =>
      unfold change at h
      cases hreserve : slot.reserve amount now with
      | error e =>
          rw [hreserve] at h
          exact absurd h (by simp [Except.map])
      | ok q =>
          rw [hreserve] at h
          obtain ⟨rfl, rfl⟩ := Prod.mk.inj (Except.ok.inj h)
          exact .inl ⟨q.2, rfl, rfl⟩
  | release =>
      unfold change at h
      cases hrelease : slot.release amount now with
      | error e =>
          rw [hrelease] at h
          exact absurd h (by simp [Except.map])
      | ok q =>
          rw [hrelease] at h
          obtain ⟨rfl, rfl⟩ := Prod.mk.inj (Except.ok.inj h)
          exact .inr ⟨q.2, rfl, rfl⟩

theorem change_keeps {changed : Slot} {event : Event}
    (h : k.change slot amount now = .ok (changed, event)) :
    changed.Succeeds slot ∧ changed.balance = slot.balance ∧
      (slot.Solvent → changed.Solvent) := by
  rcases change_ok h with ⟨u, hreserve, -⟩ | ⟨u, hrelease, -⟩
  · obtain ⟨hsucceeds, hbalance, -, hsolvent⟩ := Slot.reserve_ok hreserve
    exact ⟨hsucceeds, hbalance, fun hs => (hsolvent hs).1⟩
  · obtain ⟨hsucceeds, hbalance, -, hsolvent⟩ := Slot.release_ok hrelease
    exact ⟨hsucceeds, hbalance, fun hs => (hsolvent hs).1⟩

theorem keeps {x : Effect} (h : k.effect slot amount now = .ok x) :
    x.Keeps (some slot) slot.key := by
  obtain ⟨changed, event, hchange, rfl⟩ := effect_ok h
  obtain ⟨hsucceeds, hbalance, hsolvent⟩ := change_keeps hchange
  refine ⟨hsucceeds.key, hsucceeds.version, by simp, by simp, fun hs => ?_⟩
  refine ⟨hsolvent (hs slot rfl), ?_⟩
  simp [hbalance, Slot.balanceRead]

end Earmark

end BalanceLedger
