/-
# `Proofs.Idempotency` — a key has one effect

That a key is used can come out at three moments: when it is looked up, when an attempt
that has lost the race looks it up again, and when the store refuses the change set.  In
each of them the answer is that of the entry that holds the key, and an entry that holds
a key once holds it for ever.  So all who post under a key are answered alike, one of
them at most because it has written the entry.

`key_once_only` says so for every list of steps and every key, and `OnceOnly` spells it
out: there is at most one entry, at most one call is answered with a new one, the others
with the same identifier and the same figures, and the errors that speak of a key
without an owner are not answered.

The lemma on which it rests is `exists_entry_of_answer`: an answer that is no error is
that of the entry which holds the key.  For that the refusals have to be told apart, and
the first section does it.  No refusal of a slot, an amount or a text is the refusal of
a key, so whoever is refused for the key has not been refused for something else.
-/
import BalanceLedger.Proofs.Traffic

namespace BalanceLedger

open Store (ChangeSet Memory)
open Time (Instant)

/-! ## Keys of commands -/

theorem error_cases_of_bind {ε α β : Type} {x : Except ε α} {f : α → Except ε β} {e : ε}
    (h : x >>= f = .error e) : x = .error e ∨ ∃ a, x = .ok a ∧ f a = .error e := by
  cases x with
  | error e' => exact .inl (by rw [← Except.error.inj h])
  | ok a => exact .inr ⟨a, rfl, h⟩

theorem Slot.move_error_ne {s : Slot} {side : Side} {amount : Amount} {now : Instant}
    {e : DomainError} (h : s.move side amount now = .error e) (detail : String) :
    e ≠ .invalidIdempotencyKey detail := by
  rcases move_error_cases h with rfl | rfl
  · exact DomainError.noConfusion
  · exact DomainError.noConfusion

theorem Entry.checkLength_error_ne {field text : String} {limit : Nat} {e : DomainError}
    (h : checkLength field text limit = .error e) (detail : String) :
    e ≠ .invalidIdempotencyKey detail := by
  unfold checkLength at h
  split at h
  · rw [← Except.error.inj h]
    exact DomainError.noConfusion
  · exact absurd h (by simp)

theorem Entry.post_error_ne {slot : Slot} {draft : EntryDraft} {id : Uuid} {now : Instant}
    {e : DomainError} (h : Entry.post slot draft id now = .error e) (detail : String) :
    e ≠ .invalidIdempotencyKey detail := by
  rcases error_cases_of_bind h with h | ⟨_, -, h⟩
  · exact checkLength_error_ne h detail
  · cases hr : draft.reference with
    | none =>
        rw [hr] at h
        exact absurd h (by simp [pure, Except.pure])
    | some reference =>
        rw [hr] at h
        dsimp only at h
        rcases error_cases_of_bind h with h | ⟨_, -, h⟩
        · exact checkLength_error_ne h detail
        · exact absurd h (by simp [pure, Except.pure])

theorem DomainError.ofMoney_ne (e : MoneyError) (detail : String) :
    DomainError.ofMoney e ≠ .invalidIdempotencyKey detail := by
  cases e <;> exact DomainError.noConfusion

theorem DomainError.ne_of_mapError_ofMoney {α : Type} {x : Except MoneyError α} {e : DomainError}
    (h : x.mapError DomainError.ofMoney = .error e) (detail : String) :
    e ≠ .invalidIdempotencyKey detail := by
  cases x with
  | error e' =>
      rw [← Except.error.inj h]
      exact DomainError.ofMoney_ne e' detail
  | ok a => exact absurd h (by simp [Except.mapError])

namespace Posting

variable {c : PostCommand} {p : Posting} {text : String} {key : IdempotencyKey}

theorem mapM_parse (hkey : c.key = some text) (hparse : IdempotencyKey.parse text = .ok key) :
    c.key.mapM IdempotencyKey.parse = .ok (some key) := by
  rw [hkey, Option.mapM_some, hparse]
  rfl

theorem key_of_ofCommand (hkey : c.key = some text) (hparse : IdempotencyKey.parse text = .ok key)
    (h : ofCommand c = .ok p) : p.draft.key = some key := by
  obtain ⟨amount, -, h⟩ := exists_of_bind_ok h
  obtain ⟨currency, -, h⟩ := exists_of_bind_ok h
  obtain ⟨key', hmap, h⟩ := exists_of_bind_ok h
  obtain rfl := Except.ok.inj (hmap.symm.trans (mapM_parse hkey hparse))
  dsimp only at h
  split at h
  · exact absurd h (by simp [throw, throwThe, MonadExceptOf.throw, bind, Except.bind])
  · obtain rfl := Except.ok.inj h
    rfl

theorem ofCommand_error_ne (hkey : c.key = some text)
    (hparse : IdempotencyKey.parse text = .ok key) {e : DomainError} (h : ofCommand c = .error e)
    (detail : String) : e ≠ .invalidIdempotencyKey detail := by
  rcases error_cases_of_bind h with h | ⟨amount, -, h⟩
  · exact DomainError.ne_of_mapError_ofMoney h detail
  rcases error_cases_of_bind h with h | ⟨currency, -, h⟩
  · exact DomainError.ne_of_mapError_ofMoney h detail
  rcases error_cases_of_bind h with h | ⟨key', -, h⟩
  · rw [mapM_parse hkey hparse] at h
    exact absurd h (by simp)
  · dsimp only at h
    split at h
    · rw [← Except.error.inj h]
      exact DomainError.noConfusion
    · exact absurd h (by simp [pure, Except.pure])

theorem refusal?_ne {stored : Option Slot} {e : DomainError} (h : p.refusal? stored = some e)
    (detail : String) : e ≠ .invalidIdempotencyKey detail := by
  have heffect := (effect_error_iff .epoch .epoch .nil).mpr h
  rcases error_cases_of_bind heffect with hmove | ⟨⟨moved, updated⟩, -, heffect⟩
  · exact Slot.move_error_ne hmove detail
  rcases error_cases_of_bind heffect with hpost | ⟨e', -, hok⟩
  · exact Entry.post_error_ne hpost detail
  · exact absurd hok (by simp [pure, Except.pure])

end Posting

namespace Traffic

variable {s : Traffic} {key : IdempotencyKey} {place place' : Nat}

def PostsUnder (s : Traffic) (place : Nat) (key : IdempotencyKey) : Prop :=
  ∃ (p : Party Call (Except LedgerError Answer)) (c : PostCommand) (text : String),
    s.parties[place]? = some p ∧ p.task.command = .post c ∧ c.key = some text ∧
      IdempotencyKey.parse text = .ok key

/-- A key has at most one effect, and everyone who posts under it is answered alike. -/
structure OnceOnly (s : Traffic) (key : IdempotencyKey) : Prop where
  /-- The log has at most one entry under the key. -/
  entry : ∀ (n n' : Nat) (e e' : Entry), s.memory.entries[n]? = some e →
    s.memory.entries[n']? = some e' → e.key = some key → e'.key = some key → n = n'
  /-- At most one call answers that it has posted. -/
  posted : ∀ (place place' : Nat) (r r' : PostingResult), s.PostsUnder place key →
    s.PostsUnder place' key →
    s.answer? place = some (.ok (.posting r)) → s.answer? place' = some (.ok (.posting r')) →
    r.status = .posted → r'.status = .posted → place = place'
  /-- Every answer that is no error is that of the entry; who has not posted it has committed
  nothing. -/
  answered : ∀ (place : Nat) (a : Answer), s.PostsUnder place key →
    s.answer? place = some (.ok a) → ∃ (e : Entry) (r : PostingResult), e ∈ s.memory.entries ∧
      e.key = some key ∧ a = .posting r ∧ r.entry = e.id ∧ r.balance = e.runningBalance ∧
      (r.status = .posted ∧ (∃ c, (place, c) ∈ s.journal ∧ c.entry = some e) ∨
        r.status = .alreadyProcessed ∧ ∀ p ∈ s.journal, p.1 ≠ place)
  /-- The entry that holds a used key is found, and the key is read back. -/
  failures : ∀ (place : Nat) (e : LedgerError), s.PostsUnder place key →
    s.answer? place = some (.error e) →
    (∀ detail, e ≠ .internal detail) ∧ ∀ detail, e ≠ .domain (.invalidIdempotencyKey detail)

variable {base : Memory} {p : Party Call (Except LedgerError Answer)} {cmd : PostCommand}
  {text : String}

/-- What a call that `PostsUnder` a key has committed is an entry under that key, and its answer is
that of the entry. -/
theorem entry_of_report (h : (Call.charter base).Upheld base s) (hp : s.parties[place]? = some p)
    (hcmd : p.task.command = .post cmd) (hkey : cmd.key = some text)
    (hparse : IdempotencyKey.parse text = .ok key) {c : ChangeSet} (hc : (place, c) ∈ s.journal)
    {a : Answer} (hreport : p.task.report c = some a) :
    ∃ e, c.entry = some e ∧ e.key = some key ∧ e.id ∈ p.drawn ∧
      a = .posting { entry := e.id, status := .posted, balance := e.runningBalance } := by
  obtain ⟨j, hj⟩ := exists_prefix_of_mem hc
  obtain ⟨p', drawn, key', stored, ids, ids', x, hp', -, hdrawn, hcommits⟩ := exists_commits h hj
  obtain rfl := Option.some.inj (hp.symm.trans hp')
  have hsettles := hcommits.settles
  rw [hcmd] at hsettles
  cases hsettles with
  | post hposting heffect =>
      obtain ⟨e, hentry, hid, hkey', -⟩ := Posting.effect_entry heffect
      have hce := hcommits.written.entry.trans hentry
      refine ⟨e, hce, hkey'.trans (Posting.key_of_ofCommand hkey hparse hposting), ?_, ?_⟩
      · rw [hid]
        exact hdrawn.subset (hcommits.drawn _ (by simp))
      · simp only [Call.report, hcmd, hce] at hreport
        exact (Option.some.inj hreport).symm

/-- An answer that is no error is that of the entry that holds the key: the call has written it, or
has found it. -/
theorem exists_entry_of_answer (hbase : base.Indexed) (h : (Call.charter base).Upheld base s)
    (hp : s.parties[place]? = some p) (hcmd : p.task.command = .post cmd)
    (hkey : cmd.key = some text) (hparse : IdempotencyKey.parse text = .ok key) {a : Answer}
    (ha : p.answer? = some (.ok a)) :
    ∃ e, e ∈ s.memory.entries ∧ e.key = some key ∧
      ((a = .posting { entry := e.id, status := .posted, balance := e.runningBalance } ∧
          e.id ∈ p.drawn ∧ ∃ c, (place, c) ∈ s.journal ∧ c.entry = some e) ∨
        a = .posting (Posting.replayed e) ∧ ∀ p ∈ s.journal, p.1 ≠ place) := by
  rcases h.ensures hp ha with ⟨c, a', hc, hreport, heq⟩ | ⟨hsilent, hdeclines⟩
  · obtain rfl := Except.ok.inj heq
    obtain ⟨e, hentry, hekey, hid, ha⟩ := entry_of_report h hp hcmd hkey hparse hc hreport
    exact ⟨e, mem_entries h hc hentry, hekey, .inl ⟨ha, hid, c, hc, hentry⟩⟩
  · rw [hcmd] at hdeclines
    cases hdeclines with
    | held hposting _ hpre hheld =>
        obtain ⟨key', hkey', hfound⟩ := hheld
        obtain rfl := Option.some.inj
          (hkey'.symm.trans (Posting.key_of_ofCommand hkey hparse hposting))
        have hfound' := Memory.entryByKey?_after hbase h.orderly hpre hfound
        rw [← h.memory] at hfound'
        have hindexed : s.memory.Indexed := h.memory ▸ hbase.after h.orderly
        obtain ⟨hmem, hekey⟩ := hindexed.entryByKey?_eq_some_iff.mp hfound'
        exact ⟨_, hmem, hekey, .inr ⟨rfl, hsilent⟩⟩

end Traffic

/-- Calls of any kind, on a store in which nothing has happened, come between each other in any way:
every key has at most one effect, and everyone who posts under it is answered alike. -/
theorem key_once_only (steps : List (Interleaving.Step Call)) (key : IdempotencyKey) :
    Traffic.OnceOnly ((Interleaving.on .empty).run steps) key := by
  have h := Traffic.upheld Memory.indexed_empty steps
  have hindexed := Traffic.indexed_run Memory.indexed_empty steps
  generalize hs : ((Interleaving.on .empty).run steps : Traffic) = s at h hindexed ⊢
  have hentry : ∀ e e', e ∈ s.memory.entries → e' ∈ s.memory.entries → e.key = some key →
      e'.key = some key → e = e' := by
    intro e e' he he' hkey hkey'
    exact Option.some.inj ((hindexed.entryByKey?_eq_some_iff.mpr ⟨he, hkey⟩).symm.trans
      (hindexed.entryByKey?_eq_some_iff.mpr ⟨he', hkey'⟩))
  constructor
  case entry =>
    intro n n' e e' hn hn' hkey hkey'
    obtain rfl := hentry e e' (List.mem_of_getElem? hn) (List.mem_of_getElem? hn') hkey hkey'
    have hpos := (hindexed.position_iff e.id n).mpr ⟨e, hn, rfl⟩
    exact Option.some.inj (hpos.symm.trans ((hindexed.position_iff e.id n').mpr ⟨e, hn', rfl⟩))
  case posted =>
    -- two calls that have posted would have drawn the identifier of the one entry
    rintro place place' r r' ⟨p, c, text, hp, hcmd, hkey, hparse⟩ ⟨p', c', text', hp', hcmd', hkey',
      hparse'⟩ ha ha' hr hr'
    rw [Interleaving.answer?_eq hp] at ha
    rw [Interleaving.answer?_eq hp'] at ha'
    obtain ⟨e, he, hek, ⟨hae, hid, -⟩ | ⟨hae, -⟩⟩ :=
      Traffic.exists_entry_of_answer Memory.indexed_empty h hp hcmd hkey hparse ha
    · obtain ⟨e', he', hek', ⟨hae', hid', -⟩ | ⟨hae', -⟩⟩ :=
        Traffic.exists_entry_of_answer Memory.indexed_empty h hp' hcmd' hkey' hparse' ha'
      · by_contra hne
        obtain rfl := hentry e e' he he' hek hek'
        exact h.apart place place' p p' hp hp' hne e.id hid hid'
      · rw [Answer.posting.inj hae'] at hr'
        exact absurd hr' (by simp [Posting.replayed])
    · rw [Answer.posting.inj hae] at hr
      exact absurd hr (by simp [Posting.replayed])
  case answered =>
    rintro place a ⟨p, c, text, hp, hcmd, hkey, hparse⟩ ha
    rw [Interleaving.answer?_eq hp] at ha
    obtain ⟨e, he, hek, ⟨rfl, -, hc⟩ | ⟨rfl, hsilent⟩⟩ :=
      Traffic.exists_entry_of_answer Memory.indexed_empty h hp hcmd hkey hparse ha
    · exact ⟨e, _, he, hek, rfl, rfl, rfl, .inl ⟨rfl, hc⟩⟩
    · exact ⟨e, _, he, hek, rfl, rfl, rfl, .inr ⟨rfl, hsilent⟩⟩
  case failures =>
    rintro place e ⟨p, c, text, hp, hcmd, hkey, hparse⟩ ha
    rw [Interleaving.answer?_eq hp] at ha
    rcases h.ensures hp ha with ⟨_, _, -, -, heq⟩ | ⟨-, hdeclines⟩
    · exact absurd heq (by simp)
    · rw [hcmd] at hdeclines
      cases hdeclines with
      | refused _ _ _ _ _ hrefusal =>
          refine ⟨fun detail => LedgerError.noConfusion, fun detail heq => ?_⟩
          exact Posting.refusal?_ne hrefusal detail (LedgerError.domain.inj heq)
      | invalid hposting =>
          refine ⟨fun detail => LedgerError.noConfusion, fun detail heq => ?_⟩
          exact Posting.ofCommand_error_ne hkey hparse hposting detail (LedgerError.domain.inj heq)
      | other hother => exact absurd rfl (hother c)
      | cancelled =>
          exact ⟨fun detail => LedgerError.noConfusion, fun detail => LedgerError.noConfusion⟩
      | exhausted =>
          exact ⟨fun detail => LedgerError.noConfusion, fun detail => LedgerError.noConfusion⟩

end BalanceLedger
