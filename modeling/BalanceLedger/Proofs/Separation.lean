/-
# `Proofs.Separation` — accounts do not interfere

All accounts share one log, one table of ids, one of keys, one of voids and one outbox.
What a call for one account is answered depends on none of the others all the same,
provided that no key is used for that account and for another one (`KeysApart`).  This
is said of two runs: one with everybody's calls, and one in which all calls for other
accounts are left out.

The two stores are never the same, but one is told from the other: the smaller one holds
the slots and the entries of the account, in the same order, and nothing else.  That is
`Shares`.  It is enough, because a call has to do with nothing but its account, its key
and the entry that it voids, by `Call.keeps_scope`.  A table leads to what a scan of the
log finds, so it does not matter at which place of the log an entry stands.

The result is `accounts_do_not_interfere`, and `Undisturbed` spells it out.  Three parts
lead to it:

  * `reply_eq`: what is asked within the scope of a command is answered alike by two
    stores that share the account;

  * `scoped_earlier`: every call has kept to what is its own, at every moment;

  * `mirrors_earlier`: the two runs mirror each other, by induction on the steps with
    the first two at each of them.

Which account a void is for is decided by the log in the end, where the entry that it
names is found if it has ever been there.  So `accountOf` looks at the store after the
whole run, and `accountOf_of_target` says that nothing else has been true before.
-/
import BalanceLedger.Operation.Query
import BalanceLedger.Proofs.Cancellation
import BalanceLedger.Proofs.Representation
import BalanceLedger.Proofs.Scope
import BalanceLedger.Proofs.Session
import BalanceLedger.Proofs.Thinning

namespace BalanceLedger

open Store (ChangeSet Memory)
open Time (Instant)

/-! ## Tables -/

namespace Index

variable {κ α : Type} [DecidableEq κ] (keep : κ → Bool)

theorem find?_filter (key : κ) (pairs : List (κ × α)) :
    find? key (pairs.filter fun p => keep p.1) =
      if keep key = true then find? key pairs else none := by
  induction pairs with
  | nil => cases keep key <;> rfl
  | cons p pairs ih =>
      obtain ⟨k, a⟩ := p
      by_cases hk : k = key
      · subst hk
        cases hkeep : keep k <;> simp [hkeep, find?, ih]
      · cases hkeep : keep k <;> simp [hkeep, find?, hk, ih]

theorem filter_replace (key : κ) (value : α) (pairs : List (κ × α)) :
    (replace key value pairs).filter (fun p => keep p.1) =
      if keep key = true then replace key value (pairs.filter fun p => keep p.1)
      else pairs.filter fun p => keep p.1 := by
  induction pairs with
  | nil => cases hkey : keep key <;> simp [replace, hkey]
  | cons p pairs ih =>
      obtain ⟨k, a⟩ := p
      by_cases hk : k = key
      · subst hk
        cases hkey : keep k <;> simp [replace, hkey]
      · cases hkey : keep key <;> cases hkeep : keep k <;> simp_all [replace]

theorem mem_of_mem_replace {key : κ} {value : α} {pairs : List (κ × α)} {p : κ × α}
    (h : p ∈ replace key value pairs) : p = (key, value) ∨ p ∈ pairs := by
  induction pairs with
  | nil => exact .inl (List.mem_singleton.mp h)
  | cons q pairs ih =>
      obtain ⟨k, a⟩ := q
      unfold replace at h
      split at h
      · exact (List.mem_cons.mp h).imp_right (List.mem_cons_of_mem _)
      · rcases List.mem_cons.mp h with rfl | h
        · exact .inr List.mem_cons_self
        · exact (ih h).imp_right (List.mem_cons_of_mem _)

end Index

/-! ## What the stores share -/

namespace Store.Memory

theorem slots_write (m : Memory) (c : ChangeSet) :
    (m.write c).slots = m.slots.insert c.slot.key c.slot := by
  cases h : c.entry with
  | none => simp [write, h]
  | some e => simp [write, append, h]

theorem filter_slots_write (account : Uuid) (m : Memory) (c : ChangeSet) :
    ((m.write c).slots.pairs.filter fun p => p.1.1 = account) =
      if c.slot.account = account then
        Index.replace c.slot.key c.slot (m.slots.pairs.filter fun p => p.1.1 = account)
      else m.slots.pairs.filter fun p => p.1.1 = account := by
  have hfilter := Index.filter_replace (fun key : Slot.Key => decide (key.1 = account))
    c.slot.key c.slot m.slots.pairs
  rw [slots_write]
  by_cases haccount : c.slot.account = account
  · rw [if_pos haccount]
    exact hfilter.trans (if_pos (decide_eq_true haccount))
  · rw [if_neg haccount]
    exact hfilter.trans (if_neg (ne_true_of_eq_false (decide_eq_false haccount)))

/-- The smaller store holds the slots and the entries of an account, and no others. -/
structure Shares (account : Uuid) (m m' : Memory) : Prop where
  slots : m'.slots.pairs = m.slots.pairs.filter fun p => p.1.1 = account
  entries : m'.entries = m.entries.filter fun e => e.account = account

namespace Shares

variable {account : Uuid} {m m' : Memory} {c : ChangeSet}

theorem get?_slots_eq_ite (h : Shares account m m') (key : Slot.Key) :
    m'.slots.get? key = if key.1 = account then m.slots.get? key else none := by
  unfold Index.get?
  rw [h.slots]
  refine (Index.find?_filter (fun key : Slot.Key => decide (key.1 = account)) key _).trans ?_
  simp only [decide_eq_true_iff]

theorem get?_slots (h : Shares account m m') (currency : Currency) :
    m'.slots.get? (account, currency) = m.slots.get? (account, currency) :=
  (h.get?_slots_eq_ite _).trans (if_pos rfl)

theorem mem_entries (h : Shares account m m') {e : Entry} :
    e ∈ m'.entries ↔ e ∈ m.entries ∧ e.account = account := by
  rw [h.entries, List.mem_filter, decide_eq_true_iff]

theorem write (h : Shares account m m') (hslot : c.slot.account = account)
    (hentry : ∀ e, c.entry = some e → e.account = account) :
    Shares account (m.write c) (m'.write c) := by
  constructor
  · rw [filter_slots_write, if_pos hslot, slots_write, ← h.slots]
    rfl
  · rw [entries_write, entries_write, List.filter_append, h.entries]
    cases he : c.entry with
    | none => rfl
    | some e => simp [hentry e he]

theorem write_other (h : Shares account m m') (hslot : c.slot.account ≠ account)
    (hentry : ∀ e, c.entry = some e → e.account ≠ account) :
    Shares account (m.write c) m' := by
  constructor
  · rw [filter_slots_write, if_neg hslot]
    exact h.slots
  · rw [entries_write, List.filter_append, h.entries]
    cases he : c.entry with
    | none => simp
    | some e => simp [hentry e he]

theorem found_eq (h : Shares account m m') {P : Entry → Prop} {found found' : Option Entry}
    (hfound : ∀ e, found = some e ↔ e ∈ m.entries ∧ P e)
    (hfound' : ∀ e, found' = some e ↔ e ∈ m'.entries ∧ P e)
    (hP : ∀ e, e ∈ m.entries → P e → e.account = account) : found' = found := by
  refine Option.ext fun e => ?_
  rw [hfound', hfound, h.mem_entries]
  constructor
  · rintro ⟨⟨he, -⟩, hPe⟩
    exact ⟨he, hPe⟩
  · rintro ⟨he, hPe⟩
    exact ⟨⟨he, hP e he hPe⟩, hPe⟩

end Shares

theorem Indexed.contains_eq {m : Memory} (h : m.Indexed) {κ : Type} [DecidableEq κ]
    {t : Index κ Uuid} {mark : Entry → Option κ} (ht : Leads t mark m.entries) (key : κ) :
    t.contains key = ((t.get? key).bind fun id => m.entry? id).isSome := by
  unfold Index.contains
  cases hid : t.get? key with
  | none => rfl
  | some id =>
      obtain ⟨e, he, -, rfl⟩ := (ht key id).mp hid
      rw [Option.bind_some, h.entry?_eq_some_iff.mpr ⟨he, rfl⟩]
      rfl

theorem fault?_congr {m m' : Memory} {c : ChangeSet}
    (hversion : m'.versionOf c.slot.key = m.versionOf c.slot.key)
    (hkeys : ∀ e key, c.entry = some e → e.key = some key →
      m'.keys.contains key = m.keys.contains key)
    (hvoids : ∀ e target, c.entry = some e → e.target = some target →
      m'.voids.contains target = m.voids.contains target) : m'.fault? c = m.fault? c := by
  unfold fault?
  rw [hversion]
  cases he : c.entry with
  | none => rfl
  | some e =>
      have hkey : e.key.filter m'.keys.contains = e.key.filter m.keys.contains := by
        cases hk : e.key with
        | none => rfl
        | some key => simp [Option.filter, hkeys e key he hk]
      have htarget : e.target.filter m'.voids.contains = e.target.filter m.voids.contains := by
        cases ht : e.target with
        | none => rfl
        | some target => simp [Option.filter, hvoids e target he ht]
      simp only [Option.bind_some, entryFault?, hkey, htarget]

end Store.Memory

/-! ## Answers -/

/-- All entries of a log that a command names, or that bear what it names, are on the account. -/
structure Command.Confined (command : Command) (account : Uuid) (log : List Entry) : Prop where
  entry : ∀ e, e ∈ log → command.target? = some e.id → e.account = account
  key : ∀ e key, e ∈ log → command.key? = some key → e.key = some key → e.account = account
  void : ∀ e t, e ∈ log → command.target? = some t → e.target = some t → e.account = account

namespace Store.Memory.Shares

variable {account : Uuid} {m m' : Memory} {own : Uuid → Prop} {command : Command}
  (h : Shares account m m') (hm : m.Indexed) (hm' : m'.Indexed)
  (hown : ∀ a, own a → a = account) (hconfined : command.Confined account m.entries)

include h hm hm' hown hconfined

theorem fault?_eq {c : ChangeSet} (hcovers : command.Covers own c) :
    m'.fault? c = m.fault? c := by
  refine fault?_congr ?_ (fun e key he hk => ?_) fun e target he ht => ?_
  · have hslot := h.get?_slots c.slot.currency
    rw [← hown _ hcovers.slot] at hslot
    exact congrArg (fun found => (Option.map Slot.version found).getD 0) hslot
  · rw [hm.contains_eq hm.keys, hm'.contains_eq hm'.keys]
    refine congrArg Option.isSome (h.found_eq (fun _ => hm.entryByKey?_eq_some_iff)
      (fun _ => hm'.entryByKey?_eq_some_iff) fun x hx hkey => ?_)
    exact hconfined.key x key hx (hcovers.key e key he hk) hkey
  · rw [hm.contains_eq hm.voids, hm'.contains_eq hm'.voids]
    refine congrArg Option.isSome (h.found_eq (fun _ => hm.voidOf?_eq_some_iff)
      (fun _ => hm'.voidOf?_eq_some_iff) fun x hx htarget => ?_)
    exact hconfined.void x target hx (hcovers.target e target he ht) htarget

/-- What a command has to do with is answered alike: what it `mayAsk` has one answer in both stores.
-/
theorem answer_eq {q : Store.Request} (hmay : command.mayAsk own q) (now : Instant) :
    (m'.answer now q).1 = (m.answer now q).1 := by
  cases q with
  | loadSlot a currency =>
      obtain rfl := hown a hmay
      exact congrArg Except.ok (h.get?_slots currency)
  | findEntry id =>
      refine congrArg Except.ok (h.found_eq (fun _ => hm.entry?_eq_some_iff)
        (fun _ => hm'.entry?_eq_some_iff) fun e he hid => ?_)
      exact hconfined.entry e he (hid ▸ hmay)
  | findByKey key =>
      exact congrArg Except.ok (h.found_eq (fun _ => hm.entryByKey?_eq_some_iff)
        (fun _ => hm'.entryByKey?_eq_some_iff) fun e he => hconfined.key e key he hmay)
  | findVoidOf target =>
      exact congrArg Except.ok (h.found_eq (fun _ => hm.voidOf?_eq_some_iff)
        (fun _ => hm'.voidOf?_eq_some_iff) fun e he => hconfined.void e target he hmay)
  | commit c =>
      have hfault := h.fault?_eq hm hm' hown hconfined hmay
      cases hf : m.fault? c with
      | none => rw [answer_commit_accepted hf, answer_commit_accepted (hfault.trans hf)]
      | some f => rw [answer_commit_refused hf, answer_commit_refused (hfault.trans hf)]
  | _ => exact hmay.elim

/-- Whoever keeps to the rules is answered alike, and what it commits is taken alike. -/
theorem reply_eq {request : World.Request} (hmay : command.may own request) (w : Moment)
    (stopping : Bool) :
    (w.reply stopping m' request).1 = (w.reply stopping m request).1 ∧
      m'.accepted? request = m.accepted? request := by
  cases request with
  | store q =>
      refine ⟨h.answer_eq hm hm' hown hconfined hmay w.now, ?_⟩
      cases q with
      | commit c =>
          unfold accepted?
          simp only [World.Request.changes?, Option.filter,
            h.fault?_eq hm hm' hown hconfined hmay]
      | _ => rfl
  | plan q =>
      refine ⟨?_, rfl⟩
      simp only [Moment.reply]
      split
      · rfl
      · exact congrArg some (h.answer_eq hm hm' hown hconfined hmay.2 w.now)
  | _ => exact ⟨rfl, rfl⟩

end Store.Memory.Shares

/-! ## Calls of an account -/

theorem Command.exists_account_of_key {command : Command} {key : IdempotencyKey}
    (h : command.key? = some key) (find : Uuid → Option Entry) :
    ∃ a, command.account? find = some a := by
  cases command with
  | post c => exact ⟨c.account, rfl⟩
  | void | adjust | earmark => exact absurd h (by simp [key?])

namespace Traffic

/-- The account that a call is for, where the log says for which account a void is. -/
def accountOf (s : Traffic) (call : Call) : Option Uuid :=
  call.command.account? fun id => s.memory.entry? id

def remains (s : Traffic) (account : Uuid) (place : Nat) : Bool :=
  s.parties[place]?.all fun p => (s.accountOf p.task).all fun a => a = account

/-- No key is used by a call for the account and by one for another account. -/
def KeysApart (s : Traffic) (account : Uuid) : Prop :=
  ∀ p ∈ s.parties, ∀ q ∈ s.parties, s.accountOf p.task = some account →
    ∀ key ∈ p.task.command.key?, q.task.command.key? = some key →
      s.accountOf q.task = some account

instance (s : Traffic) (account : Uuid) : Decidable (s.KeysApart account) :=
  inferInstanceAs (Decidable (∀ p ∈ s.parties, ∀ q ∈ s.parties, _ → ∀ key ∈ _, _ → _))

/-- The accounts that a call may have to do with: this one if it `remains`, any other one if not. -/
def Owns (s : Traffic) (account : Uuid) (place : Nat) (a : Uuid) : Prop :=
  a = account ↔ s.remains account place = true

abbrev of (steps : List (Interleaving.Step Call)) : Traffic :=
  (Interleaving.on .empty).run steps

variable {account : Uuid} {n : Nat} {p q : Party Call (Except LedgerError Answer)}
  {before steps : List (Interleaving.Step Call)}

theorem owns_of_accountOf {s : Traffic} (hp : s.parties[n]? = some p) {call : Call}
    (hcall : p.task = call) {a : Uuid} (ha : s.accountOf call = some a) : s.Owns account n a := by
  unfold Owns remains
  rw [hp, Option.all_some, hcall, ha, Option.all_some, decide_eq_true_iff]

/-! ## What was there before -/

theorem exists_party_earlier (hpre : before <+: steps)
    (hp : (Traffic.of before).parties[n]? = some p) :
    ∃ q, (Traffic.of steps).parties[n]? = some q ∧ q.task = p.task := by
  obtain ⟨more, rfl⟩ := hpre
  obtain ⟨q, hq, hgoes⟩ := Interleaving.exists_goesOn_run hp more
  exact ⟨q, by rwa [Traffic.of, Interleaving.run_append], hgoes.task⟩

theorem memory_of (steps : List (Interleaving.Step Call)) :
    (Traffic.of steps).memory = Memory.empty.after (Traffic.of steps).journal :=
  (upheld Memory.indexed_empty steps).memory

theorem entries_earlier (hpre : before <+: steps) :
    (Traffic.of before).memory.entries ⊆ (Traffic.of steps).memory.entries := by
  obtain ⟨more, rfl⟩ := hpre
  rw [memory_of, memory_of, Traffic.of, Traffic.of, Interleaving.run_append]
  exact (Memory.entries_after_mono (Interleaving.journal_run_mono _ more)).subset

theorem exists_commit_of_mem_entries {e : Entry} (he : e ∈ (Traffic.of steps).memory.entries) :
    ∃ place c, (place, c) ∈ (Traffic.of steps).journal ∧ c.entry = some e := by
  rw [memory_of, Memory.entries_after] at he
  rcases List.mem_append.mp he with hnone | he
  · exact absurd hnone List.not_mem_nil
  · obtain ⟨⟨place, c⟩, hc, he⟩ := List.mem_flatMap.mp he
    exact ⟨place, c, hc, Option.mem_toList.mp he⟩

/-- A call that names an entry which has been there is for the account of it. -/
theorem accountOf_of_target (hpre : before <+: steps) {e : Entry} {call : Call}
    (he : e ∈ (Traffic.of before).memory.entries) (ht : call.command.target? = some e.id) :
    (Traffic.of steps).accountOf call = some e.account := by
  have hfound := (indexed_run Memory.indexed_empty steps).entry?_eq_some_iff.mpr
    ⟨entries_earlier hpre he, rfl⟩
  unfold accountOf
  cases hcommand : call.command with
  | void c =>
      rw [hcommand] at ht
      have hid : c.target = e.id := Option.some.inj ht
      show (Memory.entry? (Traffic.of steps).memory c.target).map Entry.account = _
      rw [hid, hfound]
      rfl
  | post | adjust | earmark =>
      rw [hcommand] at ht
      exact absurd ht (by simp [Command.target?])

/-! ## Everybody keeps to what is theirs -/

/-- What is left of each call, and what each call has committed, is within the scope of the call. -/
structure Scoped (s t : Traffic) (account : Uuid) : Prop where
  working : ∀ (n : Nat) (p : Party Call (Except LedgerError Answer)), t.parties[n]? = some p →
    (p.task.command.scope (s.Owns account n)).Keeps p.rest (fun _ _ => True) ()
  journal : ∀ n c, (n, c) ∈ t.journal →
    ∃ p, s.parties[n]? = some p ∧ p.task.command.Covers (s.Owns account n) c

section

variable {s t : Traffic} {place : Nat} {call : Call}

theorem Scoped.start (h : Scoped s t account) (hq : s.parties[t.parties.length]? = some q)
    (hcall : q.task = call) : Scoped s (t.step (.start call)) account := by
  refine ⟨fun n p hp => ?_, h.journal⟩
  rcases Interleaving.getElem?_concat_cases hp with hp | ⟨rfl, rfl⟩
  · exact h.working n p hp
  · exact call.keeps_scope (fun id => s.memory.entry? id) fun a ha =>
      owns_of_accountOf hq hcall ha

theorem Scoped.stop (h : Scoped s t account) (place : Nat) :
    Scoped s (t.step (.stop place)) account := by
  refine ⟨fun n p hp => ?_, h.journal⟩
  obtain ⟨p', hp', htask, -, -, hrest⟩ := Interleaving.getElem?_stop hp
  rw [htask, hrest]
  exact h.working n p' hp'

theorem Scoped.answered (h : Scoped s t account) (ht : t.memory.Indexed)
    (hp : t.parties[place]? = some p) (hq : s.parties[place]? = some q) (hcall : q.task = p.task)
    (htarget : ∀ e, e ∈ t.memory.entries → p.task.command.target? = some e.id →
      s.accountOf p.task = some e.account) (w : Moment) {request : World.Request}
    {next : World.Reply request → Program World (Except LedgerError Answer)}
    (hrest : p.rest = .ask request next) :
    Scoped s (t.answered place p w request next) account := by
  have hkeeps := h.working place p hp
  rw [hrest] at hkeeps
  obtain ⟨hmay, hnext⟩ := hkeeps
  refine ⟨fun n r hr => ?_, fun n c hc => ?_⟩
  · rcases Interleaving.getElem?_answered hr with ⟨rfl, rfl⟩ | ⟨-, hr⟩
    · exact hnext _ (ht.hears_reply
        (fun e he hid => owns_of_accountOf hq hcall (htarget e he hid)) hmay w p.stopping)
    · exact h.working n r hr
  · rcases List.mem_append.mp hc with hc | hc
    · exact h.journal n c hc
    · obtain ⟨c', hmade, heq⟩ := List.mem_map.mp hc
      obtain ⟨rfl, rfl⟩ := Prod.mk.inj heq
      refine ⟨q, hq, ?_⟩
      rw [hcall]
      exact Command.covers_of_accepted hmay (Option.mem_toList.mp hmade)

end

theorem scoped_earlier (account : Uuid) (hpre : before <+: steps) :
    Scoped (.of steps) (.of before) account := by
  induction before using List.reverseRecOn with
  | nil => exact ⟨fun n p hp => absurd hp (by simp [Traffic.of, Interleaving.run, Interleaving.on]),
      fun n c hc => absurd hc (by simp [Traffic.of, Interleaving.run, Interleaving.on])⟩
  | append_singleton before x ih =>
      have hbefore := (List.prefix_append before [x]).trans hpre
      have hscoped := ih hbefore
      have hstep : Traffic.of (before ++ [x]) = (Traffic.of before).step x := by
        rw [Traffic.of, Interleaving.run_append]
        rfl
      cases x with
      | start call =>
          have hlast : ∃ p, (Traffic.of (before ++ [.start call])).parties[
              (Traffic.of before).parties.length]? = some p ∧ p.task = call := by
            rw [hstep]
            exact ⟨_, List.getElem?_concat_length, rfl⟩
          obtain ⟨p, hp, rfl⟩ := hlast
          obtain ⟨q, hq, hcall⟩ := exists_party_earlier hpre hp
          rw [hstep]
          exact hscoped.start hq hcall
      | stop place =>
          rw [hstep]
          exact hscoped.stop place
      | act place w =>
          rw [hstep]
          show Scoped _ (Interleaving.act _ place w) account
          rcases (Traffic.of before).act_cases place w with heq |
            ⟨p, request, next, hp, hrest, -, heq⟩
          · rw [heq]
            exact hscoped
          · obtain ⟨q, hq, hcall⟩ := exists_party_earlier hbefore hp
            rw [heq]
            exact hscoped.answered (indexed_run Memory.indexed_empty before) hp hq hcall
              (fun e he hid => accountOf_of_target hbefore he hid) w hrest

/-! ## Two runs -/

/-- Everything in the log that a call names which remains, and that bears what it names, is on the
account, if no key is used for two accounts. -/
theorem confined_earlier (hapart : (Traffic.of steps).KeysApart account)
    (hpre : before <+: steps) (hremains : (Traffic.of steps).remains account n = true)
    (hp : (Traffic.of before).parties[n]? = some p) :
    p.task.command.Confined account (Traffic.of before).memory.entries := by
  obtain ⟨q, hq, hcall⟩ := exists_party_earlier hpre hp
  have howns : ∀ {a}, (Traffic.of steps).accountOf p.task = some a → a = account := fun ha =>
    (owns_of_accountOf hq hcall ha).mpr hremains
  have hentry : ∀ e, e ∈ (Traffic.of before).memory.entries →
      p.task.command.target? = some e.id → e.account = account := fun e he hid =>
    howns (accountOf_of_target hpre he hid)
  refine ⟨hentry, fun e key he hkey hekey => ?_, fun v t hv ht hvt => ?_⟩
  · -- who has written the entry has used the key, so it was for the account as well
    obtain ⟨place, c, hc, hce⟩ := exists_commit_of_mem_entries he
    obtain ⟨r, hr, hcovers⟩ := (scoped_earlier account hpre).journal place c hc
    have hrkey := hcovers.key e key hce hekey
    obtain ⟨a, ha⟩ := Command.exists_account_of_key hkey fun id =>
      Memory.entry? (Traffic.of steps).memory id
    obtain rfl := howns ha
    rw [← hcall] at ha hkey
    have hrowns := hapart q (List.mem_of_getElem? hq) r (List.mem_of_getElem? hr) ha key hkey hrkey
    exact (hcovers.entry e hce).mpr ((owns_of_accountOf hr rfl hrowns).mp rfl)
  · -- the void of an entry is on the account of the entry
    obtain ⟨i, hi⟩ := List.mem_iff_getElem?.mp hv
    have hchronicle := chronicle_after (upheld Memory.indexed_empty before) (List.prefix_refl _)
    rw [← memory_of] at hchronicle
    obtain ⟨k, o, -, hk, rfl, hreverses⟩ := hchronicle.exists_reversed i v t hi hvt
    exact (congrArg Prod.fst hreverses.slotKey).trans
      (hentry o (List.mem_of_getElem? hk) ht)

/-- What the calls that remain have written is the part of the store that is on the account: the two
`Shares` it. -/
theorem shares_after {kept : Nat → Bool} {j : List (Nat × ChangeSet)}
    (hj : ∀ n c, (n, c) ∈ j → (c.slot.account = account ↔ kept n = true) ∧
      ∀ e, c.entry = some e → (e.account = account ↔ kept n = true)) :
    Memory.Shares account (Memory.empty.after j) (Memory.empty.after
      ((j.filter fun p => kept p.1).map fun p => (Interleaving.rank kept p.1, p.2))) := by
  induction j using List.reverseRecOn with
  | nil => exact ⟨rfl, rfl⟩
  | append_singleton j p ih =>
      obtain ⟨n, c⟩ := p
      have hshares := ih fun n c hc => hj n c (List.mem_append_left _ hc)
      obtain ⟨hslot, hentry⟩ := hj n c (List.mem_append_right _ (List.mem_singleton.mpr rfl))
      rw [Memory.after_concat, List.filter_append, List.map_append]
      cases hkept : kept n with
      | true =>
          rw [List.filter_cons_of_pos (by exact hkept), List.filter_nil, List.map_singleton,
            Memory.after_concat]
          exact hshares.write (hslot.mpr hkept) fun e he => (hentry e he).mpr hkept
      | false =>
          have hleft : ¬ kept n = true := by simp [hkept]
          rw [List.filter_cons_of_neg (by exact hleft), List.filter_nil, List.map_nil,
            List.append_nil]
          exact hshares.write_other (fun h => hleft (hslot.mp h)) fun e he h =>
            hleft ((hentry e he).mp h)

/-- The calls that remain, as they go on when all others are left out. -/
abbrev alone (steps : List (Interleaving.Step Call)) (account : Uuid)
    (before : List (Interleaving.Step Call)) : Traffic :=
  .of ((Interleaving.on .empty : Traffic).thin ((Traffic.of steps).remains account) before)

theorem shares_of_mirrors (hpre : before <+: steps)
    (h : Interleaving.Mirrors ((Traffic.of steps).remains account) (Traffic.of before)
      (alone steps account before)) :
    Memory.Shares account (Traffic.of before).memory (alone steps account before).memory := by
  rw [memory_of, memory_of, h.journal]
  refine shares_after fun n c hc => ?_
  obtain ⟨p, -, hcovers⟩ := (scoped_earlier account hpre).journal n c hc
  exact ⟨hcovers.slot, hcovers.entry⟩

/-- The run with everybody's calls `Mirrors` the run with the calls that remain. -/
theorem mirrors_earlier (hapart : (Traffic.of steps).KeysApart account)
    (hpre : before <+: steps) :
    Interleaving.Mirrors ((Traffic.of steps).remains account) (Traffic.of before)
      (alone steps account before) := by
  refine (Interleaving.mirrors_on .empty .empty).run before fun earlier place w hlast h => ?_
  have hearlier : earlier <+: steps := (List.prefix_append ..).trans (hlast.trans hpre)
  have hshares := shares_of_mirrors hearlier h
  constructor
  case ids =>
    show (Memory.entries _).map Entry.id ⊆ (Memory.entries _).map Entry.id
    exact List.map_subset _ fun e he => (hshares.mem_entries.mp he).1
  case reply =>
    intro p request next hremains hp hrest
    have hkeeps := (scoped_earlier account hearlier).working place p hp
    rw [hrest] at hkeeps
    exact hshares.reply_eq (indexed_run Memory.indexed_empty _) (indexed_run Memory.indexed_empty _)
      (fun a ha => ha.mpr hremains) (confined_earlier hapart hearlier hremains hp) hkeeps.1 w
      p.stopping

end Traffic

/-! ## Questions -/

namespace Store.Memory

def Keyed (m : Memory) : Prop :=
  ∀ p ∈ m.slots.pairs, p.2.key = p.1

theorem keyed_after (journal : List (Nat × ChangeSet)) : (empty.after journal).Keyed := by
  induction journal using List.reverseRecOn with
  | nil => exact fun p hp => absurd hp List.not_mem_nil
  | append_singleton journal p ih =>
      intro q hq
      rw [after_concat, slots_write] at hq
      rcases Index.mem_of_mem_replace hq with rfl | hq
      · rfl
      · exact ih q hq

namespace Shares

variable {account : Uuid} {m m' : Memory}

theorem slotsOf_eq (h : Shares account m m') (hm : m.Keyed) :
    m'.slotsOf account = m.slotsOf account := by
  have hvalues : m'.slots.values.filter (fun s => s.account = account) =
      m.slots.values.filter fun s => s.account = account := by
    unfold Index.values
    rw [List.filter_map, List.filter_map, h.slots, List.filter_filter]
    refine congrArg _ (List.filter_congr fun p hp => ?_)
    have hkey : p.1.1 = p.2.account := congrArg Prod.fst (hm p hp).symm
    simp [hkey]
  unfold slotsOf
  rw [hvalues]

theorem history_eq (h : Shares account m m') {query : HistoryQuery}
    (hquery : query.account = account) : m'.history query = m.history query := by
  have hselected : m'.selected query = m.selected query := by
    unfold selected
    rw [h.entries, List.filter_filter]
    refine congrArg (fun log : List Entry => log.reverse.mergeSort _)
      (List.filter_congr fun e _ => ?_)
    subst hquery
    unfold HistoryQuery.selects
    cases decide (e.account = query.account) <;> simp
  unfold history
  rw [hselected]

end Shares

end Store.Memory

/-- A question that is put to either of two stores has the same answer when it is played, whatever
the `Surroundings` are. -/
def Operation.AnsweredAlike {β : Type} (o : Operation β) (m m' : Memory) : Prop :=
  ∀ around, (o.run.play around { memory := m' }).1 = (o.run.play around { memory := m }).1

namespace Operation.AnsweredAlike

variable {β γ : Type} {m m' : Memory}

theorem throw (e : LedgerError) : (throw e : Operation β).AnsweredAlike m m' :=
  fun _ => rfl

theorem ask {q : Store.Request} (h : ∀ now, (m'.answer now q).1 = (m.answer now q).1) :
    (Operation.ask q).AnsweredAlike m m' := by
  have hask : (Operation.ask q).run = Program.ask (I := World) (.store q) fun r =>
      .done (r.mapError LedgerError.store) := by
    show Program.ask (I := World) (.store q) _ = _
    refine congrArg (Program.ask (I := World) (.store q)) (funext fun r => ?_)
    cases r <;> rfl
  intro around
  rw [hask]
  exact congrArg (Except.mapError LedgerError.store) (h (around []).now)

theorem money_bind {x : Except MoneyError β} {f : β → Operation γ}
    (h : ∀ b, (f b).AnsweredAlike m m') : (Operation.money x >>= f).AnsweredAlike m m' := by
  cases x with
  | ok b => exact h b
  | error e => exact throw _

theorem map {o : Operation β} (h : o.AnsweredAlike m m') (f : β → γ) :
    (o >>= fun b => return f b).AnsweredAlike m m' := by
  intro around
  have hplay : ∀ m, ((o >>= fun b => return f b).run.play around { memory := m }).1 =
      ((o.run.play around { memory := m }).1).map f := by
    intro m
    rw [ExceptT.run_bind]
    refine (congrArg Prod.fst (Program.play_bind o.run _ { memory := m })).trans ?_
    cases (o.run.play around { memory := m }).1 <;> rfl
  rw [hplay, hplay, h around]

end Operation.AnsweredAlike

/-! ## Accounts -/

namespace Traffic

/-- A run in which all calls for other accounts are left out shows of an account what the whole run
shows of it.  Places are those of `rank`. -/
structure Undisturbed (s t : Traffic) (account : Uuid) : Prop where
  /-- The calls that are left are those that are for no other account, in their order. -/
  calls : t.parties.length = Interleaving.rank (s.remains account) s.parties.length
  tasks : ∀ place p, s.remains account place = true → s.parties[place]? = some p →
    ∃ q, t.parties[Interleaving.rank (s.remains account) place]? = some q ∧ q.task = p.task
  /-- They are answered alike. -/
  answers : ∀ place, s.remains account place = true →
    t.answer? (Interleaving.rank (s.remains account) place) = s.answer? place
  /-- The slots of the account are the same, and there are no others. -/
  slots : ∀ key, t.memory.slots.get? key = if key.1 = account then s.memory.slots.get? key else none
  /-- The log is what the whole log has on the account. -/
  entries : t.memory.entries = s.memory.entries.filter fun e => e.account = account
  /-- Every question about the account has the same answer. -/
  balance : ∀ currency, (Query.slot account currency).AnsweredAlike s.memory t.memory
  balances : (Query.slots account).AnsweredAlike s.memory t.memory
  sufficient : ∀ currency amount,
    (Query.isCovered account currency amount).AnsweredAlike s.memory t.memory
  history : ∀ query, query.account = account →
    (Query.history query).AnsweredAlike s.memory t.memory
  /-- The outbox of the whole run has the rows of every call in the order of their commits, and the
  smaller outbox has those of the calls that are left. -/
  rows : s.memory.outbox = s.journal.flatMap fun p => p.2.outbox
  outbox : t.memory.outbox =
    (s.journal.filter fun p => s.remains account p.1).flatMap fun p => p.2.outbox

theorem undisturbed_of_mirrors {s t : Traffic} {account : Uuid}
    (hs : (Call.charter .empty).Upheld .empty s) (ht : (Call.charter .empty).Upheld .empty t)
    (hmirrors : Interleaving.Mirrors (s.remains account) s t)
    (hshares : Memory.Shares account s.memory t.memory) : Undisturbed s t account := by
  have hslot : ∀ currency, (Query.slot account currency).AnsweredAlike s.memory t.memory :=
    fun currency => .money_bind fun c => .ask fun _ => congrArg Except.ok (hshares.get?_slots c)
  have hkeyed : s.memory.Keyed := by
    rw [hs.memory]
    exact Memory.keyed_after _
  constructor
  case calls => exact hmirrors.length
  case tasks =>
    intro place p hremains hp
    obtain ⟨q, hq, halike⟩ := hmirrors.party place p hremains hp
    exact ⟨q, hq, halike.task⟩
  case answers => exact fun place => hmirrors.answer?
  case slots => exact hshares.get?_slots_eq_ite
  case entries => exact hshares.entries
  case balance => exact hslot
  case balances => exact .ask fun _ => congrArg Except.ok (hshares.slotsOf_eq hkeyed)
  case sufficient =>
    intro currency amount
    unfold Query.isCovered
    split
    · exact .throw _
    · exact (hslot currency).map _
  case history =>
    intro query hquery
    have hask : (Operation.ask (.history query)).AnsweredAlike s.memory t.memory :=
      .ask fun _ => congrArg Except.ok (hshares.history_eq hquery)
    unfold Query.history
    split
    · dsimp only
      split
      · exact .throw _
      · exact hask
    · exact hask
  case rows => exact outbox_eq hs
  case outbox =>
    rw [outbox_eq ht, hmirrors.journal, List.flatMap_map]

end Traffic

/-- Calls of any kind, on a store in which nothing has happened, come between each other in any way.
What becomes of an account is what becomes of it when all calls for other accounts are left out, if
no key is used for the account and for another one (`KeysApart`): in both runs the calls that are
left read the same clock, draw the same identifiers and hear of shutdown at the same time. A
sequence of calls is the case in which each call starts when the one before it has returned. -/
theorem accounts_do_not_interfere (steps : List (Interleaving.Step Call)) (account : Uuid) :
    let start : Traffic := .on .empty
    let s : Traffic := start.run steps
    s.KeysApart account →
      s.Undisturbed (start.run (start.thin (s.remains account) steps)) account := by
  intro start s hapart
  have hmirrors := Traffic.mirrors_earlier hapart (List.prefix_refl steps)
  exact Traffic.undisturbed_of_mirrors (Traffic.upheld Memory.indexed_empty steps)
    (Traffic.upheld Memory.indexed_empty _) hmirrors
    (Traffic.shares_of_mirrors (List.prefix_refl steps) hmirrors)

/-- A credit on one account, and one on another account that overtakes it; then the first one once
more under its key; then the void of it, which a debit on the other account overtakes. -/
def twoAccounts : List (Interleaving.Step Call) :=
  let call (command : Command) : Interleaving.Step Call := .start { command }
  let credit (account : Nat) (key : String) : Command :=
    .post { account := .ofNat account, currency := "MAD", amount := 100, side := .credit,
            description := "in", key := some key }
  let acts (place first count : Nat) : List (Interleaving.Step Call) :=
    (List.range count).map fun n => .act place { now := .epoch, id := .ofNat (first + n) }
  [call (credit 1 "once"), call (credit 2 "other")] ++ acts 0 0 5 ++ acts 1 100 16 ++
    acts 0 20 16 ++ [call (credit 1 "once"), call (.void { target := .ofNat 4, reason := "wrong" }),
      call (.post (.debit (.ofNat 2) "MAD" 30 "out"))] ++
    acts 2 200 8 ++ acts 3 300 8 ++ acts 4 400 16 ++ acts 3 320 16

theorem accounts_do_not_interfere_twoAccounts :
    let start : Traffic := .on .empty
    let s : Traffic := start.run twoAccounts
    let t : Traffic := start.run (start.thin (s.remains (.ofNat 1)) twoAccounts)
    s.KeysApart (.ofNat 1) ∧
      s.memory.entries.map Entry.account = [.ofNat 2, .ofNat 1, .ofNat 2, .ofNat 1] ∧
      t.memory.ids = [.ofNat 4, .ofNat 305] ∧ s.Undisturbed t (.ofNat 1) := by
  intro start s t
  have hapart : s.KeysApart (.ofNat 1) := by decide +kernel
  exact ⟨hapart, by decide +kernel, by decide +kernel,
    accounts_do_not_interfere twoAccounts (.ofNat 1) hapart⟩

end BalanceLedger
