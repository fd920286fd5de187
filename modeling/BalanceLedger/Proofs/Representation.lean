/-
# `Proofs.Representation` — tables, log and commits of a store in memory

A store in memory keeps its log as a list, and three tables beside it: from ids to
places, from keys to ids and from voided entries to ids.  A look-up by key goes through
two of them.  What they are for is said without them, by `Scanned`: a look-up finds what
a scan of the whole log finds, and a scan never finds two entries.

What commits do is said without them as well, by `Atomic`.  A change set, whoever has
made it, is accepted exactly if its slot is at the version that it expects, and no entry
of the log has its key or voids what it voids (`Admits`).  It is written then as a
whole, on its own slot and at the end of the log and of the outbox; or else nothing at
all is changed.

The invariant is that the store is indexed, and `indexed_run` carries it along any
visits to the store.  Claims, verdicts and purges come between commits, and they touch
the outbox only, by `exists_outbox_answer`; so `commits_atomic` is about stores that are
used in every way, and its change sets are arbitrary.

The one thing that the store takes on trust is that an entry has an id of its own.
`EntersNew` says so of the visits, and it is the only hypothesis.
-/
import BalanceLedger.Proofs.Deliveries

namespace BalanceLedger

open Store (ChangeSet Memory Request)
open Time (Instant)

def Outbox.Message.label (x : Outbox.Message) : Uuid × Instant :=
  (x.id, x.occurredAt)

namespace Store

def Request.entry? : Request → Option Entry
  | .commit c => c.entry
  | _ => none

namespace Memory

variable {m : Memory}

/-! ## Look-ups -/

/-- Look-ups find what a scan of the log finds, which is never more than one entry. -/
structure Scanned (m : Memory) : Prop where
  byId : ∀ now id, ∃ found, m.answer now (.findEntry id) = (.ok found, m) ∧
    (m.entries.filter fun e => e.id = id) = found.toList
  byKey : ∀ now key, ∃ found, m.answer now (.findByKey key) = (.ok found, m) ∧
    (m.entries.filter fun e => e.key = some key) = found.toList
  byTarget : ∀ now target, ∃ found, m.answer now (.findVoidOf target) = (.ok found, m) ∧
    (m.entries.filter fun e => e.target = some target) = found.toList

/-- No two entries have the same id, or the table of places would lead an id to two places. -/
theorem Indexed.nodup_ids (h : m.Indexed) : (m.entries.map Entry.id).Nodup := by
  rw [List.nodup_iff_injective_get]
  intro i k hik
  obtain ⟨i, hi⟩ := i
  obtain ⟨k, hk⟩ := k
  rw [List.length_map] at hi hk
  simp only [List.get_eq_getElem, List.getElem_map] at hik
  have hplace := (h.position_iff _ i).mpr ⟨m.entries[i], List.getElem?_eq_getElem hi, rfl⟩
  have hplace' := (h.position_iff _ k).mpr ⟨m.entries[k], List.getElem?_eq_getElem hk, rfl⟩
  rw [hik, hplace'] at hplace
  exact Fin.ext (Option.some.inj hplace).symm

theorem Indexed.filter_eq_toList (h : m.Indexed) {p : Entry → Bool} {found : Option Entry}
    (hfound : ∀ e, found = some e ↔ e ∈ m.entries ∧ p e = true) :
    m.entries.filter p = found.toList := by
  have hnodup : (m.entries.filter p).Nodup := (List.Nodup.of_map _ h.nodup_ids).filter p
  cases found with
  | none =>
      refine List.filter_eq_nil_iff.mpr fun e he hp => ?_
      exact absurd ((hfound e).mpr ⟨he, hp⟩) (by simp)
  | some e =>
      refine List.perm_singleton.mp ((List.perm_ext_iff_of_nodup hnodup
        (List.nodup_singleton e)).mpr fun x => ?_)
      rw [List.mem_filter, ← hfound x, Option.some.injEq, List.mem_singleton, eq_comm]

theorem Indexed.scanned (h : m.Indexed) : m.Scanned where
  byId _ id := ⟨m.entry? id, rfl, h.filter_eq_toList fun e => by
    rw [h.entry?_eq_some_iff, decide_eq_true_iff]⟩
  byKey _ key := ⟨m.entryByKey? key, rfl, h.filter_eq_toList fun e => by
    rw [h.entryByKey?_eq_some_iff, decide_eq_true_iff]⟩
  byTarget _ target := ⟨m.voidOf? target, rfl, h.filter_eq_toList fun e => by
    rw [h.voidOf?_eq_some_iff, decide_eq_true_iff]⟩

/-! ## Commits -/

/-- The change set goes with the slots and with the log: its slot is at the version that it expects,
0 if the slot is not there, its key is not used, and what it voids is not voided. -/
structure Admits (m : Memory) (c : ChangeSet) : Prop where
  version : m.versionOf c.slot.key = c.expected
  key : ∀ e key, c.entry = some e → e.key = some key → ∀ x ∈ m.entries, x.key ≠ some key
  target : ∀ e target, c.entry = some e → e.target = some target →
    ∀ x ∈ m.entries, x.target ≠ some target

/-- What becomes of a change set: it is accepted exactly if the store `Admits` it, it is written as
a whole then, and nothing is changed otherwise. -/
structure Atomic (m : Memory) (now : Instant) (c : ChangeSet) : Prop where
  accepted_iff : (m.answer now (.commit c)).1 = .ok () ↔ m.Admits c
  refused : ¬ m.Admits c → (m.answer now (.commit c)).2 = m
  slots : m.Admits c → ∀ key, (m.answer now (.commit c)).2.slots.get? key =
    if c.slot.key = key then some c.slot else m.slots.get? key
  entries : m.Admits c → (m.answer now (.commit c)).2.entries = m.entries ++ c.entry.toList
  outbox : m.Admits c → (m.answer now (.commit c)).2.outbox = m.outbox ++ c.outbox

theorem Leads.get?_eq_none_iff {κ : Type} [DecidableEq κ] {t : Index κ Uuid}
    {mark : Entry → Option κ} {log : List Entry} (h : Leads t mark log) {key : κ} :
    t.get? key = none ↔ ∀ x ∈ log, mark x ≠ some key := by
  constructor
  · intro hnone x hx hmark
    have hid := (h key x.id).mpr ⟨x, hx, hmark, rfl⟩
    rw [hnone] at hid
    exact absurd hid (by simp)
  · intro hno
    cases hid : t.get? key with
    | none => rfl
    | some id =>
        obtain ⟨x, hx, hmark, -⟩ := (h key id).mp hid
        exact absurd hmark (hno x hx)

theorem Marked.fault?_eq_none_iff_admits (h : m.Marked) {c : ChangeSet} :
    m.fault? c = none ↔ m.Admits c := by
  rw [fault?_eq_none_iff]
  constructor
  · rintro ⟨hversion, hentry⟩
    refine ⟨hversion, fun e key he hkey => ?_, fun e target he htarget => ?_⟩
    · exact h.keys.get?_eq_none_iff.mp ((hentry e he).1 key hkey)
    · exact h.voids.get?_eq_none_iff.mp ((hentry e he).2 target htarget)
  · rintro ⟨hversion, hkey, htarget⟩
    refine ⟨hversion, fun e he => ⟨fun key hk => ?_, fun target ht => ?_⟩⟩
    · exact h.keys.get?_eq_none_iff.mpr (hkey e key he hk)
    · exact h.voids.get?_eq_none_iff.mpr (htarget e target he ht)

theorem Marked.atomic (h : m.Marked) (now : Instant) (c : ChangeSet) : m.Atomic now c := by
  have hwritten : m.Admits c → m.answer now (.commit c) = (.ok (), m.write c) :=
    fun hc => answer_commit_accepted (h.fault?_eq_none_iff_admits.mpr hc) now
  have hrefused : ¬ m.Admits c → ∃ f, m.answer now (.commit c) = (.error f, m) := by
    intro hc
    cases hfault : m.fault? c with
    | none => exact absurd (h.fault?_eq_none_iff_admits.mp hfault) hc
    | some f => exact ⟨f, answer_commit_refused hfault now⟩
  refine ⟨⟨fun hok => ?_, fun hc => ?_⟩, fun hc => ?_, fun hc key => ?_, fun hc => ?_, fun hc => ?_⟩
  · by_contra hc
    obtain ⟨f, hf⟩ := hrefused hc
    rw [hf] at hok
    exact absurd hok (by simp)
  · rw [hwritten hc]
  · obtain ⟨f, hf⟩ := hrefused hc
    rw [hf]
  · rw [hwritten hc, get?_slots_write]
  · rw [hwritten hc, entries_write]
  · rw [hwritten hc, outbox_write]

/-! ## Other requests -/

theorem exists_outbox_settle {α : Type} (id : Uuid) (claim : Instant)
    (change : Outbox.Message → Outbox.Message) (hchange : ∀ x, (change x).label = x.label)
    {f : Outbox.Message × Memory → α × Memory} (hf : ∀ p, (f p).2 = p.2) :
    ∃ outbox, (m.settle ((m.finish id claim change).map f)).2 = { m with outbox } ∧
      outbox.map Outbox.Message.label = m.outbox.map Outbox.Message.label := by
  unfold finish
  cases hheld : changeHeld id claim change m.outbox with
  | error e => exact ⟨m.outbox, rfl, rfl⟩
  | ok r => exact ⟨r.2, hf _, map_changeHeld hchange hheld⟩

/-- Nothing but a `.commit` touches more than the outbox, and of the messages that stay there nobody
touches the label. -/
theorem exists_outbox_answer {q : Request} (hq : ∀ c, q ≠ .commit c) (now : Instant) :
    ∃ outbox, (m.answer now q).2 = { m with outbox } ∧
      (outbox.map Outbox.Message.label).Sublist (m.outbox.map Outbox.Message.label) := by
  have hsettled : ∀ {m' : Memory},
      (∃ outbox, m' = { m with outbox } ∧
        outbox.map Outbox.Message.label = m.outbox.map Outbox.Message.label) →
      ∃ outbox, m' = { m with outbox } ∧
        (outbox.map Outbox.Message.label).Sublist (m.outbox.map Outbox.Message.label) :=
    fun ⟨outbox, hm, hlabel⟩ => ⟨outbox, hm, hlabel ▸ List.Sublist.refl _⟩
  cases q with
  | commit c => exact absurd rfl (hq c)
  | complete id claim =>
      exact hsettled (exists_outbox_settle id claim (delivered now) (fun _ => rfl) fun _ => rfl)
  | recordFailure id claim error maxRetries =>
      exact hsettled
        (exists_outbox_settle id claim (undelivered error maxRetries) (fun _ => rfl) fun _ => rfl)
  | markFailed id claim error =>
      exact hsettled (exists_outbox_settle id claim (parked error) (fun _ => rfl) fun _ => rfl)
  | claim batch staleBefore =>
      exact hsettled ⟨_, rfl, map_claim (fun _ _ => rfl) m batch staleBefore now⟩
  | purge => exact ⟨_, rfl, List.filter_sublist.map _⟩
  | _ => exact ⟨m.outbox, rfl, List.Sublist.refl _⟩

end Memory

end Store

/-! ## Any number of commits -/

namespace Service

/-- The entries that visits bring have ids that are not in the log when they come. -/
def EntersNew (s : Service) : List Visit → Prop
  | [] => True
  | v :: rest => (∀ e ∈ v.request.entry?, e.id ∉ s.memory.ids) ∧ (s.serve v).EntersNew rest

instance decidableEntersNew (s : Service) : (visits : List Visit) → Decidable (s.EntersNew visits)
  | [] => .isTrue trivial
  | v :: rest =>
    let _ := decidableEntersNew (s.serve v) rest
    inferInstanceAs (Decidable (_ ∧ _))

theorem indexed_serve {s : Service} (h : s.memory.Indexed) {v : Visit}
    (hv : ∀ e ∈ v.request.entry?, e.id ∉ s.memory.ids) : (s.serve v).memory.Indexed := by
  show (s.memory.answer v.now v.request).2.Indexed
  by_cases hcommit : ∃ c, v.request = .commit c
  · obtain ⟨c, hc⟩ := hcommit
    rw [hc] at hv ⊢
    cases hfault : s.memory.fault? c with
    | some f => rwa [Memory.answer_commit_refused hfault]
    | none =>
        rw [Memory.answer_commit_accepted hfault]
        exact h.write_of_accepted hfault hv
  · obtain ⟨outbox, houtbox, -⟩ :=
      s.memory.exists_outbox_answer (fun c hc => hcommit ⟨c, hc⟩) v.now
    rw [houtbox]
    exact ⟨h.slot_key, h.position_iff, h.keys, h.voids⟩

theorem indexed_run {s : Service} (h : s.memory.Indexed) {visits earlier : List Visit}
    (hnew : s.EntersNew visits) (hearlier : earlier <+: visits) :
    (s.run earlier).memory.Indexed := by
  induction visits generalizing s earlier with
  | nil =>
      rw [List.prefix_nil.mp hearlier]
      exact h
  | cons v rest ih =>
      cases earlier with
      | nil => exact h
      | cons w earlier =>
          obtain ⟨rfl, hrest⟩ := List.cons_prefix_cons.mp hearlier
          exact ih (indexed_serve h hnew.1) hnew.2 hrest

end Service

/-- Change sets of any kind are committed one after the other, whatever else is asked in between.
Then at every moment look-ups find what a scan of the log finds (`Scanned`), and whatever is
committed next is written as a whole or not at all (`Atomic`). -/
theorem commits_atomic (visits : List Visit)
    (hnew : Service.EntersNew { memory := .empty } visits) :
    ∀ earlier, earlier <+: visits →
      let m := (Service.run { memory := .empty } earlier).memory
      m.Scanned ∧ ∀ now c, m.Atomic now c := by
  intro earlier hearlier
  have h := Service.indexed_run (s := { memory := .empty }) Memory.indexed_empty hnew hearlier
  exact ⟨h.scanned, h.marked.atomic⟩

theorem isCurrencyCode_mad : isCurrencyCode "MAD" = true := by
  decide

def dirham : Currency := ⟨"MAD", isCurrencyCode_mad⟩

/-- A credit under a key; a rival that has read the slot before it, and another use of its key; then
the credit is voided, and nobody can void it again. -/
def creditTwiceVoidTwice : List Visit :=
  let credit (id : Nat) (key : Option IdempotencyKey) (target : Option Uuid) : Entry :=
    { id := .ofNat id, account := .nil, currency := dirham, side := .credit,
      amount := 5, description := "", reference := none, transaction := none, target,
      date := .epoch, runningBalance := 5, key }
  let commit (account : Nat) (expected : Int64) (entry : Entry) : Visit :=
    { now := .epoch
      request := .commit
        { slot :=
            { account := .ofNat account, currency := dirham, balance := 5,
              reserved := 0, version := expected + 1, updatedAt := .epoch }
          expected, entry := some entry, outbox := [] } }
  let key : IdempotencyKey := ⟨"once", by decide, by decide, by decide⟩
  [commit 0 0 (credit 1 (some key) none), commit 0 0 (credit 2 none none),
    commit 7 0 (credit 3 (some key) none), commit 0 1 (credit 4 none (some (.ofNat 1))),
    commit 7 0 (credit 5 none (some (.ofNat 1)))]

theorem commits_atomic_creditTwiceVoidTwice :
    Service.EntersNew { memory := .empty } creditTwiceVoidTwice ∧
      (Service.run { memory := .empty } creditTwiceVoidTwice).memory.ids = [.ofNat 1, .ofNat 4] ∧
      ∀ earlier, earlier <+: creditTwiceVoidTwice →
        let m := (Service.run { memory := .empty } earlier).memory
        m.Scanned ∧ ∀ now c, m.Atomic now c :=
  have hnew : Service.EntersNew { memory := .empty } creditTwiceVoidTwice := by decide +kernel
  ⟨hnew, by decide +kernel, commits_atomic creditTwiceVoidTwice hnew⟩

end BalanceLedger
