/-
# `Proofs.Journal` — stores and the commits that lead to them

A store in memory is `Indexed`: its tables lead to exactly those entries that a scan of
the log finds, and a slot stands under its own key.  Writing a change set that the store
accepts keeps it so, provided that the entry has a new id.  The proviso is needed.  The
store checks a version, a key and a target, but not an id, and without it only the
tables of keys and of voided entries go along with the log, which is `Marked`.

A journal is a list of commits.  Nothing but a commit moves slots and the log, so the
store at any time is the first store `after` the commits so far, and the commits so far
can stand for the time.  In an `Orderly` journal every commit is `Admissible` where it
is made.  Three things follow, and what is said of interleavings rests on them:

  * the store stays indexed, by `Indexed.after`, and what is found in the log for an id
    or a key is found for ever;

  * each commit on a slot counts its version up by one, by `versionOf_after`;

  * a slot that is found at the version that was read is the slot that was read, by
    `get?_slots_of_versionOf_eq`, as long as the version has not gone all the way round.

The last one is what the check of the version is for.  It is not so without the bound on
the number of commits: versions are words, and a slot that is moved 2^64 times is back
at the version where it was.
-/
import Mathlib.Data.List.Infix
import BalanceLedger.Proofs.Interleaving

namespace BalanceLedger.Store.Memory

/-! ## What a write leaves -/

theorem entries_write (m : Memory) (c : ChangeSet) :
    (m.write c).entries = m.entries ++ c.entry.toList := by
  cases h : c.entry with
  | none => simp [write, h]
  | some e => simp [write, append, h]

theorem outbox_write (m : Memory) (c : ChangeSet) :
    (m.write c).outbox = m.outbox ++ c.outbox := by
  cases h : c.entry with
  | none => simp [write, h]
  | some e => simp [write, append, h]

theorem get?_slots_write (m : Memory) (c : ChangeSet) (key : Slot.Key) :
    (m.write c).slots.get? key = if c.slot.key = key then some c.slot else m.slots.get? key := by
  cases h : c.entry with
  | none => simp [write, h, Index.get?_insert]
  | some e => simp [write, append, h, Index.get?_insert]

theorem get?_positions_write (m : Memory) (c : ChangeSet) (id : Uuid) :
    (m.write c).positions.get? id =
      if c.entry.map Entry.id = some id then some m.entries.length else m.positions.get? id := by
  cases h : c.entry with
  | none => simp [write, h]
  | some e => simp [write, append, h, Index.get?_insert]

theorem keys_write (m : Memory) (c : ChangeSet) :
    (m.write c).keys =
      c.entry.elim m.keys fun e => e.key.elim m.keys fun key => m.keys.insert key e.id := by
  cases h : c.entry with
  | none => simp [write, h]
  | some e => simp [write, append, h]

theorem voids_write (m : Memory) (c : ChangeSet) :
    (m.write c).voids =
      c.entry.elim m.voids fun e =>
        e.target.elim m.voids fun target => m.voids.insert target e.id := by
  cases h : c.entry with
  | none => simp [write, h]
  | some e => simp [write, append, h]

theorem ids_write (m : Memory) (c : ChangeSet) :
    (m.write c).ids = m.ids ++ (c.entry.map Entry.id).toList := by
  cases h : c.entry <;> simp [ids, entries_write, h]

theorem versionOf_write (m : Memory) (c : ChangeSet) (key : Slot.Key) :
    (m.write c).versionOf key = if c.slot.key = key then c.slot.version else m.versionOf key := by
  unfold versionOf
  rw [get?_slots_write]
  split <;> rfl

/-! ## When a change set is refused -/

theorem contains_eq_true_iff {κ α : Type} [DecidableEq κ] {t : Index κ α} {key : κ} :
    t.contains key = true ↔ ∃ a, t.get? key = some a :=
  Option.isSome_iff_exists

/-- `fault?` finds nothing exactly if the slot is still at the version that was read, the key of the
entry is new and what the entry voids is not voided. -/
theorem fault?_eq_none_iff {m : Memory} {c : ChangeSet} :
    m.fault? c = none ↔
      m.versionOf c.slot.key = c.expected ∧
        ∀ e, c.entry = some e →
          (∀ key, e.key = some key → m.keys.get? key = none) ∧
            ∀ target, e.target = some target → m.voids.get? target = none := by
  unfold fault?
  by_cases hversion : m.versionOf c.slot.key = c.expected
  · simp only [hversion, if_true, true_and]
    cases c.entry with
    | none => simp
    | some e =>
        simp only [Option.bind_some, Option.some.injEq, forall_eq']
        cases hkey : e.key with
        | none =>
            cases htarget : e.target with
            | none => simp [entryFault?, hkey, htarget]
            | some t => cases ht : m.voids.get? t <;>
                simp [entryFault?, hkey, htarget, Option.filter, Index.contains, ht]
        | some k =>
            cases hk : m.keys.get? k <;> cases htarget : e.target with
            | none => simp [entryFault?, hkey, htarget, Option.filter, Index.contains, hk]
            | some t => cases ht : m.voids.get? t <;>
                simp [entryFault?, hkey, htarget, Option.filter, Index.contains, hk, ht]
  · simp [hversion]

/-- Why a change set is refused: another commit came first on its slot, or its key is used, or what
it voids is voided. -/
theorem fault?_eq_some {m : Memory} {c : ChangeSet} {f : StoreError} (h : m.fault? c = some f) :
    f = .versionConflict c.slot.account c.slot.currency.code c.expected ∨
      (∃ e key, c.entry = some e ∧ e.key = some key ∧ m.keys.contains key = true ∧
        f = .duplicateKey key.text) ∨
      ∃ e target, c.entry = some e ∧ e.target = some target ∧ m.voids.contains target = true ∧
        f = .duplicateVoid target := by
  unfold fault? at h
  split at h
  · obtain ⟨e, he, hf⟩ := Option.bind_eq_some_iff.mp h
    unfold entryFault? at hf
    split at hf
    · rename_i key hkey
      obtain ⟨hk, hused⟩ := Option.filter_eq_some_iff.mp hkey
      exact .inr (.inl ⟨e, key, he, hk, hused, (Option.some.inj hf).symm⟩)
    · rename_i target hnone htarget
      obtain ⟨ht, hvoided⟩ := Option.filter_eq_some_iff.mp htarget
      exact .inr (.inr ⟨e, target, he, ht, hvoided, (Option.some.inj hf).symm⟩)
    · exact absurd hf (by simp)
  · exact .inl (Option.some.inj h).symm

theorem versionOf_ne_of_conflict {m : Memory} {c : ChangeSet} {f : StoreError}
    (h : m.fault? c = some f) (hf : f.isVersionConflict = true) :
    m.versionOf c.slot.key ≠ c.expected := by
  intro heq
  rw [fault?, if_pos heq] at h
  obtain ⟨e, -, he⟩ := Option.bind_eq_some_iff.mp h
  unfold entryFault? at he
  split at he
  · obtain rfl := Option.some.inj he
    exact absurd hf (by simp [StoreError.isVersionConflict])
  · obtain rfl := Option.some.inj he
    exact absurd hf (by simp [StoreError.isVersionConflict])
  · exact absurd he (by simp)

theorem answer_commit_accepted {m : Memory} {c : ChangeSet} (h : m.fault? c = none)
    (now : Time.Instant) : m.answer now (.commit c) = (.ok (), m.write c) := by
  simp [answer, commit, h, settle, Except.map]

theorem answer_commit_refused {m : Memory} {c : ChangeSet} {f : StoreError}
    (h : m.fault? c = some f) (now : Time.Instant) :
    m.answer now (.commit c) = (.error f, m) := by
  simp [answer, commit, h, settle, Except.map]

/-! ## Indexed stores -/

/-- A table leads from each mark that an entry of the log bears to the id of that entry. -/
def Leads {κ : Type} [DecidableEq κ] (t : Index κ Uuid) (mark : Entry → Option κ)
    (log : List Entry) : Prop :=
  ∀ key id, t.get? key = some id ↔ ∃ e ∈ log, mark e = some key ∧ e.id = id

theorem Leads.append {κ : Type} [DecidableEq κ] {t : Index κ Uuid} {mark : Entry → Option κ}
    {log : List Entry} (h : Leads t mark log) {e : Entry}
    (hnew : ∀ key, mark e = some key → t.get? key = none) :
    Leads ((mark e).elim t fun key => t.insert key e.id) mark (log ++ [e]) := by
  intro key id
  simp only [List.mem_append, List.mem_singleton]
  by_cases hkey : mark e = some key
  · have hnone := hnew key hkey
    rw [hkey, Option.elim_some, Index.get?_insert, if_pos rfl]
    constructor
    · intro hid
      exact ⟨e, .inr rfl, hkey, Option.some.inj hid⟩
    · rintro ⟨e', hmem | rfl, hkey', hid⟩
      · have := (h key id).mpr ⟨e', hmem, hkey', hid⟩
        rw [hnone] at this
        exact absurd this (by simp)
      · rw [hid]
  · have hget : ((mark e).elim t fun k => t.insert k e.id).get? key = t.get? key := by
      cases hm : mark e with
      | none => rfl
      | some k =>
          rw [hm, Option.some.injEq] at hkey
          rw [Option.elim_some, Index.get?_insert, if_neg hkey]
    rw [hget, h key id]
    constructor
    · rintro ⟨e', hmem, hkey', hid⟩
      exact ⟨e', .inl hmem, hkey', hid⟩
    · rintro ⟨e', hmem | rfl, hkey', hid⟩
      · exact ⟨e', hmem, hkey', hid⟩
      · exact absurd hkey' hkey

/-- In a log that has one more entry, with a new id, an id names the last place or one that it named
before. -/
theorem exists_getElem?_concat_iff {log : List Entry} {e : Entry} (hfresh : e.id ∉ log.map Entry.id)
    {id : Uuid} {n : Nat} :
    (∃ e', (log ++ [e])[n]? = some e' ∧ e'.id = id) ↔
      if e.id = id then n = log.length else ∃ e', log[n]? = some e' ∧ e'.id = id := by
  constructor
  · rintro ⟨e', he', hid⟩
    rcases Nat.lt_or_ge n log.length with hn | hn
    · rw [List.getElem?_append_left hn] at he'
      have hmem : e'.id ∈ log.map Entry.id := List.mem_map_of_mem (List.mem_of_getElem? he')
      have hother : e.id ≠ id := fun h => hfresh ((h.trans hid.symm) ▸ hmem)
      rw [if_neg hother]
      exact ⟨e', he', hid⟩
    · rw [List.getElem?_append_right hn, List.getElem?_singleton] at he'
      split at he'
      · obtain rfl := Option.some.inj he'
        rw [if_pos hid]
        omega
      · exact absurd he' (by simp)
  · intro h
    split at h
    · rename_i hid
      exact ⟨e, by simp [h], hid⟩
    · obtain ⟨e', he', hid⟩ := h
      have hn := (List.getElem?_eq_some_iff.mp he').1
      exact ⟨e', by rw [List.getElem?_append_left hn, he'], hid⟩

/-- The tables lead to what a scan of the slots and of the log finds. -/
structure Indexed (m : Memory) : Prop where
  slot_key : ∀ key s, m.slots.get? key = some s → s.key = key
  position_iff : ∀ id n, m.positions.get? id = some n ↔ ∃ e, m.entries[n]? = some e ∧ e.id = id
  keys : Leads m.keys Entry.key m.entries
  voids : Leads m.voids Entry.target m.entries

theorem indexed_empty : Indexed empty where
  slot_key _ _ h := absurd h (by simp [empty, Index.get?, Index.find?])
  position_iff _ _ := by simp [empty, Index.get?, Index.find?]
  keys _ _ := by simp [empty, Index.get?, Index.find?]
  voids _ _ := by simp [empty, Index.get?, Index.find?]

theorem Indexed.entry?_eq_some_iff {m : Memory} (h : m.Indexed) {id : Uuid} {e : Entry} :
    m.entry? id = some e ↔ e ∈ m.entries ∧ e.id = id := by
  unfold entry?
  rw [Option.bind_eq_some_iff]
  constructor
  · rintro ⟨n, hn, he⟩
    obtain ⟨e', he', hid⟩ := (h.position_iff id n).mp hn
    obtain rfl : e' = e := Option.some.inj (he'.symm.trans he)
    exact ⟨List.mem_of_getElem? he, hid⟩
  · rintro ⟨hmem, hid⟩
    obtain ⟨n, hn⟩ := List.mem_iff_getElem?.mp hmem
    exact ⟨n, (h.position_iff id n).mpr ⟨e, hn, hid⟩, hn⟩

theorem Indexed.eq_of_id_eq {m : Memory} (h : m.Indexed) {e e' : Entry} (he : e ∈ m.entries)
    (he' : e' ∈ m.entries) (hid : e.id = e'.id) : e = e' :=
  Option.some.inj
    ((h.entry?_eq_some_iff.mpr ⟨he, hid⟩).symm.trans (h.entry?_eq_some_iff.mpr ⟨he', rfl⟩))

theorem Indexed.entryByKey?_eq_some_iff {m : Memory} (h : m.Indexed) {key : IdempotencyKey}
    {e : Entry} : m.entryByKey? key = some e ↔ e ∈ m.entries ∧ e.key = some key := by
  unfold entryByKey?
  rw [Option.bind_eq_some_iff]
  constructor
  · rintro ⟨id, hid, he⟩
    obtain ⟨hmem, rfl⟩ := h.entry?_eq_some_iff.mp he
    obtain ⟨e', hmem', hkey, hid'⟩ := (h.keys key e.id).mp hid
    obtain rfl := h.eq_of_id_eq hmem' hmem hid'
    exact ⟨hmem, hkey⟩
  · rintro ⟨hmem, hkey⟩
    exact ⟨e.id, (h.keys key e.id).mpr ⟨e, hmem, hkey, rfl⟩,
      h.entry?_eq_some_iff.mpr ⟨hmem, rfl⟩⟩

theorem Indexed.voidOf?_eq_some_iff {m : Memory} (h : m.Indexed) {target : Uuid} {e : Entry} :
    m.voidOf? target = some e ↔ e ∈ m.entries ∧ e.target = some target := by
  unfold voidOf?
  rw [Option.bind_eq_some_iff]
  constructor
  · rintro ⟨id, hid, he⟩
    obtain ⟨hmem, rfl⟩ := h.entry?_eq_some_iff.mp he
    obtain ⟨e', hmem', htarget, hid'⟩ := (h.voids target e.id).mp hid
    obtain rfl := h.eq_of_id_eq hmem' hmem hid'
    exact ⟨hmem, htarget⟩
  · rintro ⟨hmem, htarget⟩
    exact ⟨e.id, (h.voids target e.id).mpr ⟨e, hmem, htarget, rfl⟩,
      h.entry?_eq_some_iff.mpr ⟨hmem, rfl⟩⟩

theorem Indexed.entryByKey?_isSome {m : Memory} (h : m.Indexed) {key : IdempotencyKey}
    (hkey : m.keys.contains key = true) : ∃ e, m.entryByKey? key = some e := by
  obtain ⟨id, hid⟩ := contains_eq_true_iff.mp hkey
  obtain ⟨e, hmem, hk, -⟩ := (h.keys key id).mp hid
  exact ⟨e, h.entryByKey?_eq_some_iff.mpr ⟨hmem, hk⟩⟩

theorem Indexed.voidOf?_isSome {m : Memory} (h : m.Indexed) {target : Uuid}
    (htarget : m.voids.contains target = true) : ∃ e, m.voidOf? target = some e := by
  obtain ⟨id, hid⟩ := contains_eq_true_iff.mp htarget
  obtain ⟨e, hmem, ht, -⟩ := (h.voids target id).mp hid
  exact ⟨e, h.voidOf?_eq_some_iff.mpr ⟨hmem, ht⟩⟩

theorem entryByKey?_eq_none {m : Memory} {key : IdempotencyKey} (h : m.keys.get? key = none) :
    m.entryByKey? key = none := by
  simp [entryByKey?, h]

theorem voidOf?_eq_none {m : Memory} {target : Uuid} (h : m.voids.get? target = none) :
    m.voidOf? target = none := by
  simp [voidOf?, h]

/-! ## Admissible commits -/

/-- What a change set has to be so that it can be committed in good order. -/
structure Admissible (m : Memory) (c : ChangeSet) : Prop where
  accepted : m.fault? c = none
  /-- The change is counted. -/
  counted : c.slot.version = c.expected + 1
  fresh : ∀ e, c.entry = some e → e.id ∉ m.ids
  announced : c.outbox ≠ []

/-- The tables of keys and of what is voided lead to what a scan of the log finds, whatever ids the
entries have.  It is what is left of `Indexed` if ids are not to be trusted. -/
structure Marked (m : Memory) : Prop where
  keys : Leads m.keys Entry.key m.entries
  voids : Leads m.voids Entry.target m.entries

theorem Indexed.marked {m : Memory} (h : m.Indexed) : m.Marked :=
  ⟨h.keys, h.voids⟩

theorem Marked.write_of_accepted {m : Memory} (h : m.Marked) {c : ChangeSet}
    (haccepted : m.fault? c = none) : (m.write c).Marked := by
  obtain ⟨-, hentry⟩ := fault?_eq_none_iff.mp haccepted
  constructor
  · rw [keys_write, entries_write]
    cases he : c.entry with
    | none => simpa using h.keys
    | some e => exact h.keys.append (hentry e he).1
  · rw [voids_write, entries_write]
    cases he : c.entry with
    | none => simpa using h.voids
    | some e => exact h.voids.append (hentry e he).2

/-- Whatever else is written, the tables go along with the log if the entry has a new id. -/
theorem Indexed.write_of_accepted {m : Memory} (h : m.Indexed) {c : ChangeSet}
    (haccepted : m.fault? c = none) (hfresh : ∀ e, c.entry = some e → e.id ∉ m.ids) :
    (m.write c).Indexed := by
  obtain ⟨hkeys, hvoids⟩ := h.marked.write_of_accepted haccepted
  refine ⟨?_, ?_, hkeys, hvoids⟩
  · intro key s hs
    rw [get?_slots_write] at hs
    split at hs
    · rename_i hkey
      exact Option.some.inj hs ▸ hkey
    · exact h.slot_key key s hs
  · intro id n
    rw [get?_positions_write, entries_write]
    cases he : c.entry with
    | none => simpa [he] using h.position_iff id n
    | some e =>
        rw [Option.toList_some, exists_getElem?_concat_iff (hfresh e he)]
        simp only [Option.map_some, Option.some.injEq]
        by_cases hid : e.id = id
        · rw [if_pos hid, if_pos hid, Option.some.injEq, eq_comm]
        · rw [if_neg hid, if_neg hid, h.position_iff id n]

theorem Indexed.write {m : Memory} (h : m.Indexed) {c : ChangeSet} (hc : m.Admissible c) :
    (m.write c).Indexed :=
  h.write_of_accepted hc.accepted hc.fresh

/-! ## Journals -/

/-- The store after the commits of a journal. -/
def after (m : Memory) (journal : List (Nat × ChangeSet)) : Memory :=
  journal.foldl (fun m p => m.write p.2) m

def commitsOn (key : Slot.Key) (journal : List (Nat × ChangeSet)) : Nat :=
  journal.countP fun p => p.2.slot.key = key

/-- Every commit of the journal is `Admissible` where it is made. -/
def Orderly (m : Memory) (journal : List (Nat × ChangeSet)) : Prop :=
  ∀ earlier p, earlier ++ [p] <+: journal → (m.after earlier).Admissible p.2

variable {m : Memory} {journal more : List (Nat × ChangeSet)} {p : Nat × ChangeSet}

@[simp] theorem after_nil : m.after [] = m := rfl

theorem after_concat : m.after (journal ++ [p]) = (m.after journal).write p.2 := by
  simp [after]

@[simp] theorem commitsOn_nil (key : Slot.Key) : commitsOn key [] = 0 := rfl

theorem commitsOn_append (key : Slot.Key) :
    commitsOn key (journal ++ more) = commitsOn key journal + commitsOn key more :=
  List.countP_append

theorem orderly_nil : m.Orderly [] := by
  intro earlier p h
  exact absurd (List.prefix_nil.mp h) (by simp)

theorem Orderly.earlier (h : m.Orderly more) (hp : journal <+: more) : m.Orderly journal :=
  fun earlier p he => h earlier p (he.trans hp)

theorem orderly_concat_iff :
    m.Orderly (journal ++ [p]) ↔ m.Orderly journal ∧ (m.after journal).Admissible p.2 := by
  constructor
  · intro h
    exact ⟨h.earlier (List.prefix_append ..), h journal p (List.prefix_refl _)⟩
  · rintro ⟨h, hp⟩ earlier q hq
    rcases List.prefix_concat_iff.mp hq with heq | hpre
    · obtain ⟨rfl, hqp⟩ := List.append_inj' heq rfl
      exact List.cons.inj hqp |>.1 ▸ hp
    · exact h earlier q hpre

theorem Indexed.after (h : m.Indexed) (ho : m.Orderly journal) : (m.after journal).Indexed := by
  induction journal using List.reverseRecOn with
  | nil => exact h
  | append_singleton journal p ih =>
      obtain ⟨hj, hp⟩ := orderly_concat_iff.mp ho
      rw [after_concat]
      exact (ih hj).write hp

/-! ## The log only grows -/

theorem entries_after (m : Memory) (journal : List (Nat × ChangeSet)) :
    (m.after journal).entries = m.entries ++ journal.flatMap fun p => p.2.entry.toList := by
  induction journal using List.reverseRecOn with
  | nil => simp
  | append_singleton journal p ih =>
      rw [after_concat, entries_write, ih, List.flatMap_append, List.append_assoc]
      simp

theorem entries_after_mono (hp : journal <+: more) :
    (m.after journal).entries <+: (m.after more).entries := by
  obtain ⟨rest, rfl⟩ := hp
  rw [entries_after, entries_after, List.flatMap_append, ← List.append_assoc]
  exact List.prefix_append ..

theorem length_entries_after (m : Memory) (journal : List (Nat × ChangeSet)) :
    (m.after journal).entries.length ≤ m.entries.length + journal.length := by
  induction journal using List.reverseRecOn with
  | nil => exact Nat.le_refl _
  | append_singleton journal p ih =>
      have hone : p.2.entry.toList.length ≤ 1 := by cases p.2.entry <;> simp
      rw [after_concat, entries_write, List.length_append, List.length_append,
        List.length_singleton]
      omega

/-- What is found for an id is found for ever. -/
theorem entry?_after (h : m.Indexed) (ho : m.Orderly more) (hp : journal <+: more) {id : Uuid}
    {e : Entry} (he : entry? (m.after journal) id = some e) :
    entry? (m.after more) id = some e := by
  obtain ⟨hmem, hid⟩ := (h.after (ho.earlier hp)).entry?_eq_some_iff.mp he
  exact (h.after ho).entry?_eq_some_iff.mpr ⟨(entries_after_mono hp).subset hmem, hid⟩

theorem entryByKey?_after (h : m.Indexed) (ho : m.Orderly more) (hp : journal <+: more)
    {key : IdempotencyKey} {e : Entry} (he : (m.after journal).entryByKey? key = some e) :
    (m.after more).entryByKey? key = some e := by
  obtain ⟨hmem, hkey⟩ := (h.after (ho.earlier hp)).entryByKey?_eq_some_iff.mp he
  exact (h.after ho).entryByKey?_eq_some_iff.mpr ⟨(entries_after_mono hp).subset hmem, hkey⟩

theorem outbox_after (m : Memory) (journal : List (Nat × ChangeSet)) :
    (m.after journal).outbox = m.outbox ++ journal.flatMap fun p => p.2.outbox := by
  induction journal using List.reverseRecOn with
  | nil => simp
  | append_singleton journal p ih =>
      rw [after_concat, outbox_write, ih, List.flatMap_append, List.append_assoc]
      simp

/-- Every commit announces something. -/
theorem length_outbox_after (ho : m.Orderly journal) :
    m.outbox.length + journal.length ≤ (m.after journal).outbox.length := by
  induction journal using List.reverseRecOn with
  | nil => exact Nat.le_refl _
  | append_singleton journal p ih =>
      obtain ⟨hj, hp⟩ := orderly_concat_iff.mp ho
      have hlen : 0 < p.2.outbox.length := List.length_pos_iff.mpr hp.announced
      have := ih hj
      rw [after_concat, outbox_write, List.length_append, List.length_append]
      simp only [List.length_singleton]
      omega

theorem exists_slot_after (hp : p ∈ journal) :
    ∃ slot, (m.after journal).slots.get? p.2.slot.key = some slot := by
  induction journal using List.reverseRecOn with
  | nil => exact absurd hp List.not_mem_nil
  | append_singleton journal q ih =>
      rw [after_concat, get?_slots_write]
      by_cases hkey : q.2.slot.key = p.2.slot.key
      · exact ⟨q.2.slot, if_pos hkey⟩
      · rw [if_neg hkey]
        rcases List.mem_append.mp hp with hp | hp
        · exact ih hp
        · exact absurd (List.mem_singleton.mp hp ▸ rfl) hkey

/-! ## Versions count commits -/

theorem versionOf_empty (key : Slot.Key) : empty.versionOf key = 0 := rfl

/-- A version has been counted up once for each commit on its slot, modulo `versions`. -/
theorem versionOf_after (key : Slot.Key) (ho : m.Orderly (journal ++ more)) :
    (m.after (journal ++ more)).versionOf key =
      (m.after journal).versionOf key + Int64.ofNat (commitsOn key more) := by
  induction more using List.reverseRecOn with
  | nil => simp
  | append_singleton more p ih =>
      rw [← List.append_assoc] at ho ⊢
      obtain ⟨hj, hp⟩ := orderly_concat_iff.mp ho
      rw [after_concat, versionOf_write, commitsOn_append]
      by_cases hkey : p.2.slot.key = key
      · have hread := (fault?_eq_none_iff.mp hp.accepted).1
        rw [if_pos hkey, hp.counted, ← hread, hkey, ih hj]
        simp [commitsOn, hkey, Int64.add_assoc]
      · rw [if_neg hkey, ih hj]
        simp [commitsOn, hkey]

/-- Commits on other slots leave a slot alone. -/
theorem get?_slots_after {key : Slot.Key} (hnone : commitsOn key more = 0) :
    (m.after (journal ++ more)).slots.get? key = (m.after journal).slots.get? key := by
  induction more using List.reverseRecOn with
  | nil => simp
  | append_singleton more p ih =>
      rw [commitsOn_append] at hnone
      have hkey : ¬ p.2.slot.key = key := by
        intro hkey
        simp [commitsOn, hkey] at hnone
      rw [← List.append_assoc, after_concat, get?_slots_write, if_neg hkey, ih (by omega)]

/-- How many commits a version can count before it comes round. -/
def versions : Nat := Word.maxNat64 + 1

/-- A slot that is found at the version at which it was read is the slot that was read, if there are
fewer than `versions` commits on it. -/
theorem get?_slots_of_versionOf_eq {key : Slot.Key} (ho : m.Orderly more) (hp : journal <+: more)
    (hfew : commitsOn key more < versions)
    (hversion : (m.after more).versionOf key = (m.after journal).versionOf key) :
    (m.after more).slots.get? key = (m.after journal).slots.get? key := by
  obtain ⟨rest, rfl⟩ := hp
  rw [versionOf_after key ho, Int64.add_eq_left] at hversion
  rw [commitsOn_append] at hfew
  refine get?_slots_after ?_
  have hround : (commitsOn key rest : Int).bmod (2 ^ 64) = 0 := by
    have := congrArg Int64.toInt hversion
    simpa using this
  unfold versions Word.maxNat64 at hfew
  rw [Int.bmod_def] at hround
  split at hround <;> omega

end BalanceLedger.Store.Memory
