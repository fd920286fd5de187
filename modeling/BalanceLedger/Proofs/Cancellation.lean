/-
# `Proofs.Cancellation` — voids cancel, and once

An entry of the log is a posting or the void of one.  However calls come between each
other, the log is written entry by entry, and each commit that adds a void finds in the
log the regular entry that it voids, which no other entry voids.  The log is a
`Chronicle` then: every void `Reverses` one earlier entry, no entry is reversed twice,
and so the voids and what they reverse cancel out in the balance.  What stands are the
entries that are neither, and `total_standing` says that the balance is their sum.

`chronicle_after` is the invariant, by induction on the journal: the entry that an
effect adds is of one of the two kinds, by `Command.Settles.entry_cases`.  From there on
it is an induction on the log alone, and no more is said of calls.

A void can be planned on every entry of such a log, as far as the store goes: the slot
of the entry is there and its amount is an amount, which is `Plannable`.  So two of the
refusals that a plan provides for are never answered.  That is the second half of
`voids_cancel_once`, and it takes the section on refusals that differ, since the answer
is an error of the same type whatever has led to it.
-/
import BalanceLedger.Proofs.Conservation
import BalanceLedger.Proofs.Instants

namespace BalanceLedger

open Store (ChangeSet Memory)
open Time (Instant)

/-! ## Refusals that differ -/

theorem DomainError.voidOfVoid_ne_noSlot (id account : Uuid) (currency : String) :
    voidOfVoid id ≠ noSlot currency account := by
  intro h
  have htext := congrArg String.toList (DomainError.invalidState.inj h)
  simp at htext

theorem DomainError.balanceOverflow_ne_ofMoney (m : MoneyError) : balanceOverflow ≠ ofMoney m := by
  intro h
  cases m with
  | notPositive n =>
      have htext : "balance overflow" = "Amount must be positive (got " ++ Word.render n ++ ")" :=
        DomainError.invalidAmount.inj h
      have hchars := congrArg String.toList htext
      rw [String.toList_append, String.toList_append] at hchars
      simp at hchars
  | overMaximum =>
      have htext : "balance overflow" =
          "Amount exceeds maximum allowed value (" ++ Word.render maxAmount ++ ")" :=
        DomainError.invalidAmount.inj h
      have hchars := congrArg String.toList htext
      rw [String.toList_append, String.toList_append] at hchars
      simp at hchars
  | badCurrency code => exact absurd h DomainError.noConfusion

theorem DomainError.ne_ofMoney {e : DomainError} (hamount : ∀ detail, e ≠ .invalidAmount detail)
    (hcurrency : ∀ code, e ≠ .invalidCurrency code) (m : MoneyError) : e ≠ ofMoney m := by
  cases m with
  | notPositive n => exact hamount _
  | overMaximum => exact hamount _
  | badCurrency code => exact hcurrency code

theorem Amount.ofInt64_val (a : Amount) : ofInt64 a.val = .ok a := by
  unfold ofInt64
  rw [dif_pos a.pos, dif_pos a.le_max]

/-! ## Chronicles -/

namespace Entry

/-- An entry reverses a regular one: it names it, and it moves the same slot by the same amount to
the other side, in the same transaction. -/
structure Reverses (v o : Entry) : Prop where
  target : v.target = some o.id
  regular : o.target = none
  slotKey : v.slotKey = o.slotKey
  side : v.side = o.side.opposite
  amount : v.amount = o.amount
  transaction : v.transaction = o.transaction

def isVoided (log : List Entry) (e : Entry) : Bool :=
  log.any fun v => v.target = some e.id

def standing (log : List Entry) : List Entry :=
  log.filter fun e => !e.isVoid && !isVoided log e

/-- A log as it is written entry by entry: every entry is new, and it voids nothing, or it
`Reverses` an entry of the log that is not voided. -/
inductive Chronicle : List Entry → Prop
  | nil : Chronicle []
  | posting {log : List Entry} {e : Entry} {amount : Amount} : Chronicle log →
      e.id ∉ log.map Entry.id → e.amount = amount.val → e.target = none → Chronicle (log ++ [e])
  | void {log : List Entry} {v o : Entry} : Chronicle log → v.id ∉ log.map Entry.id →
      o ∈ log → v.Reverses o → isVoided log o = false → Chronicle (log ++ [v])

variable {log : List Entry} {e o v : Entry} {key : Slot.Key}

theorem isVoided_eq_false_iff : isVoided log o = false ↔ ∀ v ∈ log, v.target ≠ some o.id := by
  simp [isVoided]

theorem isVoid_eq_false_iff : e.isVoid = false ↔ e.target = none := by
  simp [isVoid]

namespace Chronicle

theorem nodup_ids (h : Chronicle log) : (log.map Entry.id).Nodup := by
  induction h with
  | nil => exact List.nodup_nil
  | posting _ hnew _ _ ih =>
      rw [List.map_append, List.map_singleton, ← List.concat_eq_append]
      exact ih.concat hnew
  | void _ hnew _ _ _ ih =>
      rw [List.map_append, List.map_singleton, ← List.concat_eq_append]
      exact ih.concat hnew

theorem exists_amount (h : Chronicle log) :
    ∀ e : Entry, e ∈ log → ∃ amount : Amount, e.amount = amount.val := by
  induction h with
  | nil => exact fun e he => absurd he List.not_mem_nil
  | posting _ _ hamount _ ih =>
      intro e he
      rcases List.mem_append.mp he with he | he
      · exact ih e he
      · rw [List.mem_singleton.mp he]
        exact ⟨_, hamount⟩
  | void _ _ ho hreverses _ ih =>
      intro e he
      rcases List.mem_append.mp he with he | he
      · exact ih e he
      · obtain ⟨amount, hamount⟩ := ih _ ho
        rw [List.mem_singleton.mp he]
        exact ⟨amount, hreverses.amount.trans hamount⟩

theorem exists_reversed_append {more : List Entry} {n : Nat} {t : Uuid}
    (h : ∃ (k : Nat) (o : Entry), k < n ∧ log[k]? = some o ∧ o.id = t ∧ v.Reverses o) :
    ∃ (k : Nat) (o : Entry), k < n ∧ (log ++ more)[k]? = some o ∧ o.id = t ∧ v.Reverses o := by
  obtain ⟨k, o, hkn, hk, hid, hreverses⟩ := h
  have hlt := (List.getElem?_eq_some_iff.mp hk).1
  exact ⟨k, o, hkn, by rw [List.getElem?_append_left hlt, hk], hid, hreverses⟩

/-- Every void reverses an earlier entry. -/
theorem exists_reversed (h : Chronicle log) :
    ∀ (n : Nat) (v : Entry) (t : Uuid), log[n]? = some v → v.target = some t →
      ∃ (k : Nat) (o : Entry), k < n ∧ log[k]? = some o ∧ o.id = t ∧ v.Reverses o := by
  induction h with
  | nil => exact fun n v t hn => absurd hn (by simp)
  | posting _ _ _ hregular ih =>
      intro n v t hn ht
      rcases Interleaving.getElem?_concat_cases hn with hn | ⟨-, rfl⟩
      · exact exists_reversed_append (ih n v t hn ht)
      · exact absurd (ht.symm.trans hregular) (by simp)
  | void _ _ ho hreverses _ ih =>
      intro n v t hn ht
      rcases Interleaving.getElem?_concat_cases hn with hn | ⟨rfl, rfl⟩
      · exact exists_reversed_append (ih n v t hn ht)
      · obtain ⟨k, hk⟩ := List.mem_iff_getElem?.mp ho
        have hlt := (List.getElem?_eq_some_iff.mp hk).1
        have hid := Option.some.inj (hreverses.target.symm.trans ht)
        exact exists_reversed_append ⟨k, _, hlt, hk, hid, hreverses⟩

theorem mem_ids_of_target (h : Chronicle log) {t : Uuid} (hv : v ∈ log) (ht : v.target = some t) :
    t ∈ log.map Entry.id := by
  obtain ⟨n, hn⟩ := List.mem_iff_getElem?.mp hv
  obtain ⟨k, o, -, hk, rfl, -⟩ := h.exists_reversed n v t hn ht
  exact List.mem_map_of_mem (List.mem_of_getElem? hk)

/-! ## What stands -/

/-- A new posting stands, and leaves what stands. -/
theorem standing_posting (h : Chronicle log) (hnew : e.id ∉ log.map Entry.id)
    (hregular : e.target = none) : standing (log ++ [e]) = standing log ++ [e] := by
  have hvoided : ∀ o, isVoided (log ++ [e]) o = isVoided log o := by
    intro o
    simp [isVoided, hregular]
  have hstands : isVoided log e = false :=
    isVoided_eq_false_iff.mpr fun v hv ht => hnew (h.mem_ids_of_target hv ht)
  simp only [standing, List.filter_append, hvoided]
  simp [isVoid_eq_false_iff.mpr hregular, hstands]

theorem standing_void (hreverses : v.Reverses o) :
    standing (log ++ [v]) = (standing log).filter fun e => e.id ≠ o.id := by
  have hvoided : ∀ e, isVoided (log ++ [v]) e = (isVoided log e || decide (e.id = o.id)) := by
    intro e
    simp [isVoided, hreverses.target, eq_comm]
  have hvoid : v.isVoid = true := by
    rw [isVoid, hreverses.target]
    rfl
  simp only [standing, List.filter_append, List.filter_filter, hvoided]
  rw [List.filter_singleton, hvoid, Bool.not_true, Bool.false_and, cond_false, List.append_nil]
  refine List.filter_congr fun e _ => ?_
  by_cases hid : e.id = o.id
  · simp [hid]
  · simp [hid]

theorem total_eq_add (hnodup : (log.map Entry.id).Nodup) (ho : o ∈ log) (key : Slot.Key) :
    total key log = total key (log.filter fun e => e.id ≠ o.id) + total key [o] := by
  obtain ⟨earlier, later, rfl⟩ := List.append_of_mem ho
  rw [List.map_append, List.map_cons] at hnodup
  obtain ⟨-, hlater, hapart⟩ := List.nodup_append.mp hnodup
  have hearlier : earlier.filter (fun e => decide (e.id ≠ o.id)) = earlier := by
    refine List.filter_eq_self.mpr fun e he => decide_eq_true fun hid => ?_
    exact hapart _ (List.mem_map_of_mem he) _ List.mem_cons_self hid
  have hlater' : later.filter (fun e => decide (e.id ≠ o.id)) = later := by
    refine List.filter_eq_self.mpr fun e he => decide_eq_true fun hid => ?_
    exact (List.nodup_cons.mp hlater).1 (hid ▸ List.mem_map_of_mem he)
  rw [List.filter_append, List.filter_cons_of_neg (by simp), hearlier, hlater']
  rw [List.append_cons, Traffic.total_append, Traffic.total_append, Traffic.total_append]
  omega

theorem total_void (hreverses : v.Reverses o) {amount : Amount} (hamount : o.amount = amount.val)
    (key : Slot.Key) : total key [v] = -total key [o] := by
  have hpos : 0 < o.amount.toInt := hamount ▸ amount.toInt_pos
  have hsigned : v.signedAmount.toInt = -o.signedAmount.toInt := by
    rw [toInt_signedAmount hpos, toInt_signedAmount (hreverses.amount ▸ hpos), hreverses.side,
      hreverses.amount]
    cases o.side with
    | credit => rfl
    | debit => exact (Int.neg_neg _).symm
  by_cases hkey : o.slotKey = key
  · simp [total, hreverses.slotKey, hkey, hsigned]
  · simp [total, hreverses.slotKey, hkey]

/-- The voids and what they void cancel out: the `total` of a chronicle is that of what is
`standing`. -/
theorem total_standing (h : Chronicle log) (key : Slot.Key) :
    total key log = total key (standing log) := by
  induction h with
  | nil => rfl
  | posting hlog hnew _ hregular ih =>
      rw [hlog.standing_posting hnew hregular, Traffic.total_append, Traffic.total_append, ih]
  | @void log v o hlog _ ho hreverses hstands ih =>
      obtain ⟨amount, hamount⟩ := hlog.exists_amount o ho
      -- what is reversed has stood until now
      have hmem : o ∈ standing log := by
        refine List.mem_filter.mpr ⟨ho, ?_⟩
        rw [isVoid_eq_false_iff.mpr hreverses.regular, hstands]
        rfl
      have hnodup : ((standing log).map Entry.id).Nodup :=
        hlog.nodup_ids.sublist (List.filter_sublist.map _)
      have hsum := total_eq_add hnodup hmem key
      rw [standing_void hreverses, Traffic.total_append, ih, total_void hreverses hamount]
      omega

end Chronicle

end Entry

/-- The entry of an effect is about an `Amount`, and it voids nothing, or it reverses an entry of
the log. -/
theorem Command.Settles.entry_cases {m : Memory} {command : Command} {key : Slot.Key}
    {stored : Option Slot} {ids : List Uuid} {x : Effect} {e : Entry} (hm : m.Indexed)
    (h : command.Settles m key stored ids x) (he : x.entry = some e) :
    (e.target = none ∧ ∃ amount : Amount, e.amount = amount.val) ∨
      ∃ o ∈ m.entries, e.Reverses o := by
  cases h with
  | post _ heffect =>
      obtain ⟨_, _, e', -, hpost, rfl⟩ := Posting.effect_ok heffect
      obtain rfl := Option.some.inj he
      rw [Entry.post_ok hpost]
      exact .inl ⟨rfl, _, rfl⟩
  | adjust _ heffect =>
      obtain ⟨_, _, e', -, hpost, rfl⟩ := Posting.effect_ok heffect
      obtain rfl := Option.some.inj he
      rw [Entry.post_ok hpost]
      exact .inl ⟨rfl, _, rfl⟩
  | void _ hfound hregular heffect =>
      obtain ⟨_, _, _, e', _, -, -, hvoid, rfl⟩ := VoidCommand.effect_ok heffect
      obtain rfl := Option.some.inj he
      refine .inr ⟨_, (hm.entry?_eq_some_iff.mp hfound).1, ?_⟩
      rw [(Entry.void_ok hvoid).1]
      exact ⟨rfl, Entry.isVoid_eq_false_iff.mp hregular, rfl, rfl, rfl, rfl⟩
  | earmark _ _ heffect =>
      obtain ⟨_, _, -, rfl⟩ := Earmark.effect_ok heffect
      exact absurd he (by simp)

namespace Traffic

variable {s : Traffic} {j : List (Nat × ChangeSet)}

theorem chronicle_after (h : (Call.charter .empty).Upheld .empty s) (hj : j <+: s.journal) :
    Entry.Chronicle (Memory.empty.after j).entries := by
  induction j using List.reverseRecOn with
  | nil => exact .nil
  | append_singleton j p ih =>
      obtain ⟨place, c⟩ := p
      have hlog := ih ((List.prefix_append j [(place, c)]).trans hj)
      obtain ⟨horderly, hadmissible⟩ := Memory.orderly_concat_iff.mp (h.orderly.earlier hj)
      obtain ⟨_, _, key, stored, ids, ids', x, -, -, -, hcommits⟩ := exists_commits h hj
      have hindexed := Memory.indexed_empty.after horderly
      rw [Memory.after_concat, Memory.entries_write]
      cases he : c.entry with
      | none => simpa using hlog
      | some e =>
          have hnew := hadmissible.fresh e he
          have hx := hcommits.written.entry.symm.trans he
          rcases hcommits.settles.entry_cases hindexed hx with ⟨hregular, _, hamount⟩ |
            ⟨o, ho, hreverses⟩
          · exact hlog.posting hnew hamount hregular
          · -- the store has accepted the void, so nothing voids what it reverses
            obtain ⟨-, hmarks⟩ := Memory.fault?_eq_none_iff.mp hadmissible.accepted
            have hopen := Memory.voidOf?_eq_none ((hmarks e he).2 o.id hreverses.target)
            refine hlog.void hnew ho hreverses (Entry.isVoided_eq_false_iff.mpr fun v hv ht => ?_)
            exact absurd (hopen.symm.trans (hindexed.voidOf?_eq_some_iff.mpr ⟨hv, ht⟩)) (by simp)

theorem exists_slot_after (h : (Call.charter .empty).Upheld .empty s) (hj : j <+: s.journal) :
    ∀ e ∈ (Memory.empty.after j).entries,
      ∃ slot, (Memory.empty.after j).slots.get? e.slotKey = some slot := by
  intro e he
  rw [Memory.entries_after] at he
  obtain ⟨⟨place, c⟩, hc, he⟩ := List.mem_flatMap.mp he
  obtain ⟨j', hj'⟩ := exists_prefix_of_mem hc
  obtain ⟨_, _, key, stored, ids, ids', x, -, -, -, hcommits⟩ := exists_commits h (hj'.trans hj)
  have hx := hcommits.written.entry.symm.trans (Option.mem_toList.mp he)
  have hslot : c.slot.key = e.slotKey := by
    rw [hcommits.written.slot, hcommits.keeps.slotKey, (hcommits.keeps.entry e hx).1]
  exact hslot ▸ Memory.exists_slot_after hc

/-- A void can be planned on an entry: its slot is there, and its amount is one. -/
def Plannable (m : Memory) (e : Entry) : Prop :=
  (∃ slot, m.slots.get? e.slotKey = some slot) ∧ ∃ amount, Amount.ofInt64 e.amount = .ok amount

theorem plannable_after (h : (Call.charter .empty).Upheld .empty s) (hj : j <+: s.journal)
    {e : Entry} (he : e ∈ (Memory.empty.after j).entries) :
    Plannable (Memory.empty.after j) e := by
  refine ⟨exists_slot_after h hj e he, ?_⟩
  obtain ⟨amount, hamount⟩ := (chronicle_after h hj).exists_amount e he
  exact ⟨amount, hamount ▸ amount.ofInt64_val⟩

/-- A refusal that a void can be answered with: neither is the slot missing, nor is the amount none.
-/
structure Answerable (e : DomainError) : Prop where
  slot : ∀ currency account, e ≠ .noSlot currency account
  money : ∀ m, e ≠ .ofMoney m

theorem answerable_of_ne {e : DomainError} (hstate : ∀ detail, e ≠ .invalidState detail)
    (hamount : ∀ detail, e ≠ .invalidAmount detail) (hcurrency : ∀ code, e ≠ .invalidCurrency code) :
    Answerable e :=
  ⟨fun _ _ => hstate _, DomainError.ne_ofMoney hamount hcurrency⟩

theorem answerable_of_refusal? {c : VoidCommand} {m : Memory} {target : Entry} {e : DomainError}
    (hplannable : Plannable m target) (hregular : target.isVoid = false)
    (h : c.refusal? target (m.slots.get? target.slotKey) = some e) : Answerable e := by
  obtain ⟨⟨slot, hslot⟩, amount, hamount⟩ := hplannable
  rw [hslot] at h
  rcases VoidCommand.refusal?_cases hregular hamount h with hmove | ⟨_, -, rfl⟩
  · rcases Slot.move_error_cases hmove with rfl | rfl
    · exact answerable_of_ne (by simp) (by simp) (by simp)
    · exact ⟨fun _ _ => DomainError.noConfusion, DomainError.balanceOverflow_ne_ofMoney⟩
  · exact answerable_of_ne (by simp [DomainError.tooLong]) (by simp [DomainError.tooLong])
      (by simp [DomainError.tooLong])

theorem answerable_of_barred {c : VoidCommand} {m : Memory} {e : DomainError}
    (h : c.Barred m e) : Answerable e := by
  cases h with
  | missing => exact answerable_of_ne (by simp) (by simp) (by simp)
  | void =>
      refine ⟨fun currency account => DomainError.voidOfVoid_ne_noSlot _ account currency, ?_⟩
      exact DomainError.ne_ofMoney (by simp [DomainError.voidOfVoid])
        (by simp [DomainError.voidOfVoid])
  | voided => exact answerable_of_ne (by simp) (by simp) (by simp)

/-- Whatever a void is refused with is `Answerable`. -/
theorem answerable_of_answer (h : (Call.charter .empty).Upheld .empty s) {place : Nat}
    {p : Party Call (Except LedgerError Answer)} {c : VoidCommand} {e : DomainError}
    (hp : s.parties[place]? = some p) (hcall : p.task.command = .void c)
    (ha : p.answer? = some (.error (.domain e))) : Answerable e := by
  rcases h.ensures hp ha with ⟨_, _, -, -, heq⟩ | ⟨-, hdeclines⟩
  · exact absurd heq (by simp)
  · rw [hcall] at hdeclines
    cases hdeclines with
    | barred _ _ _ hbarred => exact answerable_of_barred hbarred
    | @blocked _ target j j' _ _ _ hjj hpre hopen hrefusal =>
        -- the entry that was found then is still there when the slot is read
        have hindexed := Memory.indexed_empty.after (h.orderly.earlier (hjj.trans hpre))
        have hmem := (hindexed.entry?_eq_some_iff.mp hopen.1).1
        have hmem' := (Memory.entries_after_mono hjj).subset hmem
        exact answerable_of_refusal? (plannable_after h hpre hmem') hopen.2.1 hrefusal
    | unreasoned =>
        exact answerable_of_ne (by simp [DomainError.required]) (by simp [DomainError.required])
          (by simp [DomainError.required])
    | other _ hvoid => exact absurd rfl (hvoid c)

/-- Voids cancel what they void, and once. -/
structure Cancels (s : Traffic) : Prop where
  /-- Every void reverses an entry that comes before it in the log. -/
  reverses : ∀ (n : Nat) (v : Entry) (t : Uuid), s.memory.entries[n]? = some v →
    v.target = some t → ∃ (k : Nat) (o : Entry), k < n ∧ s.memory.entries[k]? = some o ∧
      o.id = t ∧ v.Reverses o
  /-- No entry is voided twice. -/
  once : ∀ (n n' : Nat) (v v' : Entry) (t : Uuid), s.memory.entries[n]? = some v →
    s.memory.entries[n']? = some v' → v.target = some t → v'.target = some t → n = n'
  /-- The balance of a slot is the sum of the entries that are neither voids nor voided. -/
  balance : s.memory.Holdable → ∀ key slot, s.memory.slots.get? key = some slot →
    slot.balance.toInt = Entry.total key (Entry.standing s.memory.entries)
  plannable : ∀ e ∈ s.memory.entries, Plannable s.memory e
  answers : ∀ (place : Nat) (p : Party Call (Except LedgerError Answer)) (c : VoidCommand)
    (e : DomainError), s.parties[place]? = some p → p.task.command = .void c →
    p.answer? = some (.error (.domain e)) → Answerable e

end Traffic

/-- Calls of any kind, on a store in which nothing has happened, come between each other in any way:
the voids that they make cancel what they void, and once; and whatever calls do after that, the
entries stay as they are. -/
theorem voids_cancel_once (steps more : List (Interleaving.Step Call)) :
    let s : Traffic := (Interleaving.on .empty).run steps
    s.Cancels ∧ s.memory.entries <+:
      ((Interleaving.on .empty).run (steps ++ more) : Traffic).memory.entries := by
  intro s
  have h : (Call.charter .empty).Upheld .empty s := Traffic.upheld Memory.indexed_empty steps
  have hindexed : s.memory.Indexed := Traffic.indexed_run Memory.indexed_empty steps
  have hlog := Traffic.chronicle_after h (List.prefix_refl _)
  rw [← h.memory] at hlog
  refine ⟨?_, ?_⟩
  · constructor
    case reverses => exact hlog.exists_reversed
    case once =>
      intro n n' v v' t hn hn' ht ht'
      have hv := hindexed.voidOf?_eq_some_iff.mpr ⟨List.mem_of_getElem? hn, ht⟩
      have hv' := hindexed.voidOf?_eq_some_iff.mpr ⟨List.mem_of_getElem? hn', ht'⟩
      obtain rfl := Option.some.inj (hv.symm.trans hv')
      have hplace := (hindexed.position_iff v.id n).mpr ⟨v, hn, rfl⟩
      have hplace' := (hindexed.position_iff v.id n').mpr ⟨v, hn', rfl⟩
      exact Option.some.inj (hplace.symm.trans hplace')
    case balance =>
      intro hfits key slot hslot
      have hfew := fun key => Traffic.commitsOn_lt_versions h hfits (List.prefix_refl _) key
      have hbooks := Traffic.books_after h hfew key s.journal (List.prefix_refl _)
      rw [← h.memory] at hbooks
      have hbalance := hbooks.balance
      rw [hslot, hlog.total_standing key] at hbalance
      exact hbalance
    case plannable =>
      intro e he
      have hplannable := Traffic.plannable_after h (List.prefix_refl s.journal) (h.memory ▸ he)
      exact h.memory ▸ hplannable
    case answers =>
      intro place p c e hp hcall ha
      exact Traffic.answerable_of_answer h hp hcall ha
  · have hmore := Traffic.upheld Memory.indexed_empty (steps ++ more)
    rw [hmore.memory, h.memory]
    refine Memory.entries_after_mono ?_
    rw [Interleaving.run_append]
    exact Interleaving.journal_run_mono ..

/-- Of a credit, a debit and the void of the debit, the credit stands. -/
theorem voids_cancel_once_creditReserveDebitVoid :
    let s : Traffic := (Interleaving.on .empty).run creditReserveDebitVoid
    s.memory.Holdable ∧ s.memory.entries.map Entry.target = [none, none, some ⟨203⟩] ∧
      (Entry.standing s.memory.entries).map Entry.amount = [100] ∧ s.Cancels := by
  intro s
  have hfits : s.memory.Holdable := by
    unfold Memory.Holdable
    decide +kernel
  exact ⟨hfits, by decide +kernel, by decide +kernel,
    (voids_cancel_once creditReserveDebitVoid []).1⟩

end BalanceLedger
