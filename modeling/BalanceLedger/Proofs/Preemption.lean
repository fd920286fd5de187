/-
# `Proofs.Preemption` — voids that another void comes before

A void would be linearizable if its answer were one that it gets alone on the store of
some instant between its start and its return.  What refuses it there can be worked out
from the store (`verdict?`): the log decides first, then the slot.  But a void that runs
among others asks the log whether the entry is voided, and reads the slot, at two
moments, and it asks the log once only.

So its answer is out of order in one case.  It is preempted if another void of the entry
commits between these two moments and the slot that is left cannot bear the movement a
second time.  Then it answers with the refusal of the slot, while on the store that it
has read the slot from, the entry is voided already.  Every other answer is in order: in
particular, where its description is too long for the void to be written, the store that
the other void has found refuses it so as well.

`void_linearized_iff_not_preempted` is the exact condition, as for postings, and
`ComesLate` is how it comes about: the two instants, and the other void between them.
The part that has no counterpart there is `exists_open_before`.  The other void has
found the entry open and the slot able to bear the movement, so a refusal in which the
slot has no part is one that the store of that instant has too.

`racingVoids` are two voids of one credit, on a slot that holds nothing else.
-/
import BalanceLedger.Proofs.Cancellation
import BalanceLedger.Proofs.Linearizability

namespace BalanceLedger

open Store (ChangeSet Memory)
open Time (Instant)

/-! ## A void alone -/

namespace VoidCommand

/-- What the void is refused with on a store.  The order of the checks is that of
`VoidCommand.plan`. -/
def verdict? (c : VoidCommand) (m : Memory) : Option DomainError :=
  if Text.isBlankText c.reason then some (.required "void reason")
  else
    match m.entry? c.target with
    | none => some (.entryNotFound c.target)
    | some target =>
      if target.isVoid then some (.voidOfVoid target.id)
      else if (m.voidOf? target.id).isSome then some (.alreadyVoided target.id)
      else c.refusal? target (m.slots.get? target.slotKey)

variable {c : VoidCommand} {m : Memory} {target v : Entry} {e : DomainError}

theorem verdict?_of_blank (h : Text.isBlankText c.reason = true) :
    c.verdict? m = some (.required "void reason") := by
  rw [verdict?, if_pos h]

theorem verdict?_of_barred (hreason : Text.isBlankText c.reason = false) (h : c.Barred m e) :
    c.verdict? m = some e := by
  unfold verdict?
  cases h with
  | missing hfound => simp [hreason, hfound]
  | void hfound hvoid => simp [hreason, hfound, hvoid]
  | voided hfound hvoid hvoided => simp [hreason, hfound, hvoid, hvoided]

theorem verdict?_of_isOpen (hreason : Text.isBlankText c.reason = false)
    (h : c.IsOpen m target) :
    c.verdict? m = c.refusal? target (m.slots.get? target.slotKey) := by
  obtain ⟨hfound, hvoid, hvoided⟩ := h
  simp [verdict?, hreason, hfound, hvoid, hvoided]

theorem verdict?_cases (h : c.verdict? m = some e) :
    Text.isBlankText c.reason = true ∧ e = .required "void reason" ∨
      Text.isBlankText c.reason = false ∧
        (c.Barred m e ∨ ∃ target, c.IsOpen m target ∧
          c.refusal? target (m.slots.get? target.slotKey) = some e) := by
  cases hreason : Text.isBlankText c.reason with
  | true =>
      rw [verdict?_of_blank hreason] at h
      exact .inl ⟨rfl, (Option.some.inj h).symm⟩
  | false =>
      refine .inr ⟨rfl, ?_⟩
      cases hfound : m.entry? c.target with
      | none =>
          rw [verdict?_of_barred hreason (.missing hfound)] at h
          exact .inl (Option.some.inj h ▸ .missing hfound)
      | some target =>
          cases hvoid : target.isVoid with
          | true =>
              rw [verdict?_of_barred hreason (.void hfound hvoid)] at h
              exact .inl (Option.some.inj h ▸ .void hfound hvoid)
          | false =>
              cases hvoided : m.voidOf? target.id with
              | some v =>
                  rw [verdict?_of_barred hreason (.voided hfound hvoid hvoided)] at h
                  exact .inl (Option.some.inj h ▸ .voided hfound hvoid hvoided)
              | none =>
                  have hopen : c.IsOpen m target := ⟨hfound, hvoid, hvoided⟩
                  rw [verdict?_of_isOpen hreason hopen] at h
                  exact .inr ⟨target, hopen, h⟩

end VoidCommand

namespace Traffic

variable {m : Memory} {call : Call} {cmd : VoidCommand} {e : DomainError}

/-- A void is refused alone with its `verdict?`. -/
theorem answersAlone_of_verdict? (hcall : call.command = .void cmd) (h : cmd.verdict? m = some e)
    (hfits : (m.ids.length : Int) ≤ Word.maxInt64) : AnswersAlone m call (.error (.domain e)) := by
  obtain ⟨command, policy, origin⟩ := call
  subst hcall
  have hexecute : ∃ ids, ids.Nodup ∧
      Alone (cmd.execute policy origin).run m ids (.error (.domain e)) m := by
    unfold VoidCommand.execute
    have hlost : ∀ e', (Except.error (.domain e) : Except LedgerError VoidResult) = .error e' →
        e'.isVersionConflict = false := by
      intro e' he'
      rw [← Except.error.inj he']
      rfl
    rcases VoidCommand.verdict?_cases h with ⟨hreason, rfl⟩ | ⟨hreason, hbarred | ⟨target, hopen,
      hrefusal⟩⟩
    · rw [if_pos hreason]
      exact ⟨[], List.nodup_nil, .bind_error (.done _ _)⟩
    · rw [hreason]
      exact ⟨[], List.nodup_nil, .retrying (VoidCommand.alone_barred hbarred) hlost⟩
    · obtain ⟨id, hid⟩ := Uuid.exists_not_mem hfits
      obtain ⟨ids, hids, hrefused⟩ := VoidCommand.alone_refused origin hopen hrefusal hid
      rw [hreason]
      exact ⟨ids, hids.nodup (List.nodup_singleton id), .retrying hrefused hlost⟩
  obtain ⟨ids, hnodup, hexecute⟩ := hexecute
  exact answersAlone (.bind_error hexecute) hnodup

theorem verdict?_of_answersAlone (hm : m.Indexed) (hcall : call.command = .void cmd)
    (h : AnswersAlone m call (.error (.domain e))) : cmd.verdict? m = some e := by
  have hdeclines := declines_of_answersAlone hm h
  rw [hcall] at hdeclines
  cases hdeclines with
  | barred hreason _ hj hbarred =>
      rw [List.prefix_nil] at hj
      rw [hj] at hbarred
      exact VoidCommand.verdict?_of_barred hreason hbarred
  | blocked hreason _ hjj hj hopen hrefusal =>
      rw [List.prefix_nil] at hj
      rw [hj, List.prefix_nil] at hjj
      rw [hjj] at hopen
      rw [hj] at hrefusal
      exact (VoidCommand.verdict?_of_isOpen hreason hopen).trans hrefusal
  | unreasoned hreason => exact VoidCommand.verdict?_of_blank hreason
  | other _ hvoid => exact absurd rfl (hvoid cmd)

/-! ## The void that comes before -/

theorem exists_commit_of_mem {m : Memory} {j j' : List (Nat × ChangeSet)} {v : Entry}
    (hjj : j <+: j') (hnow : v ∈ (m.after j').entries) (hthen : v ∉ (m.after j).entries) :
    ∃ i p, j <+: i ∧ i ++ [p] <+: j' ∧ p.2.entry = some v := by
  obtain ⟨rest, rfl⟩ := hjj
  induction rest using List.reverseRecOn with
  | nil =>
      rw [List.append_nil] at hnow
      exact absurd hnow hthen
  | append_singleton rest p ih =>
      rw [← List.append_assoc, Memory.after_concat, Memory.entries_write] at hnow
      rcases List.mem_append.mp hnow with hnow | hnow
      · obtain ⟨i, p', hi, hpre, hentry⟩ := ih hnow
        refine ⟨i, p', hi, hpre.trans ?_, hentry⟩
        rw [← List.append_assoc]
        exact List.prefix_append ..
      · refine ⟨j ++ rest, p, List.prefix_append .., ?_, Option.mem_toList.mp hnow⟩
        rw [List.append_assoc]

theorem exists_move_of_settles {m : Memory} {command : Command} {key : Slot.Key}
    {stored : Option Slot} {ids : List Uuid} {x : Effect} {v : Entry} {t : Uuid} (hm : m.Indexed)
    (h : command.Settles m key stored ids x) (hv : x.entry = some v) (ht : v.target = some t) :
    ∃ o slot amount now moved updated, o ∈ m.entries ∧ o.id = t ∧ key = o.slotKey ∧
      stored = some slot ∧ Amount.ofInt64 o.amount = .ok amount ∧
      slot.move o.side.opposite amount now = .ok (moved, updated) := by
  cases h with
  | post _ heffect =>
      obtain ⟨e', he', -, -, htarget⟩ := Posting.effect_entry heffect
      obtain rfl := Option.some.inj (hv.symm.trans he')
      exact absurd (ht.symm.trans htarget) (by simp)
  | adjust _ heffect =>
      obtain ⟨e', he', -, -, htarget⟩ := Posting.effect_entry heffect
      obtain rfl := Option.some.inj (hv.symm.trans he')
      exact absurd (ht.symm.trans htarget) (by simp)
  | @void c o slot now later id _ _ hfound hregular heffect =>
      obtain ⟨amount, moved, updated, v', voided, hamount, hmove, hvoid, rfl⟩ :=
        VoidCommand.effect_ok heffect
      obtain rfl := Option.some.inj hv
      obtain rfl : o.id = t := by
        rw [(Entry.void_ok hvoid).1] at ht
        exact Option.some.inj ht
      have hmem := (hm.entry?_eq_some_iff.mp hfound).1
      exact ⟨o, slot, amount, now, moved, updated, hmem, rfl, rfl, rfl, hamount, hmove⟩
  | earmark _ _ heffect =>
      obtain ⟨_, _, -, rfl⟩ := Earmark.effect_ok heffect
      exact absurd hv (by simp)

/-- The void that has come before has found the entry open, and the slot able to bear it. -/
theorem exists_open_before {s : Traffic} (h : (Call.charter .empty).Upheld .empty s)
    (hfew : ∀ j key, j <+: s.journal → Memory.commitsOn key j < Memory.versions)
    {j j' : List (Nat × ChangeSet)} {target v : Entry} (hjj : j <+: j') (hj' : j' <+: s.journal)
    (hopen : cmd.IsOpen (Memory.empty.after j) target)
    (hvoided : (Memory.empty.after j').voidOf? target.id = some v) :
    ∃ i slot amount now moved updated, j <+: i ∧ i <+: j' ∧
      cmd.IsOpen (Memory.empty.after i) target ∧
      (Memory.empty.after i).slots.get? target.slotKey = some slot ∧
      Amount.ofInt64 target.amount = .ok amount ∧
      slot.move target.side.opposite amount now = .ok (moved, updated) := by
  obtain ⟨hfound, hregular, hnone⟩ := hopen
  have hindexed := Memory.indexed_empty.after (h.orderly.earlier (hjj.trans hj'))
  have hindexed' := Memory.indexed_empty.after (h.orderly.earlier hj')
  obtain ⟨hmem, htarget⟩ := hindexed'.voidOf?_eq_some_iff.mp hvoided
  have hnew : v ∉ (Memory.empty.after j).entries := by
    intro hv
    have := hindexed.voidOf?_eq_some_iff.mpr ⟨hv, htarget⟩
    exact absurd (hnone.symm.trans this) (by simp)
  obtain ⟨i, ⟨place, c⟩, hji, hij', hentry⟩ := exists_commit_of_mem hjj hmem hnew
  have hcommit := hij'.trans hj'
  have hi := (List.prefix_append i [(place, c)]).trans hcommit
  obtain ⟨horderly, hadmissible⟩ := Memory.orderly_concat_iff.mp (h.orderly.earlier hcommit)
  have hindexedi := Memory.indexed_empty.after horderly
  have hfoundi := Memory.entry?_after Memory.indexed_empty horderly hji hfound
  -- the store has accepted it, so nothing has voided the entry until then
  obtain ⟨-, hmarks⟩ := Memory.fault?_eq_none_iff.mp hadmissible.accepted
  have hnonei := Memory.voidOf?_eq_none ((hmarks v hentry).2 target.id htarget)
  obtain ⟨_, _, key, stored, ids, ids', x, -, -, -, hcommits⟩ := exists_commits h hcommit
  have hslot := hcommits.current (hfew i key hi)
  obtain ⟨o, slot, amount, now, moved, updated, hmemo, hid, rfl, rfl, hamount, hmove⟩ :=
    exists_move_of_settles hindexedi hcommits.settles
      (hcommits.written.entry.symm.trans hentry) htarget
  obtain rfl : o = target :=
    hindexedi.eq_of_id_eq hmemo (hindexedi.entry?_eq_some_iff.mp hfoundi).1 hid
  exact ⟨i, slot, amount, now, moved, updated, hji,
    (List.prefix_append i [(place, c)]).trans hij', ⟨hfoundi, hregular, hnonei⟩, hslot, hamount,
    hmove⟩

/-! ## Instants of traffic -/

variable {steps : List (Interleaving.Step Call)} {place n k r : Nat}
  {q : Party Call (Except LedgerError Answer)} {a : Except LedgerError Answer}

/-- The void is refused, but at no instant of its time did the store refuse it so. -/
def Preempted (steps : List (Interleaving.Step Call)) (place : Nat) (cmd : VoidCommand)
    (a : Except LedgerError Answer) : Prop :=
  ∃ e, a = .error (.domain e) ∧
    ∀ n, UnderWay steps place n → cmd.verdict? (storeAt steps n) ≠ some e

/-- How a void is preempted: at one instant its entry is open; at a later one the entry is voided,
and the slot cannot bear the movement, which is the answer; alone the void would be told then that
the entry is voided. -/
structure ComesLate (steps : List (Interleaving.Step Call)) (place n k : Nat) (call : Call)
    (cmd : VoidCommand) (target v : Entry) (slot : Slot) (amount : Amount) (e : DomainError) :
    Prop where
  order : n ≤ k
  asked : UnderWay steps place n
  isOpen : cmd.IsOpen (storeAt steps n) target
  read : UnderWay steps place k
  voided : (storeAt steps k).voidOf? target.id = some v
  stored : (storeAt steps k).slots.get? target.slotKey = some slot
  size : target.amount = amount.val
  refused : slot.move target.side.opposite amount .epoch = .error e
  answer : e = .insufficientBalance amount.val slot.available ∨ e = .balanceOverflow
  alone : AnswersAlone (storeAt steps k) call (.error (.domain (.alreadyVoided target.id)))

/-- What is answered as it would be alone at an instant, has not been `Preempted`. -/
theorem Linearized.not_preempted {call : Call} (h : Linearized steps place call a)
    (hcall : call.command = .void cmd) : ¬ Preempted steps place cmd a := by
  rintro ⟨e, rfl, hnever⟩
  obtain ⟨n, hn, halone⟩ := h
  exact hnever n hn (verdict?_of_answersAlone (indexed_storeAt steps n) hcall halone)

theorem linearized_of_verdict? {call : Call} {e : DomainError}
    (hfits : ((Interleaving.on .empty).run steps : Traffic).memory.Holdable)
    (hcall : call.command = .void cmd) (hn : UnderWay steps place n)
    (hverdict : cmd.verdict? (storeAt steps n) = some e) :
    Linearized steps place call (.error (.domain e)) :=
  ⟨n, hn, answersAlone_of_verdict? hcall hverdict (length_ids_storeAt steps n hfits)⟩

/-- Where the entry was open and the slot that was read then refuses the void, the refusal is in
order, or another void has come in between. -/
theorem linearized_or_comesLate_of_blocked
    (hfits : ((Interleaving.on .empty).run steps : Traffic).memory.Holdable)
    (hr : UnderWay steps place r)
    (hq : ((Interleaving.on .empty).upTo steps r : Traffic).parties[place]? = some q)
    (hcall : q.task.command = .void cmd) {j j' : List (Nat × ChangeSet)} {target : Entry}
    {e : DomainError} (hreason : Text.isBlankText cmd.reason = false)
    (hsince : q.since ≤ j.length) (hjj : j <+: j')
    (hj : j' <+: ((Interleaving.on .empty).upTo steps r : Traffic).journal)
    (hopen : cmd.IsOpen (Memory.empty.after j) target)
    (hrefusal : cmd.refusal? target ((Memory.empty.after j').slots.get? target.slotKey) = some e) :
    Linearized steps place q.task (.error (.domain e)) ∨
      ∃ n k v slot amount, ComesLate steps place n k q.task cmd target v slot amount e := by
  have h : (Call.charter .empty).Upheld .empty ((Interleaving.on .empty).upTo steps r) :=
    upheld Memory.indexed_empty (steps.take r)
  have horderly := h.orderly.earlier hj
  obtain ⟨hfound, hregular, hnone⟩ := hopen
  have hfound' := Memory.entry?_after Memory.indexed_empty horderly hjj hfound
  obtain ⟨n, k, hnk, hn, hstore, hk, hstore'⟩ := exists_storeAt_pair hr hq hjj hj hsince
  cases hvoided : (Memory.empty.after j').voidOf? target.id with
  | none =>
      have hverdict := VoidCommand.verdict?_of_isOpen hreason ⟨hfound', hregular, hvoided⟩
      exact .inl (linearized_of_verdict? hfits hcall hk (hstore'.symm ▸ hverdict.trans hrefusal))
  | some v =>
      have hmem := ((Memory.indexed_empty.after horderly).entry?_eq_some_iff.mp hfound').1
      obtain ⟨⟨slot, hslot⟩, amount, hamount⟩ := plannable_after h hj hmem
      rw [hslot] at hrefusal
      rcases VoidCommand.refusal?_cases hregular hamount hrefusal with hmove | ⟨moved, hlong, -⟩
      · rw [← hstore] at hfound hnone
        rw [← hstore'] at hfound' hvoided hslot
        have hverdict := VoidCommand.verdict?_of_barred hreason (.voided hfound' hregular hvoided)
        exact .inr ⟨n, k, v, slot, amount, {
          order := hnk
          asked := hn
          isOpen := ⟨hfound, hregular, hnone⟩
          read := hk
          voided := hvoided
          stored := hslot
          size := (Amount.val_of_ofInt64 hamount).symm
          refused := hmove
          answer := Slot.move_error_cases hmove
          alone := answersAlone_of_verdict? hcall hverdict (length_ids_storeAt steps k hfits) }⟩
      · -- what the other void has found bears the movement, but not the description either
        have hfew : ∀ i key, i <+: ((Interleaving.on .empty).upTo steps r : Traffic).journal →
            Memory.commitsOn key i < Memory.versions := fun i key hi =>
          commitsOn_lt_versions (upheld Memory.indexed_empty steps) hfits
            (hi.trans (Interleaving.journal_upTo_mono ..)) key
        obtain ⟨i, slot', amount', now, moved', updated, hji, hij, hopen, hslot', hamount',
          hmove⟩ := exists_open_before h hfew hjj hj ⟨hfound, hregular, hnone⟩ hvoided
        obtain ⟨l, -, hl, -, hstorel⟩ :=
          exists_storeAt hr hq (hij.trans hj) (hsince.trans hji.length_le)
        have hlong' : target.void cmd.reason moved' .nil .epoch = .error e :=
          Entry.void_error hlong
        have hverdict := VoidCommand.verdict?_of_isOpen hreason hopen
        rw [hslot', VoidCommand.refusal?_of_void hamount' hmove hlong', ← hstorel] at hverdict
        exact .inl (linearized_of_verdict? hfits hcall hl hverdict)

/-- What an answer of a void goes by: one store, or the log as it was, and the slot of the entry
when another void has come in between. -/
theorem linearized_or_comesLate
    (hfits : ((Interleaving.on .empty).run steps : Traffic).memory.Holdable)
    (hr : UnderWay steps place r)
    (hq : ((Interleaving.on .empty).upTo steps r : Traffic).parties[place]? = some q)
    (hcall : q.task.command = .void cmd) (ha : q.answer? = some a)
    (hcancelled : a ≠ .error .cancelled) (hexhausted : ∀ n, a ≠ .error (.exhausted n)) :
    Linearized steps place q.task a ∨
      ∃ n k target v slot amount e, a = .error (.domain e) ∧
        ComesLate steps place n k q.task cmd target v slot amount e := by
  have h : (Call.charter .empty).Upheld .empty ((Interleaving.on .empty).upTo steps r) :=
    upheld Memory.indexed_empty (steps.take r)
  rcases h.ensures hq ha with ⟨c, a', hc, hreport, rfl⟩ | ⟨-, hdeclines⟩
  · exact .inl (linearized_of_commits hfits hr hq hc hreport)
  · rw [hcall] at hdeclines
    cases hdeclines with
    | barred hreason hsince hj hbarred =>
        obtain ⟨n, -, hn, -, hstore⟩ := exists_storeAt hr hq hj hsince
        rw [← hstore] at hbarred
        have hverdict := VoidCommand.verdict?_of_barred hreason hbarred
        exact .inl (linearized_of_verdict? hfits hcall hn hverdict)
    | blocked hreason hsince hjj hj hopen hrefusal =>
        rcases linearized_or_comesLate_of_blocked hfits hr hq hcall hreason hsince hjj hj hopen
          hrefusal with hlinearized | ⟨n, k, v, slot, amount, hlate⟩
        · exact .inl hlinearized
        · exact .inr ⟨n, k, _, v, slot, amount, _, rfl, hlate⟩
    | unreasoned hreason =>
        exact .inl (linearized_of_verdict? hfits hcall hr (VoidCommand.verdict?_of_blank hreason))
    | other _ hvoid => exact absurd rfl (hvoid cmd)
    | cancelled => exact absurd rfl hcancelled
    | exhausted _ n => exact absurd rfl (hexhausted n)

end Traffic

/-- The answer of a void that is neither cancelled nor exhausted is one that it gets alone at an
instant between its start and its return, exactly if it is not `Preempted`; and where it is, another
void of its entry has left a slot that cannot bear the movement again. -/
theorem void_linearized_iff_not_preempted (steps : List (Interleaving.Step Call)) {place : Nat}
    {p : Party Call (Except LedgerError Answer)} {cmd : VoidCommand}
    {a : Except LedgerError Answer}
    (hfits : ((Interleaving.on .empty).run steps : Traffic).memory.Holdable)
    (hp : ((Interleaving.on .empty).run steps : Traffic).parties[place]? = some p)
    (hcall : p.task.command = .void cmd) (ha : p.answer? = some a)
    (hcancelled : a ≠ .error .cancelled) (hexhausted : ∀ n, a ≠ .error (.exhausted n)) :
    (Traffic.Linearized steps place p.task a ↔ ¬ Traffic.Preempted steps place cmd a) ∧
      (Traffic.Preempted steps place cmd a → ∃ n k target v slot amount e,
        a = .error (.domain e) ∧
          Traffic.ComesLate steps place n k p.task cmd target v slot amount e) := by
  obtain ⟨r, q, hr, hq, hgoes, hqa⟩ := Interleaving.exists_return hp ha
  rw [hgoes.task] at hcall ⊢
  have hcases := Traffic.linearized_or_comesLate hfits hr hq hcall hqa hcancelled hexhausted
  refine ⟨⟨fun h => h.not_preempted hcall, fun hnot => ?_⟩, fun hpreempted => ?_⟩
  · rcases hcases with h | ⟨_, _, _, _, _, _, e, rfl, -⟩
    · exact h
    · by_contra hnone
      refine hnot ⟨e, rfl, fun n hn hverdict => hnone ?_⟩
      exact Traffic.linearized_of_verdict? hfits hcall hn hverdict
  · rcases hcases with h | hlate
    · exact absurd hpreempted (h.not_preempted hcall)
    · exact hlate

def voidOfCredit : VoidCommand :=
  { target := ⟨3⟩, reason := "wrong" }

/-- A slot has been credited with 100 when the credit is voided twice: the first void has asked for
the void of the entry, and it reads the slot when the second one has committed. -/
def racingVoids : List (Interleaving.Step Call) :=
  let start (command : Command) : Interleaving.Step Call := .start { command }
  let acts (place first count : Nat) : List (Interleaving.Step Call) :=
    (List.range count).map fun n =>
      .act place { now := .epoch, id := ⟨BitVec.ofNat 128 (first + n)⟩ }
  [start (.post (.credit .nil "MAD" 100 "in"))] ++ acts 0 0 12 ++
    [start (.void voidOfCredit), start (.void voidOfCredit)] ++
    acts 1 100 3 ++ acts 2 200 15 ++ acts 1 300 3

theorem void_linearized_iff_not_preempted_racingVoids :
    let s : Traffic := (Interleaving.on .empty).run racingVoids
    let a : Except LedgerError Answer := .error (.domain (.insufficientBalance 100 0))
    ∃ h : 1 < s.parties.length, s.memory.Holdable ∧
      s.parties[1].task.command = .void voidOfCredit ∧ s.parties[1].answer? = some a ∧
      (Traffic.Linearized racingVoids 1 s.parties[1].task a ↔
        ¬ Traffic.Preempted racingVoids 1 voidOfCredit a) ∧
      (Traffic.Preempted racingVoids 1 voidOfCredit a → ∃ n k target v slot amount e,
        a = .error (.domain e) ∧ Traffic.ComesLate racingVoids 1 n k s.parties[1].task
          voidOfCredit target v slot amount e) := by
  intro s a
  have hfits : s.memory.Holdable := by
    unfold Memory.Holdable
    decide +kernel
  refine ⟨by decide +kernel, hfits, by decide +kernel, by decide +kernel, ?_⟩
  exact void_linearized_iff_not_preempted racingVoids hfits (List.getElem?_eq_getElem _)
    (by decide +kernel) (by decide +kernel) (by simp [a]) (by simp [a])

theorem preempted_racingVoids :
    Traffic.Preempted racingVoids 1 voidOfCredit
      (.error (.domain (.insufficientBalance 100 0))) := by
  refine ⟨_, rfl, fun n _ hverdict => ?_⟩
  have hpre := (Interleaving.on .empty : Traffic).journal_upTo_mono racingVoids n
  -- there are two commits, so three stores
  have hlength : ((Interleaving.on .empty).run racingVoids : Traffic).journal.length < 3 := by
    decide +kernel
  have hstores : ∀ k < 3, voidOfCredit.verdict? (Memory.empty.after
      (((Interleaving.on .empty).run racingVoids : Traffic).journal.take k)) ≠
        some (.insufficientBalance 100 0) := by
    decide +kernel
  rw [Traffic.storeAt_eq, List.prefix_iff_eq_take.mp hpre] at hverdict
  exact hstores _ (Nat.lt_of_le_of_lt hpre.length_le hlength) hverdict

/-- The void is not told that the entry has been voided meanwhile, but that the slot holds too
little: no instant has it so. -/
theorem not_linearized_racingVoids :
    let s : Traffic := (Interleaving.on .empty).run racingVoids
    let a : Except LedgerError Answer := .error (.domain (.insufficientBalance 100 0))
    s.answer? 2 = some (.ok (.void
        { voidEntry := ⟨205⟩, target := ⟨3⟩, status := .voided, balance := 0 })) ∧
      ∃ h : 1 < s.parties.length, s.parties[1].answer? = some a ∧
        ¬ Traffic.Linearized racingVoids 1 s.parties[1].task a := by
  intro s a
  refine ⟨by decide +kernel, by decide +kernel, by decide +kernel, fun hlinearized => ?_⟩
  refine hlinearized.not_preempted ?_ preempted_racingVoids
  decide +kernel

end BalanceLedger
