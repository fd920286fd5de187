/-
# `Proofs.Linearizability` — answers that fit an instant

A posting would be linearizable if its answer were one that it gets alone on the store
of some instant between its start and its return: `Linearized`, with `AnswersAlone` for
what a call gets alone.  A posting looks its key up and reads its slot at two moments,
though, and it looks at the key once only.  So this holds of all its answers but one
kind.  It is overtaken if an entry takes its key between these two moments and the slot
that is left refuses it.  Then it answers with the refusal, while on the store that it
has read the slot from, it would be answered by the entry.

Whether a posting has been overtaken can be told from the stores of these instants, and
`Overtaken` does: at none of them was its key free and did the slot refuse it so.
`linearized_iff_not_overtaken` is the exact condition, and it says by `LosesKey` how a
posting comes to be overtaken.  The two directions have different proofs.  An answer
that fits an instant is taken apart there, by what a call alone can be refused with; and
for an answer that was overtaken at no instant, `linearized_or_refused` finds the
instants that the two readings belong to.

That it happens is shown by `racingDebits`, two debits of one slot under one key, of
which the slot can bear one: `not_linearized_racingDebits`.
-/
import BalanceLedger.Proofs.Instants
import BalanceLedger.Proofs.Serializability

namespace BalanceLedger

open Store (ChangeSet Memory)
open Time (Instant)

/-! ## New identifiers -/

theorem Uuid.exists_not_mem {ids : List Uuid} (h : (ids.length : Int) ≤ Word.maxInt64) :
    ∃ id : Uuid, id ∉ ids := by
  unfold Word.maxInt64 at h
  by_contra hnone
  have hall : ∀ id : Uuid, id ∈ ids := fun id => by_contra fun hid => hnone ⟨id, hid⟩
  have hnodup :
      ((List.range (ids.length + 1)).map fun n => Uuid.mk (BitVec.ofNat 128 n)).Nodup := by
    refine List.nodup_range.map_on fun n hn k hk heq => ?_
    have hval := congrArg BitVec.toNat (Uuid.mk.inj heq)
    simp only [BitVec.toNat_ofNat, List.mem_range] at hval hn hk
    omega
  have hle := hnodup.length_le_of_subset fun id _ => hall id
  rw [List.length_map, List.length_range] at hle
  omega

/-! ## A call alone -/

def Posting.IsRefused (p : Posting) (m : Memory) (e : DomainError) : Prop :=
  p.IsFree m ∧ p.refusal? (m.slots.get? p.slotKey) = some e

instance (p : Posting) (m : Memory) (e : DomainError) : Decidable (p.IsRefused m e) :=
  inferInstanceAs (Decidable (_ ∧ _))

namespace Interleaving

variable {τ α : Type} [Task τ α]

theorem length_parties_acts (s : Interleaving τ α) (place : Nat) (ws : List Moment) :
    (s.run (ws.map (.act place))).parties.length = s.parties.length := by
  induction ws generalizing s with
  | nil => rfl
  | cons w ws ih =>
      have hone : (s.act place w).parties.length = s.parties.length := by
        rcases s.act_cases place w with heq | ⟨p, request, next, -, -, -, heq⟩
        · rw [heq]
        · rw [heq]
          exact List.length_set
      exact (ih (s.act place w)).trans hone

end Interleaving

namespace Traffic

/-- Made alone on a store, the call gets this answer, with identifiers and readings of the clock
that it can have there. -/
def AnswersAlone (m : Memory) (call : Call) (a : Except LedgerError Answer) : Prop :=
  ∃ ws, (inTurn m [(call, ws)]).answer? 0 = some a

variable {m m' : Memory} {call : Call} {a : Except LedgerError Answer} {cmd : PostCommand}
  {posting : Posting} {e : DomainError}

theorem inTurn_single (m : Memory) (call : Call) (ws : List Moment) :
    inTurn m [(call, ws)] =
      ((Interleaving.on m).step (.start call)).run (ws.map (.act 0)) := by
  simp [inTurn, Interleaving.serial, Interleaving.run]

theorem answersAlone {ids : List Uuid} (h : Alone call.execute.run m ids a m')
    (hnodup : ids.Nodup) : AnswersAlone m call a := by
  obtain ⟨ws, q, -, hparties, hanswer, -⟩ := Alone.exists_turn (Interleaving.on m) call h
    hnodup fun _ _ _ hq => absurd hq List.not_mem_nil
  refine ⟨ws, ?_⟩
  rw [inTurn_single]
  refine (Interleaving.answer?_eq ?_).trans hanswer
  exact (congrArg (·[0]?) hparties).trans rfl

theorem answersAlone_held (hcall : call.command = .post cmd)
    (hp : Posting.ofCommand cmd = .ok posting) {e₀ : Entry} (h : posting.IsHeldBy m e₀) :
    AnswersAlone m call (.ok (.posting (Posting.replayed e₀))) := by
  obtain ⟨command, policy, origin⟩ := call
  subst hcall
  refine answersAlone (.bind_last (.lawful_bind hp (.retrying (Posting.alone_held h) ?_))
    (.answer _)) List.nodup_nil
  intro e h
  exact absurd h (by simp)

theorem answersAlone_refused (hcall : call.command = .post cmd)
    (hp : Posting.ofCommand cmd = .ok posting) (h : posting.IsRefused m e)
    (hfits : (m.ids.length : Int) ≤ Word.maxInt64) : AnswersAlone m call (.error (.domain e)) := by
  obtain ⟨command, policy, origin⟩ := call
  subst hcall
  obtain ⟨id, hid⟩ := Uuid.exists_not_mem hfits
  obtain ⟨ids, hids, hrefused⟩ := Posting.alone_refused origin h.1 h.2 hid
  refine answersAlone (.bind_error (.lawful_bind hp (.retrying hrefused ?_)))
    (hids.nodup (List.nodup_singleton id))
  intro e' he'
  rw [← Except.error.inj he']
  rfl

theorem answersAlone_invalid (hcall : call.command = .post cmd)
    (hp : Posting.ofCommand cmd = .error e) : AnswersAlone m call (.error (.domain e)) := by
  obtain ⟨command, policy, origin⟩ := call
  subst hcall
  exact answersAlone (.bind_error (.bind_error (.lawful_error hp))) List.nodup_nil

/-- A call that fails alone declines on the store that it has found. -/
theorem declines_of_answersAlone (hm : m.Indexed) {e : LedgerError}
    (h : AnswersAlone m call (.error e)) : Call.Declines m 0 [] call.command (.error e) := by
  obtain ⟨ws, hanswer⟩ := h
  have hupheld : (Call.charter m).Upheld m (inTurn m [(call, ws)]) := upheld hm _
  rw [inTurn_single] at hanswer hupheld
  have hfirst : ((Interleaving.on m : Traffic).step (.start call)).parties[0]? =
      some { task := call, since := 0, rest := call.execute } := rfl
  obtain ⟨q, hq, hgoes⟩ := Interleaving.exists_goesOn_run hfirst (ws.map (.act 0))
  have hone := Interleaving.length_parties_acts ((Interleaving.on m : Traffic).step (.start call))
    0 ws
  generalize ((Interleaving.on m : Traffic).step (.start call)).run (ws.map (.act 0)) = s at *
  rw [Interleaving.answer?_eq hq] at hanswer
  rcases hupheld.ensures hq hanswer with ⟨_, _, -, -, heq⟩ | ⟨hsilent, hdeclines⟩
  · exact absurd heq (by simp)
  · -- nobody else is there who could have committed
    have hnone : s.journal = [] := by
      refine List.eq_nil_iff_forall_not_mem.mpr fun p hmem => hsilent p hmem ?_
      have := hupheld.places p hmem
      rw [hone] at this
      exact Nat.lt_one_iff.mp this
    rw [hnone, hgoes.task, hgoes.since] at hdeclines
    exact hdeclines

theorem isRefused_of_answersAlone (hm : m.Indexed) (hcall : call.command = .post cmd)
    (hp : Posting.ofCommand cmd = .ok posting) (h : AnswersAlone m call (.error (.domain e))) :
    posting.IsRefused m e := by
  have hdeclines := declines_of_answersAlone hm h
  rw [hcall] at hdeclines
  cases hdeclines with
  | refused hp' _ hjj hj' hfree hrefusal =>
      obtain rfl := Except.ok.inj (hp.symm.trans hp')
      rw [List.prefix_nil] at hj'
      rw [hj', List.prefix_nil] at hjj
      rw [hjj] at hfree
      rw [hj'] at hrefusal
      exact ⟨hfree, hrefusal⟩
  | invalid hp' => exact absurd (hp.symm.trans hp') (by simp)
  | other hother => exact absurd rfl (hother cmd)

/-! ## Instants of traffic -/

variable {steps : List (Interleaving.Step Call)} {place n r : Nat}
  {q : Party Call (Except LedgerError Answer)}

def storeAt (steps : List (Interleaving.Step Call)) (n : Nat) : Memory :=
  ((Interleaving.on .empty).upTo steps n : Traffic).memory

/-- The call at a place is under way: it has started, and it has not returned before. -/
abbrev UnderWay (steps : List (Interleaving.Step Call)) (place n : Nat) : Prop :=
  (Interleaving.on .empty : Traffic).During steps place n

theorem storeAt_eq (steps : List (Interleaving.Step Call)) (n : Nat) :
    storeAt steps n =
      Memory.empty.after ((Interleaving.on .empty).upTo steps n : Traffic).journal :=
  (upheld Memory.indexed_empty (steps.take n)).memory

theorem indexed_storeAt (steps : List (Interleaving.Step Call)) (n : Nat) :
    (storeAt steps n).Indexed :=
  indexed_run Memory.indexed_empty (steps.take n)

theorem length_ids_storeAt (steps : List (Interleaving.Step Call)) (n : Nat)
    (hfits : ((Interleaving.on .empty).run steps : Traffic).memory.Holdable) :
    ((storeAt steps n).ids.length : Int) ≤ Word.maxInt64 := by
  have hjournal := (Interleaving.on .empty : Traffic).journal_upTo_mono steps n
  rw [Memory.ids, List.length_map, storeAt_eq]
  exact length_entries_after_le (upheld Memory.indexed_empty steps) hfits hjournal

/-- The store after the commits up to a commit of a call has been the `storeAt` an instant. -/
theorem exists_storeAt (hr : UnderWay steps place r)
    (hq : ((Interleaving.on .empty).upTo steps r : Traffic).parties[place]? = some q)
    {j : List (Nat × ChangeSet)}
    (hj : j <+: ((Interleaving.on .empty).upTo steps r : Traffic).journal)
    (hsince : q.since ≤ j.length) :
    ∃ n ≤ r, UnderWay steps place n ∧
      ((Interleaving.on .empty).upTo steps n : Traffic).journal = j ∧
      storeAt steps n = Memory.empty.after j := by
  obtain ⟨n, hn, hduring, hjournal⟩ := hr.exists_journal rfl hq hj hsince
  exact ⟨n, hn, hduring, hjournal, by rw [storeAt_eq, hjournal]⟩

theorem exists_storeAt_pair (hr : UnderWay steps place r)
    (hq : ((Interleaving.on .empty).upTo steps r : Traffic).parties[place]? = some q)
    {j j' : List (Nat × ChangeSet)} (hjj : j <+: j')
    (hj : j' <+: ((Interleaving.on .empty).upTo steps r : Traffic).journal)
    (hsince : q.since ≤ j.length) :
    ∃ n k, n ≤ k ∧ UnderWay steps place n ∧ storeAt steps n = Memory.empty.after j ∧
      UnderWay steps place k ∧ storeAt steps k = Memory.empty.after j' := by
  -- the later of the two first: the earlier one has been before it
  obtain ⟨k, hkr, hk, hjk, hstore'⟩ := exists_storeAt hr hq hj (hsince.trans hjj.length_le)
  obtain ⟨q', hq'⟩ : ∃ q', ((Interleaving.on .empty).upTo steps k :
      Traffic).parties[place]? = some q' := ⟨_, List.getElem?_eq_getElem hk.started⟩
  have hqk := hq'
  rw [← Interleaving.upTo_take _ hkr] at hqk
  obtain ⟨q'', hq'', hgoes⟩ := Interleaving.exists_goesOn_upTo hqk
  obtain rfl := Option.some.inj (hq.symm.trans hq'')
  obtain ⟨n, hnk, hn, -, hstore⟩ := exists_storeAt hk hq' (hjk.symm ▸ hjj) (hgoes.since ▸ hsince)
  exact ⟨n, k, hnk, hn, hstore, hk, hstore'⟩

/-- The call gets the answer alone on the store of an instant between its start and its return: it
`AnswersAlone` on a `storeAt` while it is `UnderWay`. -/
def Linearized (steps : List (Interleaving.Step Call)) (place : Nat) (call : Call)
    (a : Except LedgerError Answer) : Prop :=
  ∃ n, UnderWay steps place n ∧ AnswersAlone (storeAt steps n) call a

/-- The posting is refused, but at no instant of its time was its key free and did the slot refuse
it so. -/
def Overtaken (steps : List (Interleaving.Step Call)) (place : Nat) (cmd : PostCommand)
    (a : Except LedgerError Answer) : Prop :=
  ∃ posting e, Posting.ofCommand cmd = .ok posting ∧ a = .error (.domain e) ∧
    ∀ n, UnderWay steps place n → ¬ posting.IsRefused (storeAt steps n) e

/-- How a posting is overtaken: first its key is free; later an entry holds it and the slot refuses
the posting, which alone would be answered by the entry then. -/
def LosesKey (steps : List (Interleaving.Step Call)) (place : Nat) (call : Call)
    (cmd : PostCommand) (a : Except LedgerError Answer) : Prop :=
  ∃ posting e e₀ n k, Posting.ofCommand cmd = .ok posting ∧ a = .error (.domain e) ∧ n ≤ k ∧
    UnderWay steps place n ∧ posting.IsFree (storeAt steps n) ∧
    UnderWay steps place k ∧ posting.IsHeldBy (storeAt steps k) e₀ ∧
    posting.refusal? ((storeAt steps k).slots.get? posting.slotKey) = some e ∧
    AnswersAlone (storeAt steps k) call (.ok (.posting (Posting.replayed e₀)))

/-- A call that has committed answers as it would have alone when it committed. -/
theorem linearized_of_commits
    (hfits : ((Interleaving.on .empty).run steps : Traffic).memory.Holdable)
    (hr : UnderWay steps place r)
    (hq : ((Interleaving.on .empty).upTo steps r : Traffic).parties[place]? = some q)
    {c : ChangeSet} {a : Answer}
    (hc : (place, c) ∈ ((Interleaving.on .empty).upTo steps r : Traffic).journal)
    (hreport : q.task.report c = some a) : Linearized steps place q.task (.ok a) := by
  have h : (Call.charter .empty).Upheld .empty ((Interleaving.on .empty).upTo steps r) :=
    upheld Memory.indexed_empty (steps.take r)
  obtain ⟨j, hj⟩ := exists_prefix_of_mem hc
  obtain ⟨q', drawn, key, stored, ids, ids', x, hq', hsince, -, hcommits⟩ := exists_commits h hj
  obtain rfl := Option.some.inj (hq.symm.trans hq')
  have hj' := (List.prefix_append j [(place, c)]).trans hj
  obtain ⟨n, -, hn, -, hstore⟩ := exists_storeAt hr hq hj' hsince
  have hfew := commitsOn_lt_versions (upheld Memory.indexed_empty steps) hfits
    (hj'.trans (Interleaving.journal_upTo_mono ..)) key
  have haccepted := (Memory.orderly_concat_iff.mp (h.orderly.earlier hj)).2.accepted
  obtain ⟨a', hreport', halone⟩ := Call.alone_execute hcommits.settles hcommits.written
    (hcommits.current hfew) haccepted fun id hid => hcommits.unused id (hcommits.drawn id hid)
  obtain rfl := Option.some.inj (hreport.symm.trans hreport')
  exact ⟨n, hn, hstore ▸ answersAlone halone hcommits.distinct⟩

/-- What an answer of a posting goes by: one store, or the key on one store and the slot on a later
one. -/
theorem linearized_or_refused
    (hfits : ((Interleaving.on .empty).run steps : Traffic).memory.Holdable)
    (hr : UnderWay steps place r)
    (hq : ((Interleaving.on .empty).upTo steps r : Traffic).parties[place]? = some q)
    (hcall : q.task.command = .post cmd) (ha : q.answer? = some a)
    (hcancelled : a ≠ .error .cancelled) (hexhausted : ∀ n, a ≠ .error (.exhausted n)) :
    Linearized steps place q.task a ∨
      ∃ posting e n k, Posting.ofCommand cmd = .ok posting ∧ a = .error (.domain e) ∧ n ≤ k ∧
        UnderWay steps place n ∧ posting.IsFree (storeAt steps n) ∧ UnderWay steps place k ∧
        posting.refusal? ((storeAt steps k).slots.get? posting.slotKey) = some e := by
  have h : (Call.charter .empty).Upheld .empty ((Interleaving.on .empty).upTo steps r) :=
    upheld Memory.indexed_empty (steps.take r)
  rcases h.ensures hq ha with ⟨c, a', hc, hreport, rfl⟩ | ⟨-, hdeclines⟩
  · exact .inl (linearized_of_commits hfits hr hq hc hreport)
  · rw [hcall] at hdeclines
    cases hdeclines with
    | held hposting hsince hj hheld =>
        obtain ⟨n, -, hn, -, hstore⟩ := exists_storeAt hr hq hj hsince
        rw [← hstore] at hheld
        exact .inl ⟨n, hn, answersAlone_held hcall hposting hheld⟩
    | refused hposting hsince hjj hj hfree hrefusal =>
        obtain ⟨n, k, hnk, hn, hstore, hk, hstore'⟩ := exists_storeAt_pair hr hq hjj hj hsince
        rw [← hstore] at hfree
        rw [← hstore'] at hrefusal
        exact .inr ⟨_, _, n, k, hposting, rfl, hnk, hn, hfree, hk, hrefusal⟩
    | invalid hposting =>
        exact .inl ⟨r, hr, answersAlone_invalid hcall hposting⟩
    | other hother => exact absurd rfl (hother cmd)
    | cancelled => exact absurd rfl hcancelled
    | exhausted _ n => exact absurd rfl (hexhausted n)

/-- What is answered as it would be alone at an instant, has not been `Overtaken`. -/
theorem Linearized.not_overtaken (h : Linearized steps place call a)
    (hcall : call.command = .post cmd) : ¬ Overtaken steps place cmd a := by
  rintro ⟨posting, e, hposting, rfl, hnever⟩
  obtain ⟨n, hn, halone⟩ := h
  exact hnever n hn (isRefused_of_answersAlone (indexed_storeAt steps n) hcall hposting halone)

end Traffic

/-- The answer of a posting that is neither cancelled nor exhausted is one that it gets alone at an
instant between its start and its return, exactly if it is not `Overtaken`; and where it is, an
entry has taken its key meanwhile, as `LosesKey` says. -/
theorem linearized_iff_not_overtaken (steps : List (Interleaving.Step Call)) {place : Nat}
    {p : Party Call (Except LedgerError Answer)} {cmd : PostCommand}
    {a : Except LedgerError Answer}
    (hfits : ((Interleaving.on .empty).run steps : Traffic).memory.Holdable)
    (hp : ((Interleaving.on .empty).run steps : Traffic).parties[place]? = some p)
    (hcall : p.task.command = .post cmd) (ha : p.answer? = some a)
    (hcancelled : a ≠ .error .cancelled) (hexhausted : ∀ n, a ≠ .error (.exhausted n)) :
    (Traffic.Linearized steps place p.task a ↔ ¬ Traffic.Overtaken steps place cmd a) ∧
      (Traffic.Overtaken steps place cmd a → Traffic.LosesKey steps place p.task cmd a) := by
  obtain ⟨r, q, hr, hq, hgoes, hqa⟩ := Interleaving.exists_return hp ha
  rw [hgoes.task] at hcall ⊢
  have hcases := Traffic.linearized_or_refused hfits hr hq hcall hqa hcancelled hexhausted
  refine ⟨⟨fun h => h.not_overtaken hcall, fun hnot => ?_⟩, fun hovertaken => ?_⟩
  · rcases hcases with h | ⟨posting, e, -, -, hposting, rfl, -⟩
    · exact h
    · by_contra hnone
      refine hnot ⟨posting, e, hposting, rfl, fun n hn hrefused => hnone ⟨n, hn, ?_⟩⟩
      exact Traffic.answersAlone_refused hcall hposting hrefused
        (Traffic.length_ids_storeAt steps n hfits)
  · obtain ⟨posting, e, hposting, rfl, hnever⟩ := hovertaken
    rcases hcases with h | ⟨posting', e', n, k, hposting', he, hnk, hn, hfree, hk, hrefusal⟩
    · exact absurd ⟨posting, e, hposting, rfl, hnever⟩ (h.not_overtaken hcall)
    · obtain rfl := Except.ok.inj (hposting.symm.trans hposting')
      obtain rfl := LedgerError.domain.inj (Except.error.inj he)
      rcases posting.isFree_or_isHeldBy (Traffic.storeAt steps k) with hfree' | ⟨e₀, hheld⟩
      · exact absurd ⟨hfree', hrefusal⟩ (hnever k hk)
      · exact ⟨posting, e, e₀, n, k, hposting, rfl, hnk, hn, hfree, hk, hheld, hrefusal,
          Traffic.answersAlone_held hcall hposting hheld⟩

def keyedDebit : PostCommand :=
  { PostCommand.debit .nil "MAD" 80 "out" with key := some "k" }

/-- A slot holds 100 when the debit is made twice: the first one has looked the key up, and it reads
the slot when the second one has committed. -/
def racingDebits : List (Interleaving.Step Call) :=
  let start (c : PostCommand) : Interleaving.Step Call := .start { command := .post c }
  let acts (place first count : Nat) : List (Interleaving.Step Call) :=
    (List.range count).map fun n =>
      .act place { now := .epoch, id := ⟨BitVec.ofNat 128 (first + n)⟩ }
  [start (.credit .nil "MAD" 100 "in")] ++ acts 0 0 12 ++ [start keyedDebit, start keyedDebit] ++
    acts 1 100 2 ++ acts 2 200 13 ++ acts 1 300 3

theorem linearized_iff_not_overtaken_racingDebits :
    let s : Traffic := (Interleaving.on .empty).run racingDebits
    let a : Except LedgerError Answer := .error (.domain (.insufficientBalance 80 20))
    ∃ h : 1 < s.parties.length, s.memory.Holdable ∧
      s.parties[1].task.command = .post keyedDebit ∧ s.parties[1].answer? = some a ∧
      (Traffic.Linearized racingDebits 1 s.parties[1].task a ↔
        ¬ Traffic.Overtaken racingDebits 1 keyedDebit a) ∧
      (Traffic.Overtaken racingDebits 1 keyedDebit a →
        Traffic.LosesKey racingDebits 1 s.parties[1].task keyedDebit a) := by
  intro s a
  have hfits : s.memory.Holdable := by
    unfold Memory.Holdable
    decide +kernel
  refine ⟨by decide +kernel, hfits, by decide +kernel, by decide +kernel, ?_⟩
  exact linearized_iff_not_overtaken racingDebits hfits (List.getElem?_eq_getElem _)
    (by decide +kernel) (by decide +kernel) (by simp [a]) (by simp [a])

theorem overtaken_racingDebits :
    Traffic.Overtaken racingDebits 1 keyedDebit
      (.error (.domain (.insufficientBalance 80 20))) := by
  cases hposting : Posting.ofCommand keyedDebit with
  | error e =>
      have hvalid : (Posting.ofCommand keyedDebit).toBool = true := by decide +kernel
      rw [hposting] at hvalid
      exact absurd hvalid (by simp [Except.toBool])
  | ok posting =>
      refine ⟨posting, _, hposting, rfl, fun n _ hrefused => ?_⟩
      have hpre := (Interleaving.on .empty : Traffic).journal_upTo_mono racingDebits n
      -- there are two commits, so three stores
      have hlength : ((Interleaving.on .empty).run racingDebits : Traffic).journal.length < 3 := by
        decide +kernel
      have hstores : ∀ k < 3, ∀ posting ∈ (Posting.ofCommand keyedDebit).toOption,
          ¬ posting.IsRefused (Memory.empty.after
            (((Interleaving.on .empty).run racingDebits : Traffic).journal.take k))
            (.insufficientBalance 80 20) := by
        decide +kernel
      rw [Traffic.storeAt_eq, List.prefix_iff_eq_take.mp hpre] at hrefused
      refine hstores _ (Nat.lt_of_le_of_lt hpre.length_le hlength) posting ?_ hrefused
      rw [hposting]
      rfl

/-- The debit is not answered by the entry that the same debit has made, but as if it had come
after another one: no instant has it so. -/
theorem not_linearized_racingDebits :
    let s : Traffic := (Interleaving.on .empty).run racingDebits
    let a : Except LedgerError Answer := .error (.domain (.insufficientBalance 80 20))
    s.answer? 2 = some (.ok (.posting { entry := ⟨204⟩, status := .posted, balance := 20 })) ∧
      ∃ h : 1 < s.parties.length, s.parties[1].answer? = some a ∧
        ¬ Traffic.Linearized racingDebits 1 s.parties[1].task a := by
  intro s a
  refine ⟨by decide +kernel, by decide +kernel, by decide +kernel, fun hlinearized => ?_⟩
  refine hlinearized.not_overtaken ?_ overtaken_racingDebits
  decide +kernel

end BalanceLedger
