/-
# `Proofs.Serializability` — traffic has the outcome of a serial run

However calls come between each other, the calls that have committed could have been
made one after the other, each alone, in the order of their commits: with the same
identifiers and the same readings of the clock, the store is the same in the end and
each of these calls gets the same answer.  `serializable` says so for every list of
steps, from every store that earlier calls have left; `Serialized` spells out what is
the same.

The serial run is an interleaving too, one in which nobody comes between: `inTurn` gives
each call all its moments before the next one starts.  So both sides of the comparison
are computed by the same `run`, and no second notion of execution has to be trusted.

The induction is on the journal, and `Redoes` is the invariant.  A commit writes the
effect that its command has on the store at that moment, which is the store that the
turns so far have left; so one more turn makes the same commit, by `Call.alone_execute`.
What the call did before its last attempt, and what the others did meanwhile, has left
no trace in the store.  Calls that have committed nothing have no turn: they could not
have one, since what they have read need not have been there at one time.
-/
import BalanceLedger.Proofs.Traffic

namespace BalanceLedger

open Store (ChangeSet Memory)

namespace Interleaving

variable {τ : Type}

/-- Tasks that are carried out one after the other, each alone: the next one starts when the one
before has had all its moments. -/
def serial (turns : List (τ × List Moment)) : List (Step τ) :=
  turns.zipIdx.flatMap fun (turn, n) => .start turn.1 :: turn.2.map (.act n)

theorem serial_concat (turns : List (τ × List Moment)) (turn : τ × List Moment) :
    serial (turns ++ [turn]) =
      serial turns ++ (.start turn.1 :: turn.2.map (.act turns.length)) := by
  simp [serial, List.zipIdx_append]

end Interleaving

namespace Traffic

variable {base : Memory} {s : Traffic} {j : List (Nat × ChangeSet)}

/-- The interleaving of calls that are made in turn. -/
def inTurn (base : Memory) (turns : List (Call × List Moment)) : Traffic :=
  (Interleaving.on base).run (Interleaving.serial turns)

/-- Turns do again, one after the other, what the journal `j` says that the calls of an interleaving
have done. -/
structure Redoes (base : Memory) (s : Traffic) (j : List (Nat × ChangeSet))
    (turns : List (Call × List Moment)) : Prop where
  memory : (inTurn base turns).memory = base.after j
  length : turns.length = j.length
  parties : (inTurn base turns).parties.length = j.length
  turn : ∀ (n place : Nat) (c : ChangeSet), j[n]? = some (place, c) →
    ∃ (p q : Party Call (Except LedgerError Answer)) (a : Answer) (ws : List Moment),
      s.parties[place]? = some p ∧ p.task.report c = some a ∧ turns[n]? = some (p.task, ws) ∧
        (inTurn base turns).parties[n]? = some q ∧ q.answer? = some (.ok a) ∧ q.drawn ⊆ p.drawn

theorem redoes_nil : Redoes base s [] [] where
  memory := rfl
  length := rfl
  parties := rfl
  turn := by simp

/-- One more commit is one more turn. -/
theorem Redoes.concat (h : (Call.charter base).Upheld base s) {place : Nat} {c : ChangeSet}
    (hj : j ++ [(place, c)] <+: s.journal)
    (hfew : ∀ key, Memory.commitsOn key j < Memory.versions) {turns : List (Call × List Moment)}
    (ht : Redoes base s j turns) : ∃ turn, Redoes base s (j ++ [(place, c)]) (turns ++ [turn]) := by
  obtain ⟨p, drawn, key, stored, ids, ids', x, hp, -, hdrawn, hcommits⟩ := exists_commits h hj
  have haccepted := (Memory.orderly_concat_iff.mp (h.orderly.earlier hj)).2.accepted
  obtain ⟨a, hreport, halone⟩ := Call.alone_execute hcommits.settles hcommits.written
    (hcommits.current (hfew key)) haccepted fun id hid =>
      hcommits.unused id (hcommits.drawn id hid)
  -- the parties of the other turns have drawn no more than the parties of other places
  have hnew : ∀ id ∈ ids ++ ids', ∀ q ∈ (inTurn base turns).parties, id ∉ q.drawn := by
    intro id hid q hq hmem
    obtain ⟨n, hn⟩ := List.mem_iff_getElem?.mp hq
    have hlt : n < j.length := ht.parties ▸ (List.getElem?_eq_some_iff.mp hn).1
    obtain ⟨p', q', -, -, hp', -, -, hq', -, hsub⟩ :=
      ht.turn n j[n].1 j[n].2 (List.getElem?_eq_getElem hlt)
    obtain rfl := Option.some.inj (hn.symm.trans hq')
    have hne : place ≠ j[n].1 := (hcommits.silent _ (List.getElem_mem hlt)).symm
    exact h.apart place _ p p' hp hp' hne id (hdrawn.subset (hcommits.drawn id hid)) (hsub hmem)
  rw [← ht.memory] at halone
  obtain ⟨ws, q, hmemory, hparties, hanswer, -, hsub⟩ :=
    Alone.exists_turn (inTurn base turns) p.task halone hcommits.distinct hnew
  have hrun : inTurn base (turns ++ [(p.task, ws)]) = (inTurn base turns).run
      (.start p.task :: ws.map (.act (inTurn base turns).parties.length)) := by
    rw [inTurn, Interleaving.serial_concat, Interleaving.run_append, ht.parties, ht.length]
    rfl
  rw [← hrun] at hmemory hparties
  refine ⟨(p.task, ws), ?_, ?_, ?_, ?_⟩
  · rw [hmemory, ht.memory, Memory.after_concat]
  · simp [ht.length]
  · simp [hparties, ht.parties]
  · intro n place' c' hn
    rcases Interleaving.getElem?_concat_cases hn with hn | ⟨rfl, hlast⟩
    · obtain ⟨p', q', a', ws', hp', hreport', hturn, hq', hrest⟩ := ht.turn n place' c' hn
      refine ⟨p', q', a', ws', hp', hreport', ?_, ?_, hrest⟩
      · rw [List.getElem?_append_left (List.getElem?_eq_some_iff.mp hturn).1, hturn]
      · rw [hparties, List.getElem?_append_left (List.getElem?_eq_some_iff.mp hq').1, hq']
    · obtain ⟨rfl, rfl⟩ := Prod.mk.inj hlast
      refine ⟨p, q, a, ws, hp, hreport, ?_, ?_, hanswer, ?_⟩
      · rw [← ht.length, List.getElem?_concat_length]
      · rw [hparties, ← ht.parties, List.getElem?_concat_length]
      · intro id hid
        exact hdrawn.subset (hcommits.drawn id (hsub hid))

theorem exists_redoes (h : (Call.charter base).Upheld base s)
    (hfew : ∀ j key, j <+: s.journal → Memory.commitsOn key j < Memory.versions) :
    ∀ j, j <+: s.journal → ∃ turns, Redoes base s j turns := by
  intro j
  induction j using List.reverseRecOn with
  | nil => exact fun _ => ⟨[], redoes_nil⟩
  | append_singleton j p ih =>
      intro hj
      have hj' := (List.prefix_append j [p]).trans hj
      obtain ⟨turns, hturns⟩ := ih hj'
      obtain ⟨turn, hturn⟩ := hturns.concat h hj (hfew j · hj')
      exact ⟨_, hturn⟩

/-- Whatever a call has answered that has committed, is what it reports of its commit. -/
theorem eq_of_answer (h : (Call.charter base).Upheld base s) {place : Nat} {c : ChangeSet}
    (hc : (place, c) ∈ s.journal) {p : Party Call (Except LedgerError Answer)}
    (hp : s.parties[place]? = some p) {a : Answer} (hreport : p.task.report c = some a)
    {answer : Except LedgerError Answer} (hanswer : p.answer? = some answer) : answer = .ok a := by
  rcases h.ensures hp hanswer with ⟨c', a', hc', hreport', rfl⟩ | ⟨hsilent, -⟩
  · obtain rfl := eq_of_mem_journal h hc hc'
    rw [Option.some.inj (hreport.symm.trans hreport')]
  · exact absurd rfl (hsilent _ hc)

/-- The calls of an interleaving that have committed have done what they do when they are made in
turn, each alone, in the order of their commits. -/
structure Serialized (start : Memory) (s : Traffic) (turns : List (Call × List Moment)) :
    Prop where
  /-- No call is among them twice. -/
  once : (s.journal.map Prod.fst).Nodup
  length : turns.length = s.journal.length
  /-- The slots, the log, the tables and the outbox are the same in the end. -/
  memory : (inTurn start turns).memory = s.memory
  /-- Each of them gets the answer that it has got, or is going to get. -/
  answers : ∀ (n place : Nat) (c : ChangeSet), s.journal[n]? = some (place, c) →
    ∃ (p : Party Call (Except LedgerError Answer)) (ws : List Moment) (a : Answer),
      s.parties[place]? = some p ∧ turns[n]? = some (p.task, ws) ∧
        (inTurn start turns).answer? n = some (.ok a) ∧
        ∀ answer, s.answer? place = some answer → answer = .ok a

end Traffic

/-- Calls of any kind, on a store that earlier calls have left, come between each other in any way:
the outcome is that of the calls that have committed, made `inTurn`. -/
theorem serializable (earlier steps : List (Interleaving.Step Call)) :
    let start := ((Interleaving.on .empty).run earlier : Traffic).memory
    let s : Traffic := (Interleaving.on start).run steps
    s.memory.Holdable → ∃ turns, Traffic.Serialized start s turns := by
  intro start s hfits
  have hstart : start.Indexed := Traffic.indexed_run Memory.indexed_empty earlier
  have h : (Call.charter start).Upheld start s := Traffic.upheld hstart steps
  obtain ⟨turns, hturns⟩ := Traffic.exists_redoes h
    (fun j key hj => Traffic.commitsOn_lt_versions h hfits hj key) s.journal (List.prefix_refl _)
  refine ⟨turns, Traffic.nodup_places h, hturns.length, hturns.memory.trans h.memory.symm, ?_⟩
  intro n place c hn
  obtain ⟨p, q, a, ws, hp, hreport, hturn, hq, hanswer, -⟩ := hturns.turn n place c hn
  refine ⟨p, ws, a, hp, hturn, ?_, fun answer hanswer => ?_⟩
  · unfold Interleaving.answer?
    rw [hq]
    exact hanswer
  · unfold Interleaving.answer? at hanswer
    rw [hp] at hanswer
    exact Traffic.eq_of_answer h (List.mem_of_getElem? hn) hp hreport hanswer

/-- Two credits of one slot: the first one has read the slot when the second one commits, so it is
refused and has to plan again. -/
def racingCredits : List (Interleaving.Step Call) :=
  let credit (n : Int64) : Call := { command := .post (.credit .nil "MAD" n "in") }
  let acts (place first count : Nat) : List (Interleaving.Step Call) :=
    (List.range count).map fun n =>
      .act place { now := .epoch, id := ⟨BitVec.ofNat 128 (first + n)⟩ }
  [.start (credit 100), .start (credit 20)] ++ acts 0 0 5 ++ acts 1 100 12 ++ acts 0 200 20

theorem serializable_racingCredits :
    let s : Traffic := (Interleaving.on .empty).run racingCredits
    s.memory.Holdable ∧ s.journal.map Prod.fst = [1, 0] ∧
      ∃ turns, Traffic.Serialized .empty s turns :=
  ⟨by unfold Memory.Holdable; decide +kernel, by decide +kernel,
    serializable [] racingCredits (by unfold Memory.Holdable; decide +kernel)⟩

end BalanceLedger
