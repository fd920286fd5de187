/-
# `Proofs.Traffic` — what all traffic keeps

Calls that run at the same time on an indexed store keep all their terms, by `upheld`.
The rest of the module reads off what that says of the store, the journal and the outbox
in every interleaving, so that the modules about traffic start from here:

  * the store is indexed (`indexed_run`), and it is the first store after the journal;

  * each call has at most one commit in the journal (`nodup_places`), and that commit
    writes the effect which its command has on the store at that moment
    (`exists_commits`);

  * the messages of a commit are staged for the call that has committed
    (`exists_staged`), and no two of them have the same identifier
    (`nodup_message_ids`).

An outbox is a list in memory, and each commit adds to it, so no journal is as long as a
version goes before it comes round.  `Holdable` says that a store fits a machine, and
`commitsOn_lt_versions` is what it is for.  The stores that it rules out do not exist;
but a list has no bound on its length here, and without one the check of a version could
be passed by a slot that has come all the way round.
-/
import BalanceLedger.Proofs.Calls
import Mathlib.Data.List.Nodup

namespace BalanceLedger

open Store (ChangeSet Memory)

/-- A store that fits a machine: a list in memory has no more elements than its size can say. -/
def Store.Memory.Holdable (m : Memory) : Prop :=
  (m.outbox.length : Int) ≤ Word.maxInt64

namespace Traffic

variable {base : Memory} {s : Traffic} {place : Nat} {c : ChangeSet}
  {j : List (Nat × ChangeSet)}

theorem upheld (hbase : base.Indexed) (steps : List (Interleaving.Step Call)) :
    (Call.charter base).Upheld base ((Interleaving.on base).run steps) :=
  Charter.upheld_run (Call.honoured hbase) steps

theorem indexed_run (hbase : base.Indexed) (steps : List (Interleaving.Step Call)) :
    ((Interleaving.on base).run steps : Traffic).memory.Indexed := by
  have h := upheld hbase steps
  rw [h.memory]
  exact hbase.after h.orderly

/-- Every commit writes an effect that the command of its party has there: it `Commits` in the sense
of its charter. -/
theorem exists_commits (h : (Call.charter base).Upheld base s)
    (hj : j ++ [(place, c)] <+: s.journal) :
    ∃ p drawn key stored ids ids' x, s.parties[place]? = some p ∧ p.since ≤ j.length ∧
      drawn <:+ p.drawn ∧ Call.Commits base p.task place ⟨j, drawn⟩ c key stored ids ids' x := by
  obtain ⟨p, drawn, hp, hsince, hdrawn, key, stored, ids, ids', x, hcommits⟩ := h.due j place c hj
  exact ⟨p, drawn, key, stored, ids, ids', x, hp, hsince, hdrawn, hcommits⟩

theorem nodup_places (h : (Call.charter base).Upheld base s) : (s.journal.map Prod.fst).Nodup := by
  suffices hall : ∀ j, j <+: s.journal → (j.map Prod.fst).Nodup from hall _ (List.prefix_refl _)
  intro j
  induction j using List.reverseRecOn with
  | nil => simp
  | append_singleton j p ih =>
      intro hj
      obtain ⟨place, c⟩ := p
      obtain ⟨_, _, _, _, _, _, _, -, -, -, hcommits⟩ := exists_commits h hj
      rw [List.map_append, List.nodup_append]
      refine ⟨ih ((List.prefix_append ..).trans hj), by simp, ?_⟩
      intro place' hmem place'' hmem' heq
      obtain ⟨q, hq, rfl⟩ := List.mem_map.mp hmem
      obtain rfl := List.mem_singleton.mp hmem'
      exact hcommits.silent q hq heq

theorem eq_of_mem_journal (h : (Call.charter base).Upheld base s) {c' : ChangeSet}
    (hc : (place, c) ∈ s.journal) (hc' : (place, c') ∈ s.journal) : c = c' :=
  (Prod.mk.inj (List.inj_on_of_nodup_map (nodup_places h) hc hc' rfl)).2

theorem exists_prefix_of_mem {p : Nat × ChangeSet} {journal : List (Nat × ChangeSet)}
    (h : p ∈ journal) : ∃ j, j ++ [p] <+: journal := by
  obtain ⟨j, rest, rfl⟩ := List.append_of_mem h
  exact ⟨j, rest, by simp⟩

theorem mem_entries (h : (Call.charter base).Upheld base s) (hc : (place, c) ∈ s.journal)
    {e : Entry} (he : c.entry = some e) : e ∈ s.memory.entries := by
  rw [h.memory, Memory.entries_after]
  exact List.mem_append_right _ (List.mem_flatMap.mpr ⟨_, hc, Option.mem_toList.mpr he⟩)

/-- The messages of a commit announce events for the call that has committed, with identifiers that
its party has drawn. -/
theorem exists_staged (h : (Call.charter base).Upheld base s) (hc : (place, c) ∈ s.journal) :
    ∃ p events ids, s.parties[place]? = some p ∧ ids.Nodup ∧ (∀ id ∈ ids, id ∈ p.drawn) ∧
      World.Staged p.task.origin events ids c.outbox := by
  obtain ⟨j, hj⟩ := exists_prefix_of_mem hc
  obtain ⟨p, drawn, _, _, ids, ids', x, hp, -, hdrawn, hcommits⟩ := exists_commits h hj
  refine ⟨p, x.events, ids', hp, (List.nodup_append.mp hcommits.distinct).2.1, fun id hid => ?_,
    hcommits.written.outbox⟩
  exact hdrawn.subset (hcommits.drawn id (List.mem_append_right _ hid))

theorem outbox_eq (h : (Call.charter .empty).Upheld .empty s) :
    s.memory.outbox = s.journal.flatMap fun p => p.2.outbox := by
  rw [h.memory, Memory.outbox_after]
  rfl

theorem exists_commit_of_mem_outbox (h : (Call.charter .empty).Upheld .empty s)
    {x : Outbox.Message} (hx : x ∈ s.memory.outbox) :
    ∃ place c, (place, c) ∈ s.journal ∧ x ∈ c.outbox := by
  rw [outbox_eq h] at hx
  obtain ⟨⟨place, c⟩, hc, hx⟩ := List.mem_flatMap.mp hx
  exact ⟨place, c, hc, hx⟩

theorem nodup_message_ids (h : (Call.charter base).Upheld base s) :
    ((s.journal.flatMap fun p => p.2.outbox).map Outbox.Message.id).Nodup := by
  rw [List.map_flatMap, List.nodup_flatMap]
  constructor
  · intro p hp
    obtain ⟨_, _, _, -, hnodup, -, hstaged⟩ := exists_staged h hp
    rwa [hstaged.map_id]
  · refine (List.pairwise_map.mp (nodup_places h)).imp_of_mem fun {p q} hp hq hne => ?_
    -- what different parties have drawn is different
    obtain ⟨a, _, _, ha, -, hdrawn, hstaged⟩ := exists_staged h hp
    obtain ⟨b, _, _, hb, -, hdrawn', hstaged'⟩ := exists_staged h hq
    intro id hid hid'
    dsimp only at hid hid'
    rw [hstaged.map_id] at hid
    rw [hstaged'.map_id] at hid'
    exact h.apart p.1 q.1 a b ha hb hne id (hdrawn id hid) (hdrawn' id hid')

/-- No version has come round while the store is `Holdable`. -/
theorem commitsOn_lt_versions (h : (Call.charter base).Upheld base s) (hfits : s.memory.Holdable)
    (hj : j <+: s.journal) (key : Slot.Key) : Memory.commitsOn key j < Memory.versions := by
  have hrows := Memory.length_outbox_after h.orderly
  rw [← h.memory] at hrows
  have hlength := hj.length_le
  have hcount : Memory.commitsOn key j ≤ j.length := List.countP_le_length
  unfold Memory.Holdable Word.maxInt64 at hfits
  unfold Memory.versions Word.maxNat64
  omega

theorem length_entries_after_le (h : (Call.charter .empty).Upheld .empty s)
    (hfits : s.memory.Holdable) (hj : j <+: s.journal) :
    ((Memory.empty.after j).entries.length : Int) ≤ Word.maxInt64 := by
  have hrows := Memory.length_outbox_after h.orderly
  rw [← h.memory] at hrows
  have hentries := Memory.length_entries_after .empty j
  have hlength := hj.length_le
  have hempty : (Memory.empty.entries).length = 0 := rfl
  unfold Memory.Holdable at hfits
  omega

end Traffic

end BalanceLedger
