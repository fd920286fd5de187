/-
# `Proofs.Ordering` — messages are claimed in the order of commits

Whoever claims messages takes the oldest ones first, and of those that occurred at one
time the one that stands first in the outbox.  When a message occurred was noted by a
call that was still planning, and messages stand in the outbox in the order in which the
calls have committed, so there are two orders here.  For the messages of one slot they
are one: that in which the commits on the slot have counted up its version.

So messages of one slot are handed out in the order in which they were announced, in
whatever way calls, claims, verdicts and purges have come between each other.  A message
is passed over only if it could not be claimed itself, which is `IsWithheld`.

The parties are those of `Duty`, callers and single requests that are no commits, so
that nothing is assumed of who works on the outbox.  `claims_in_commit_order` says for
all of them what `Sequenced` says of a slot.  It takes three things:

  * the dates of announced messages are in order, `pairwise_announcedOn`, by the rules
    about dates;

  * the rows of the outbox stand in the order in which they were announced,
    `sublist_rowsOf`, whatever has become of them since;

  * a claim takes the first rows that it can, `chosen_prefix`, since its sort leaves
    what is in order as it is.
-/
import BalanceLedger.Proofs.Dating
import BalanceLedger.Proofs.Errands

namespace BalanceLedger

open Outbox (Message Status)
open Store (ChangeSet Memory)
open Time (Instant)

/-! ## Sorted lists -/

section

variable {α : Type} {le : α → α → Bool} {p : α → Bool} {l t : List α}

theorem filter_mergeSort (trans : ∀ a b c, le a b = true → le b c = true → le a c = true)
    (total : ∀ a b, (le a b || le b a) = true)
    (h : (l.filter p).Pairwise fun a b => le a b = true) :
    (l.mergeSort le).filter p = l.filter p := by
  have hsublist := (List.sublist_mergeSort trans total h List.filter_sublist).filter p
  rw [List.filter_filter] at hsublist
  simp only [Bool.and_self] at hsublist
  refine (hsublist.eq_of_length ?_).symm
  exact ((List.mergeSort_perm l le).filter p).length_eq.symm

theorem pairwise_of_prefix_filter (hl : l.Nodup) (h : t <+: l.filter p) :
    l.Pairwise fun a b => b ∈ t → a ∉ t → p a = false := by
  induction l generalizing t with
  | nil => exact .nil
  | cons a l ih =>
      obtain ⟨hnot, hrest⟩ := List.nodup_cons.mp hl
      cases ha : p a with
      | false =>
          rw [List.filter_cons_of_neg (by simp [ha])] at h
          exact List.pairwise_cons.mpr ⟨fun _ _ _ _ => ha, ih hrest h⟩
      | true =>
          rw [List.filter_cons_of_pos ha] at h
          cases t with
          | nil => exact List.pairwise_of_forall fun _ _ hb => absurd hb List.not_mem_nil
          | cons b t =>
              obtain ⟨rfl, htail⟩ := List.cons_prefix_cons.mp h
              refine List.pairwise_cons.mpr
                ⟨fun _ _ _ hnone => absurd List.mem_cons_self hnone, ?_⟩
              refine (ih hrest htail).imp_of_mem fun {c d} _ hd hother hfirst hnone => ?_
              refine hother ?_ fun hc => hnone (List.mem_cons_of_mem _ hc)
              exact (List.mem_cons.mp hfirst).resolve_left fun heq => hnot (heq ▸ hd)

end

/-! ## Duties -/

/-- What a party does: it executes a command, or it asks the store one thing that is not a
commit. -/
inductive Duty where
  | call (c : Call)
  | ask (q : Store.Request) (h : ∀ c, q ≠ .commit c)

namespace Duty

inductive Result where
  | call (r : Except LedgerError Answer)
  | ask (q : Store.Request) (r : q.Reply)

instance : Task Duty Result where
  program
    | .call c => Result.call <$> c.execute.run
    | .ask q _ => Result.ask q <$> World.store q

def asking (q : Store.Request) : Conduct World Unit where
  may _ request := request = .store q
  hears := World.IsGiven
  moved s _ _ := s

theorem careful (duty : Duty) : Basis.Careful (Task.program duty) := by
  cases duty with
  | call c => exact c.careful_execute.map _
  | ask q h =>
      intro s
      refine ⟨?_, fun _ _ => trivial⟩
      cases q with
      | commit c => exact absurd rfl (h c)
      | _ => trivial

end Duty

theorem Turn.brings_of_made? {t : Turn World} {c : ChangeSet} (h : t.made? = some c) :
    t.brings = c.outbox := by
  obtain ⟨request, reply⟩ := t
  cases request with
  | store q =>
      cases q with
      | commit c' =>
          cases reply with
          | ok _ => exact congrArg ChangeSet.outbox (Option.some.inj h)
          | error _ => exact absurd h (by simp [made?])
      | _ => exact absurd h (by simp [made?])
  | _ => exact absurd h (by simp [made?])

namespace Interleaving

theorem sublist_drawn (base : Memory) (steps : List (Step Duty)) (place : Nat) :
    ((((on base).dialogue steps place).flatMap Turn.brings).map Message.id).Sublist
      (((on base).dialogue steps place).flatMap Turn.drawn) := by
  cases hq : ((on base).run steps).parties[place]? with
  | none =>
      rw [dialogue_eq_nil hq]
      exact List.Sublist.refl _
  | some q =>
      cases htask : q.task with
      | call c =>
          have hkeeps : (Call.conduct c.origin).Keeps (Task.program q.task)
              (fun _ _ => True) {} := by
            rw [htask]
            refine (congrFun (Program.wp_map _ _ _) _).mpr ?_
            exact Program.wp_mono Conduct.mono_asks (fun _ _ _ => trivial) _ _ c.keeps_execute
          have hallows := (keeps_run hq hkeeps fun _ _ h => h).1
          exact (List.sublist_append_left _ _).trans (Call.sublist_after hallows)
      | ask request hrequest =>
          have hkeeps : (Duty.asking request).Keeps (Task.program q.task)
              (fun _ _ => True) () := by
            rw [htask]
            exact ⟨rfl, fun _ _ => trivial⟩
          have hallows := (keeps_run hq hkeeps fun _ _ h => h).1
          have hnothing : ((on base).dialogue steps place).flatMap Turn.brings = [] := by
            refine List.flatMap_eq_nil_iff.mpr fun t ht => ?_
            obtain ⟨before, after, hsplit⟩ := List.append_of_mem ht
            have hmay : t.request = .store request := hallows before t (by simp [hsplit])
            obtain ⟨_, reply⟩ := t
            obtain rfl := hmay
            cases request with
            | commit c => exact absurd rfl (hrequest c)
            | _ => rfl
          rw [hnothing]
          exact List.nil_sublist _

theorem sublist_announced (l : List Utterance) :
    (((l.filterMap Utterance.made?).flatMap fun p => p.2.outbox).map Message.id).Sublist
      (l.flatMap fun u => u.turn.brings.map Message.id) := by
  induction l with
  | nil => exact List.Sublist.refl _
  | cons u l ih =>
      rw [List.flatMap_cons]
      cases hmade : u.turn.made? with
      | none =>
          rw [List.filterMap_cons_none (by rw [Utterance.made?, hmade]; rfl)]
          exact ih.trans (List.sublist_append_right ..)
      | some c =>
          have hsome : u.made? = some (u.place, c) := by
            rw [Utterance.made?, hmade]
            rfl
          rw [List.filterMap_cons_some hsome, List.flatMap_cons, List.map_append,
            Turn.brings_of_made? hmade]
          exact ih.append_left _

theorem nodup_announced (steps : List (Step Duty)) :
    ((((on .empty).run steps).journal.flatMap fun p => p.2.outbox).map Message.id).Nodup := by
  rw [journal_run]
  exact (nodup_brings_of_dialogues (sublist_drawn .empty steps)).sublist (sublist_announced _)

/-- The messages of the outbox have been announced, and stand there in the order in which that was
done. -/
theorem sublist_outbox {τ α : Type} [Task τ α]
    (hcareful : ∀ task : τ, Basis.Careful (Task.program task)) (steps : List (Step τ)) :
    let s : Interleaving τ α := (on .empty).run steps
    (s.memory.outbox.map Message.label).Sublist
      ((s.journal.flatMap fun p => p.2.outbox).map Message.label) := by
  intro s
  induction steps using List.reverseRecOn with
  | nil => exact List.Sublist.refl _
  | append_singleton steps x ih =>
      have hrun : s = ((on .empty).run steps).step x := run_concat _ steps x
      rw [hrun]
      cases x with
      | act place w =>
          rcases act_heard ((on .empty : Interleaving τ α).run steps) place w with
            ⟨-, hact⟩ | ⟨p, request, next, hp, hrest, -, -, hact⟩
          · rw [step, hact]
            exact ih
          · obtain ⟨-, hkeeps⟩ := keeps_run hp (hcareful p.task {}) fun _ _ _ => trivial
            rw [hrest] at hkeeps
            rw [step, hact]
            rcases answered_cases _ place p w next hkeeps.1 with
              ⟨c, -, -, hmemory, hjournal⟩ | ⟨⟨outbox, hmemory, hlabel⟩, hjournal⟩
            · rw [hmemory, hjournal, Memory.outbox_write, List.flatMap_append,
                List.flatMap_singleton, List.map_append, List.map_append]
              exact ih.append_right _
            · rw [hmemory, hjournal]
              exact hlabel.trans ih
      | _ => exact ih

end Interleaving

/-! ## The rows of a slot -/

/-- What cannot be claimed: it has come to its end, or it is under a claim that is not old enough. -/
def Outbox.Message.IsWithheld (staleBefore : Instant) (x : Message) : Prop :=
  x.status = .completed ∨ x.status = .failed ∨
    x.status = .processing ∧ ∃ t, x.claimedAt = some t ∧ staleBefore ≤ t

theorem Outbox.Message.isWithheld_of_not_eligible {staleBefore : Instant} {x : Message}
    (h : Memory.isEligible staleBefore x = false) : x.IsWithheld staleBefore := by
  unfold Memory.isEligible at h
  cases hs : x.status with
  | pending => simp [hs] at h
  | completed => exact .inl hs
  | failed => exact .inr (.inl hs)
  | processing =>
      refine .inr (.inr ⟨hs, ?_⟩)
      cases ht : x.claimedAt with
      | none => simp [hs, ht] at h
      | some t =>
          rw [hs, ht] at h
          have hfresh : ¬ t < staleBefore := of_decide_eq_false h
          exact ⟨t, rfl, hfresh⟩

namespace Store.Memory

/-- The messages that a journal has announced for a slot: by commits, and for each commit in the
order in which they were emitted. -/
def announcedOn (key : Slot.Key) (journal : List (Nat × ChangeSet)) : List Message :=
  (changesOn key journal).flatMap ChangeSet.outbox

def rowsOf (m : Memory) (announced : List Message) : List (Message × Nat) :=
  m.outbox.zipIdx.filter fun p => p.1.id ∈ announced.map Message.id

/-- Rows go by `occurredAt`, and by their places where the times are the same. -/
def isBefore (p q : Message × Nat) : Bool :=
  p.1.occurredAt < q.1.occurredAt ∨ p.1.occurredAt = q.1.occurredAt ∧ p.2 ≤ q.2

theorem isBefore_of_le {p q : Message × Nat} (htime : p.1.occurredAt ≤ q.1.occurredAt)
    (hplace : p.2 ≤ q.2) : isBefore p q = true := by
  refine decide_eq_true ?_
  by_cases hlt : p.1.occurredAt < q.1.occurredAt
  · exact .inl hlt
  · refine .inr ⟨?_, hplace⟩
    have hback : q.1.occurredAt ≤ p.1.occurredAt := hlt
    rw [Time.Instant.le_iff] at htime hback
    cases hp : p.1.occurredAt
    cases hq : q.1.occurredAt
    simp only [hp, hq] at htime hback
    congr 1 <;> omega

variable {m : Memory} {announced all : List Message}

theorem map_fst_rowsOf (m : Memory) (announced : List Message) :
    (m.rowsOf announced).map Prod.fst =
      m.outbox.filter fun x => x.id ∈ announced.map Message.id := by
  have hfilter := List.filter_map (f := Prod.fst) (l := m.outbox.zipIdx)
    (p := fun x : Message => decide (x.id ∈ announced.map Message.id))
  rw [List.zipIdx_map_fst] at hfilter
  exact hfilter.symm

theorem pairwise_rowsOf (m : Memory) (announced : List Message) :
    (m.rowsOf announced).Pairwise fun p q => p.2 < q.2 := by
  refine List.Pairwise.sublist List.filter_sublist (List.pairwise_map.mp ?_)
  rw [List.zipIdx_map_snd]
  exact List.pairwise_lt_range' 1

theorem nodup_rowsOf (m : Memory) (announced : List Message) : (m.rowsOf announced).Nodup := by
  refine (pairwise_rowsOf m announced).imp fun {p q} h heq => ?_
  rw [heq] at h
  exact Nat.lt_irrefl _ h

theorem filter_mem_ids (hsub : announced.Sublist all) (hall : (all.map Message.id).Nodup) :
    all.filter (fun x => x.id ∈ announced.map Message.id) = announced := by
  induction hsub with
  | slnil => rfl
  | cons x hsub ih =>
      obtain ⟨hnot, hrest⟩ := List.nodup_cons.mp hall
      have hother : x.id ∉ List.map Message.id _ := fun h => hnot ((hsub.map _).subset h)
      rw [List.filter_cons_of_neg (by simpa using hother), ih hrest]
  | cons_cons x hsub ih =>
      obtain ⟨hnot, hrest⟩ := List.nodup_cons.mp hall
      rw [List.filter_cons_of_pos (by simp), List.cons_inj_right]
      refine Eq.trans (List.filter_congr fun y hy => ?_) (ih hrest)
      have hne : y.id ≠ x.id := fun h => hnot (h ▸ List.mem_map_of_mem hy)
      simp [hne]

/-- The `rowsOf` some of the announced messages stand in the order in which these were announced. -/
theorem sublist_rowsOf (hrows : (m.outbox.map Message.label).Sublist (all.map Message.label))
    (hsub : announced.Sublist all) (hall : (all.map Message.id).Nodup) :
    ((m.rowsOf announced).map fun p => p.1.label).Sublist (announced.map Message.label) := by
  have hfilter := hrows.filter fun label => decide (label.1 ∈ announced.map Message.id)
  rw [List.filter_map, List.filter_map] at hfilter
  have hmine : all.filter ((fun label => decide (label.1 ∈ announced.map Message.id)) ∘
      Message.label) = announced := filter_mem_ids hsub hall
  rw [hmine] at hfilter
  have hlabels : (m.rowsOf announced).map (fun p => p.1.label) =
      ((m.rowsOf announced).map Prod.fst).map Message.label := by
    rw [List.map_map]
    rfl
  rw [hlabels, map_fst_rowsOf]
  exact hfilter

/-! ## Claims -/

/-- Of rows in order, those that are `chosen` are the first that can be claimed. -/
theorem chosen_prefix (hsorted : (m.rowsOf announced).Pairwise fun p q =>
      p.1.occurredAt ≤ q.1.occurredAt) (batch : Nat) (staleBefore : Instant) :
    (m.chosen batch staleBefore).filter (fun p => p.1.id ∈ announced.map Message.id) <+:
      (m.rowsOf announced).filter fun p => isEligible staleBefore p.1 := by
  have hcomm : (m.outbox.zipIdx.filter fun p => isEligible staleBefore p.1).filter
      (fun p => p.1.id ∈ announced.map Message.id) =
        (m.rowsOf announced).filter fun p => isEligible staleBefore p.1 := by
    rw [rowsOf, List.filter_filter, List.filter_filter]
    exact List.filter_congr fun _ _ => Bool.and_comm ..
  have hfirst : (m.eligible staleBefore).filter (fun p => p.1.id ∈ announced.map Message.id) =
      (m.rowsOf announced).filter fun p => isEligible staleBefore p.1 := by
    rw [eligible, filter_mergeSort, hcomm]
    · intro p q r hpq hqr
      exact decide_eq_true
        (Time.Instant.le_trans (of_decide_eq_true hpq) (of_decide_eq_true hqr))
    · exact fun p q => by simpa using Time.Instant.le_total p.1.occurredAt q.1.occurredAt
    · rw [hcomm]
      exact (hsorted.sublist List.filter_sublist).imp fun h => decide_eq_true h
  rw [← hfirst]
  exact (List.take_prefix batch _).filter _

/-- A row is handed out exactly if it is `chosen`. -/
theorem mem_claimed_iff (hm : m.Distinct) {batch : Nat} {staleBefore now : Instant}
    {p : Message × Nat} (hp : p ∈ m.rowsOf announced) :
    p.1.id ∈ (m.claim batch staleBefore now).1.map Message.id ↔
      p ∈ (m.chosen batch staleBefore).filter fun p => p.1.id ∈ announced.map Message.id := by
  obtain ⟨hplace, hmine⟩ := List.mem_filter.mp hp
  rw [List.mem_filter, claim_eq, List.map_map, List.mem_map]
  constructor
  · rintro ⟨q, hq, hid⟩
    obtain ⟨hplace', -⟩ := of_mem_eligible (List.mem_of_mem_take hq)
    obtain ⟨hmessage, hindex⟩ :=
      hm.eq_of_id_eq hplace' (List.mem_zipIdx_iff_getElem?.mp hplace) hid
    exact ⟨Prod.ext hmessage hindex ▸ hq, hmine⟩
  · rintro ⟨hq, -⟩
    exact ⟨p, hq, rfl⟩

theorem map_id_claimed (batch : Nat) (staleBefore now : Instant) :
    ((m.claim batch staleBefore now).1.map Message.id).filter
        (fun id => id ∈ announced.map Message.id) =
      ((m.chosen batch staleBefore).filter fun p => p.1.id ∈ announced.map Message.id).map
        fun p => p.1.id := by
  rw [claim_eq, List.map_map, List.filter_map]
  rfl

end Store.Memory

open Store.Memory (announcedOn changesOn isBefore)

namespace Dated

variable {m : Memory} {journal : List (Nat × ChangeSet)} {readings : List Instant}
  {basis : Nat → Basis}

/-- What was announced for a slot later occurred later. -/
theorem pairwise_announcedOn (h : Dated m journal readings basis) (key : Slot.Key) :
    ((announcedOn key journal).map Message.occurredAt).Pairwise (· ≤ ·) := by
  refine (h.sorted key).sublist ?_
  rw [announcedOn, List.map_flatMap]
  exact List.Sublist.flatMap_right _ fun c _ => List.sublist_append_right ..

/-- As long as versions count commits, the version that a commit writes is its number. -/
theorem toInt_version (h : Dated m journal readings basis) {key : Slot.Key}
    (hfew : (Memory.commitsOn key journal : Int) ≤ Word.maxInt64) {n : Nat} {c : ChangeSet}
    (hc : (changesOn key journal)[n]? = some c) : c.slot.version.toInt = (n : Int) + 1 := by
  have hn := (List.getElem?_eq_some_iff.mp hc).1
  rw [Memory.length_changesOn] at hn
  rw [h.counted key n c hc, Word.toInt_ofNat_of_le (by omega)]
  rfl

end Dated

/-- The messages of a slot are claimed in the order in which they were announced. -/
structure Interleaving.Sequenced (s : Interleaving Duty Duty.Result) (key : Slot.Key) : Prop where
  /-- That is the order in which commits have counted up the version of the slot. -/
  numbered : ∀ (n : Nat) c, (changesOn key s.journal)[n]? = some c →
    c.slot.version.toInt = (n : Int) + 1
  distinct : ((announcedOn key s.journal).map Message.id).Nodup
  /-- Sorted by time and place, the rows of the slot are in that order. -/
  sorted : (((s.memory.rowsOf (announcedOn key s.journal)).mergeSort isBefore).map
    fun p => p.1.id).Sublist ((announcedOn key s.journal).map Message.id)
  /-- So is what a claim hands out of them, and what it passes over is withheld. -/
  claimed : ∀ now batch staleBefore, ∃ claimed,
    (s.memory.answer now (.claim batch staleBefore)).1 = .ok claimed ∧
      ((claimed.map Message.id).filter fun id =>
        id ∈ (announcedOn key s.journal).map Message.id).Sublist
          ((announcedOn key s.journal).map Message.id) ∧
      ((s.memory.rowsOf (announcedOn key s.journal)).mergeSort isBefore).Pairwise
        fun earlier later => later.1.id ∈ claimed.map Message.id →
          earlier.1.id ∉ claimed.map Message.id → earlier.1.IsWithheld staleBefore

/-- Calls of any kind, on a store in which nothing has happened, and anything that can be asked of
its outbox come between each other in any way: the messages of every slot are claimed in the order
of the commits, as long as the clock does not step back and the versions count the commits. -/
theorem claims_in_commit_order (steps : List (Interleaving.Step Duty)) :
    let start : Interleaving Duty Duty.Result := .on .empty
    let s := start.run steps
    start.Steady steps →
      (∀ key, (Memory.commitsOn key s.journal : Int) ≤ Word.maxInt64) →
      ∀ key, Interleaving.Sequenced s key := by
  intro start s hsteady hfew key
  have hversions : ∀ key, Memory.commitsOn key s.journal < Memory.versions := by
    intro key
    have hcount : (Memory.commitsOn key s.journal : Int) ≤ Word.maxInt64 := hfew key
    unfold Word.maxInt64 at hcount
    unfold Memory.versions Word.maxNat64
    omega
  have hdated := Interleaving.dated_run Duty.careful steps hsteady hversions
  have hall := Interleaving.nodup_announced steps
  have houtbox := Interleaving.sublist_outbox Duty.careful steps
  have hsub : (announcedOn key s.journal).Sublist (s.journal.flatMap fun p => p.2.outbox) := by
    rw [announcedOn, changesOn, List.flatMap_map]
    exact List.Sublist.flatMap List.filter_sublist _
  have hrows := Memory.sublist_rowsOf houtbox hsub hall
  have hids : ((s.memory.rowsOf (announcedOn key s.journal)).map fun p => p.1.id).Sublist
      ((announcedOn key s.journal).map Message.id) := by
    have hfirst := hrows.map Prod.fst
    rwa [List.map_map, List.map_map] at hfirst
  have htimes : (s.memory.rowsOf (announcedOn key s.journal)).Pairwise fun p q =>
      p.1.occurredAt ≤ q.1.occurredAt := by
    have hsecond := hrows.map Prod.snd
    rw [List.map_map, List.map_map] at hsecond
    exact List.pairwise_map.mp ((hdated.pairwise_announcedOn key).sublist hsecond)
  have hranked : (s.memory.rowsOf (announcedOn key s.journal)).mergeSort isBefore =
      s.memory.rowsOf (announcedOn key s.journal) := by
    refine List.mergeSort_of_pairwise ?_
    exact (htimes.and (Memory.pairwise_rowsOf _ _)).imp fun h =>
      Memory.isBefore_of_le h.1 (Nat.le_of_lt h.2)
  have hdistinct : s.memory.Distinct := by
    refine List.Nodup.sublist ?_ hall
    have hfirst := houtbox.map Prod.fst
    rwa [List.map_map, List.map_map] at hfirst
  refine ⟨fun n c => hdated.toInt_version (hfew key), hall.sublist (hsub.map _), ?_,
    fun now batch staleBefore => ⟨(s.memory.claim batch staleBefore now).1, rfl, ?_, ?_⟩⟩
  · rw [hranked]
    exact hids
  · rw [Memory.map_id_claimed]
    refine List.Sublist.trans (List.Sublist.map _ ?_) hids
    exact (Memory.chosen_prefix htimes batch staleBefore).sublist.trans List.filter_sublist
  · rw [hranked]
    refine (pairwise_of_prefix_filter (Memory.nodup_rowsOf _ _)
      (Memory.chosen_prefix htimes batch staleBefore)).imp_of_mem fun {p q} hp hq hpassed => ?_
    rw [Memory.mem_claimed_iff hdistinct hp, Memory.mem_claimed_iff hdistinct hq]
    exact fun hchosen hnot => Message.isWithheld_of_not_eligible (hpassed hchosen hnot)

/-- A credit has dated its messages when another one, on another slot, is carried out as a whole, so
it announces older messages than that one, but later.  On its slot a reservation loses the race to
a debit and is dated anew.  Then three messages are claimed, and one of them is delivered. -/
def overtakenCredit : List (Interleaving.Step Duty) :=
  let call (command : Command) : Interleaving.Step Duty := .start (.call { command })
  let acts (place first count : Nat) : List (Interleaving.Step Duty) :=
    (List.range count).map fun (n : Nat) =>
      .act place {
        now := { Instant.epoch with seconds := (first + n : Nat) }
        id := ⟨BitVec.ofNat 128 (first + n)⟩ }
  [call (.post (.credit .nil "MAD" 100 "in")), call (.post (.credit ⟨1⟩ "MAD" 50 "in"))] ++
    acts 0 0 9 ++ acts 1 20 12 ++ acts 0 40 3 ++
    [call (.earmark .reserve { account := .nil, currency := "MAD", amount := 30 }),
      call (.post (.debit .nil "MAD" 20 "out"))] ++
    acts 2 50 3 ++ acts 3 60 12 ++ acts 2 80 20 ++
    [.start (.ask (.claim 3 .epoch) (by simp))] ++ acts 4 120 1 ++
    [.start (.ask (.complete ⟨5⟩ { Instant.epoch with seconds := 120 }) (by simp))] ++ acts 5 130 1

theorem claims_in_commit_order_overtakenCredit :
    let start : Interleaving Duty Duty.Result := .on .empty
    let s := start.run overtakenCredit
    start.Steady overtakenCredit ∧
      (∀ key, (Memory.commitsOn key s.journal : Int) ≤ Word.maxInt64) ∧
      (s.journal.flatMap fun p => p.2.outbox.map fun x => x.occurredAt.seconds) =
        [26, 28, 6, 8, 66, 68, 90] ∧
      ∀ key, Interleaving.Sequenced s key := by
  intro start s
  have hsteady : start.Steady overtakenCredit := by decide +kernel
  have hfew : ∀ key, (Memory.commitsOn key s.journal : Int) ≤ Word.maxInt64 := by
    intro key
    refine Int.le_trans (Int.ofNat_le.mpr List.countP_le_length) ?_
    decide +kernel
  exact ⟨hsteady, hfew, by decide +kernel, claims_in_commit_order overtakenCredit hsteady hfew⟩

end BalanceLedger
