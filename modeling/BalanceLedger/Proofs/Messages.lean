/-
# `Proofs.Messages` — what requests do to a message

A message of the outbox is found by its id.  What a request does to the outbox is said
here for the message of one id at a time, as its `Fate`: a commit adds messages and
leaves the old ones; a claim takes an eligible message, and hands out what it has made
of it; a verdict changes the message of its id if that is held under its claim, and is
refused otherwise; a purge deletes what has expired.  Everything else only reads.
`fate` says that this is all, and what is said elsewhere of the life of a message is an
induction with `fate` as its step.

A claim works by places and a verdict by ids, so a claim of a message says nothing of
its id unless ids are `Distinct`.  They stay so if what is added has new ids.  The store
does not see to that; it is up to those who write the messages.

A verdict is a request that says of a claimed message what has become of it.  `Verdict`
is what these requests have in common, so that completing, recording a failure and
giving up are proved at once, by `verdict_accepted_or_refused`.

A claim goes by the order in which the eligible messages are sorted.  The sort is
stable, so it can be worked out by insertion, message by message, which
`eligible_eq_insertionSort` puts in its place.
-/
import BalanceLedger.Proofs.Journal
import Mathlib.Data.List.Nodup
import Mathlib.Data.List.Sort

namespace BalanceLedger

/-! ## The order of instants -/

namespace Time.Instant

theorem lt_irrefl (t : Instant) : ¬ t < t := by
  rintro (h | ⟨-, h⟩)
  · exact Int.lt_irrefl _ h
  · exact Nat.lt_irrefl _ h

theorem not_le_of_lt {s t : Instant} (h : s < t) : ¬ t ≤ s :=
  fun hle => hle h

theorem le_iff {s t : Instant} :
    s ≤ t ↔ s.seconds < t.seconds ∨ s.seconds = t.seconds ∧ s.nanos ≤ t.nanos := by
  show ¬ (t.seconds < s.seconds ∨ t.seconds = s.seconds ∧ t.nanos < s.nanos) ↔ _
  omega

theorem le_trans {s t u : Instant} (h : s ≤ t) (h' : t ≤ u) : s ≤ u := by
  rw [le_iff] at h h' ⊢
  omega

theorem le_total (s t : Instant) : s ≤ t ∨ t ≤ s := by
  rw [le_iff, le_iff]
  omega

end Time.Instant

/-! ## Stable sorting -/

theorem orderedInsert_append {α : Type} {r : α → α → Prop} [DecidableRel r] {a : α}
    {before after : List α} (hbefore : ∀ b ∈ before, ¬ r a b) (hafter : ∀ b ∈ after, r a b) :
    List.orderedInsert r a (before ++ after) = before ++ a :: after := by
  induction before with
  | nil =>
      cases after with
      | nil => rfl
      | cons b after => exact if_pos (hafter b List.mem_cons_self)
  | cons b before ih =>
      rw [List.cons_append, List.orderedInsert, if_neg (hbefore b List.mem_cons_self),
        ih fun b' hb' => hbefore b' (List.mem_cons_of_mem _ hb')]
      rfl

/-- Where all can be compared, sorting by insertion is the same as sorting by merging, also for
those that are alike. -/
theorem mergeSort_eq_insertionSort_of_total {α : Type} {le : α → α → Bool}
    (trans : ∀ a b c, le a b = true → le b c = true → le a c = true)
    (total : ∀ a b, (le a b || le b a) = true) (l : List α) :
    l.mergeSort le = l.insertionSort fun a b => le a b = true := by
  induction l with
  | nil => rw [List.mergeSort_nil, List.insertionSort_nil]
  | cons a l ih =>
      obtain ⟨before, after, hsorted, htail, hbefore⟩ := List.mergeSort_cons trans total a l
      have hpairwise := List.pairwise_mergeSort trans total (a :: l)
      rw [hsorted] at hpairwise
      obtain ⟨-, hafter, -⟩ := List.pairwise_append.mp hpairwise
      rw [hsorted, List.insertionSort_cons, ← ih, htail]
      refine (orderedInsert_append (fun b hb => ?_) fun b hb => ?_).symm
      · simpa using hbefore b hb
      · exact (List.pairwise_cons.mp hafter).1 b hb

namespace Store

open Outbox (Message Status)
open Time (Instant)

/-! ## Messages by their ids -/

def messageOf? (id : Uuid) (messages : List Message) : Option Message :=
  messages.find? fun x => x.id = id

variable {messages more : List Message} {x : Message} {id id' : Uuid}

theorem messageOf?_mem (h : messageOf? id messages = some x) : x ∈ messages ∧ x.id = id := by
  have hid := List.find?_some h
  exact ⟨List.mem_of_find?_eq_some h, of_decide_eq_true hid⟩

theorem messageOf?_eq_none_iff : messageOf? id messages = none ↔ id ∉ messages.map Message.id := by
  simp [messageOf?]

theorem messageOf?_append :
    messageOf? id (messages ++ more) = (messageOf? id messages).or (messageOf? id more) :=
  List.find?_append

theorem messageOf?_eq_some_iff (h : (messages.map Message.id).Nodup) :
    messageOf? id messages = some x ↔ x ∈ messages ∧ x.id = id := by
  refine ⟨messageOf?_mem, ?_⟩
  rintro ⟨hx, rfl⟩
  cases hfound : messageOf? x.id messages with
  | none =>
      exact absurd (List.mem_map_of_mem hx) (messageOf?_eq_none_iff.mp hfound)
  | some y =>
      obtain ⟨hy, hid⟩ := messageOf?_mem hfound
      rw [List.inj_on_of_nodup_map h hy hx hid]

namespace Memory

variable {m m' : Memory}

def message? (m : Memory) (id : Uuid) : Option Message :=
  messageOf? id m.outbox

def Distinct (m : Memory) : Prop :=
  (m.outbox.map Message.id).Nodup

/-! ## Commits -/

theorem message?_write (m : Memory) (c : ChangeSet) (id : Uuid) :
    (m.write c).message? id = (m.message? id).or (messageOf? id c.outbox) := by
  rw [message?, outbox_write, messageOf?_append, message?]

theorem Distinct.of_map_id (h : m.Distinct) {m' : Memory}
    (hids : m'.outbox.map Message.id = m.outbox.map Message.id) : m'.Distinct :=
  (congrArg List.Nodup hids).mpr h

theorem Distinct.write (h : m.Distinct) {c : ChangeSet} (hc : (c.outbox.map Message.id).Nodup)
    (hnew : ∀ x ∈ c.outbox, m.message? x.id = none) : (m.write c).Distinct := by
  unfold Distinct
  rw [outbox_write, List.map_append]
  refine List.nodup_append.mpr ⟨h, hc, ?_⟩
  intro id hid id' hid' heq
  obtain ⟨x, hx, rfl⟩ := List.mem_map.mp hid'
  exact messageOf?_eq_none_iff.mp (hnew x hx) (heq ▸ hid)

/-! ## Verdicts -/

end Memory

/-- What is said of a message that has been claimed: whose it is, under which claim it is held, and
what becomes of it. -/
structure Verdict where
  id : Uuid
  stamp : Instant
  change : Message → Message

/-- The verdict that a request is. -/
def Request.verdict? (now : Instant) : Request → Option Verdict
  | .complete id stamp => some ⟨id, stamp, Memory.delivered now⟩
  | .recordFailure id stamp error maxRetries =>
    some ⟨id, stamp, Memory.undelivered error maxRetries⟩
  | .markFailed id stamp error => some ⟨id, stamp, Memory.parked error⟩
  | _ => none

/-- A verdict lets go of the message and says nothing of which message it is. -/
structure Verdict.Releases (v : Verdict) : Prop where
  id : ∀ x, (v.change x).id = x.id
  status : ∀ x, (v.change x).status ≠ .processing
  claimedAt : ∀ x, (v.change x).claimedAt = none

theorem Request.verdict?_releases {now : Instant} {q : Request} {v : Verdict}
    (h : q.verdict? now = some v) : v.Releases := by
  cases q with
  | complete id stamp =>
      obtain rfl := Option.some.inj h
      exact ⟨fun _ => rfl, fun _ => by simp [Memory.delivered], fun _ => rfl⟩
  | recordFailure id stamp error maxRetries =>
      obtain rfl := Option.some.inj h
      refine ⟨fun _ => rfl, fun x => ?_, fun _ => rfl⟩
      simp only [Memory.undelivered]
      split <;> simp
  | markFailed id stamp error =>
      obtain rfl := Option.some.inj h
      exact ⟨fun _ => rfl, fun _ => by simp [Memory.parked], fun _ => rfl⟩
  | _ => exact absurd h (by simp [verdict?])

namespace Memory

variable {m m' : Memory}

/-- What `changeHeld` changes is the message of the id, which is held under the claim. -/
theorem changeHeld_ok {stamp : Instant} {change : Message → Message} {changed : Message}
    {after : List Message} (hkeep : ∀ x, (change x).id = x.id)
    (h : changeHeld id stamp change messages = .ok (changed, after)) :
    ∃ x, messageOf? id messages = some x ∧ isHeld stamp x = true ∧ changed = change x ∧
      after.map Message.id = messages.map Message.id ∧
      ∀ id', messageOf? id' after =
        if id' = id then some (change x) else messageOf? id' messages := by
  induction messages generalizing after with
  | nil => exact absurd h (by simp [changeHeld])
  | cons y rest ih =>
      unfold changeHeld at h
      by_cases hy : y.id = id
      · rw [if_pos hy] at h
        split at h
        · rename_i hheld
          obtain ⟨rfl, rfl⟩ := Prod.mk.inj (Except.ok.inj h)
          refine ⟨y, by simp [messageOf?, hy], hheld, rfl, by simp [hkeep], fun id' => ?_⟩
          by_cases hid : id' = id
          · simp [messageOf?, hkeep, hy, hid]
          · simp [messageOf?, hkeep, hy, hid, Ne.symm hid]
        · exact absurd h (by simp)
      · rw [if_neg hy] at h
        cases hrest : changeHeld id stamp change rest with
        | error e =>
            rw [hrest] at h
            exact absurd h (by simp [Except.map])
        | ok r =>
            obtain ⟨changed', after'⟩ := r
            rw [hrest] at h
            obtain ⟨rfl, rfl⟩ := Prod.mk.inj (Except.ok.inj h)
            obtain ⟨x, hx, hheld, rfl, hids, hafter⟩ := ih hrest
            refine ⟨x, by simpa [messageOf?, hy] using hx, hheld, rfl, by simp [hids], fun id' => ?_⟩
            by_cases hid : y.id = id'
            · simp [messageOf?, hid, hid ▸ hy]
            · have := hafter id'
              simpa [messageOf?, hid] using this

theorem map_changeHeld {β : Type} {f : Message → β} {stamp : Instant} {change : Message → Message}
    {changed : Message} {after : List Message} (hkeep : ∀ x, f (change x) = f x)
    (h : changeHeld id stamp change messages = .ok (changed, after)) :
    after.map f = messages.map f := by
  induction messages generalizing after with
  | nil => exact absurd h (by simp [changeHeld])
  | cons y rest ih =>
      unfold changeHeld at h
      split at h
      · split at h
        · obtain ⟨-, rfl⟩ := Prod.mk.inj (Except.ok.inj h)
          rw [List.map_cons, List.map_cons, hkeep]
        · exact absurd h (by simp)
      · cases hrest : changeHeld id stamp change rest with
        | error e =>
            rw [hrest] at h
            exact absurd h (by simp [Except.map])
        | ok r =>
            rw [hrest] at h
            obtain ⟨rfl, rfl⟩ := Prod.mk.inj (Except.ok.inj h)
            rw [List.map_cons, List.map_cons, ih hrest]

theorem changeHeld_error {stamp : Instant} {change : Message → Message} {f : StoreError}
    (h : changeHeld id stamp change messages = .error f) :
    f = .notClaimed id ∧ ∀ x, messageOf? id messages = some x → isHeld stamp x = false := by
  induction messages with
  | nil => exact ⟨(Except.error.inj h).symm, fun x hx => absurd hx (by simp [messageOf?])⟩
  | cons y rest ih =>
      unfold changeHeld at h
      by_cases hy : y.id = id
      · rw [if_pos hy] at h
        split at h
        · exact absurd h (by simp)
        · rename_i hheld
          refine ⟨(Except.error.inj h).symm, fun x hx => ?_⟩
          obtain rfl : y = x := by simpa [messageOf?, hy] using hx
          simpa using hheld
      · rw [if_neg hy] at h
        cases hrest : changeHeld id stamp change rest with
        | error e =>
            rw [hrest] at h
            obtain rfl := Except.error.inj h
            obtain ⟨hf, hnone⟩ := ih hrest
            exact ⟨hf, fun x hx => hnone x (by simpa [messageOf?, hy] using hx)⟩
        | ok r =>
            rw [hrest] at h
            exact absurd h (by simp [Except.map])

theorem answer_of_changeHeld_ok {now : Instant} {q : Request} {v : Verdict} {changed : Message}
    {after : List Message} (hq : q.verdict? now = some v)
    (h : changeHeld v.id v.stamp v.change m.outbox = .ok (changed, after)) :
    ∃ a, m.answer now q = (.ok a, { m with outbox := after }) := by
  cases q with
  | complete id stamp =>
      obtain rfl := Option.some.inj hq
      exact ⟨(), by simp [answer, finish, h, settle, Except.map]⟩
  | recordFailure id stamp error maxRetries =>
      obtain rfl := Option.some.inj hq
      exact ⟨changed.status, by simp [answer, finish, h, settle, Except.map]⟩
  | markFailed id stamp error =>
      obtain rfl := Option.some.inj hq
      exact ⟨(), by simp [answer, finish, h, settle, Except.map]⟩
  | _ => exact absurd hq (by simp [Request.verdict?])

theorem answer_of_changeHeld_error {now : Instant} {q : Request} {v : Verdict} {f : StoreError}
    (hq : q.verdict? now = some v)
    (h : changeHeld v.id v.stamp v.change m.outbox = .error f) :
    m.answer now q = (.error f, m) := by
  cases q with
  | complete id stamp =>
      obtain rfl := Option.some.inj hq
      simp [answer, finish, h, settle, Except.map]
  | recordFailure id stamp error maxRetries =>
      obtain rfl := Option.some.inj hq
      simp [answer, finish, h, settle, Except.map]
  | markFailed id stamp error =>
      obtain rfl := Option.some.inj hq
      simp [answer, finish, h, settle, Except.map]
  | _ => exact absurd hq (by simp [Request.verdict?])

/-- A verdict is accepted exactly if the message of its id is held under its claim; it changes that
message then, and no other. -/
theorem verdict_accepted_or_refused (m : Memory) {now : Instant} {q : Request} {v : Verdict}
    (hq : q.verdict? now = some v) :
    (∃ x a, m.message? v.id = some x ∧ isHeld v.stamp x = true ∧ (m.answer now q).1 = .ok a ∧
        (m.answer now q).2.outbox.map Message.id = m.outbox.map Message.id ∧
        ∀ id, (m.answer now q).2.message? id =
          if id = v.id then some (v.change x) else m.message? id) ∨
      (∀ x, m.message? v.id = some x → isHeld v.stamp x = false) ∧
        m.answer now q = (.error (.notClaimed v.id), m) := by
  cases hheld : changeHeld v.id v.stamp v.change m.outbox with
  | ok r =>
      obtain ⟨changed, after⟩ := r
      obtain ⟨x, hx, hstamp, -, hids, hafter⟩ :=
        changeHeld_ok (Request.verdict?_releases hq).id hheld
      obtain ⟨a, hanswer⟩ := answer_of_changeHeld_ok hq hheld
      rw [hanswer]
      exact .inl ⟨x, a, hx, hstamp, rfl, hids, hafter⟩
  | error f =>
      obtain ⟨rfl, hnone⟩ := changeHeld_error hheld
      exact .inr ⟨hnone, answer_of_changeHeld_error hq hheld⟩

/-! ## Claims -/

variable {batch : Nat} {staleBefore now : Instant}

theorem eligible_eq_insertionSort (m : Memory) (staleBefore : Instant) :
    m.eligible staleBefore =
      (m.outbox.zipIdx.filter fun p => isEligible staleBefore p.1).insertionSort
        fun p q => decide (p.1.occurredAt ≤ q.1.occurredAt) = true := by
  refine mergeSort_eq_insertionSort_of_total (fun p q r hpq hqr => ?_) (fun p q => ?_) _
  · exact decide_eq_true (Time.Instant.le_trans (of_decide_eq_true hpq) (of_decide_eq_true hqr))
  · simpa using Time.Instant.le_total p.1.occurredAt q.1.occurredAt

theorem of_mem_eligible {p : Message × Nat} (h : p ∈ m.eligible staleBefore) :
    m.outbox[p.2]? = some p.1 ∧ isEligible staleBefore p.1 = true := by
  obtain ⟨hmem, heligible⟩ := List.mem_filter.mp (List.mem_mergeSort.mp h)
  exact ⟨List.mem_zipIdx_iff_getElem?.mp hmem, heligible⟩

def chosen (m : Memory) (batch : Nat) (staleBefore : Instant) : List (Message × Nat) :=
  (m.eligible staleBefore).take batch

theorem claim_eq (m : Memory) (batch : Nat) (staleBefore now : Instant) :
    m.claim batch staleBefore now =
      ((m.chosen batch staleBefore).map fun p => take now p.1,
        { m with outbox := m.outbox.zipIdx.map fun p =>
            if ((m.chosen batch staleBefore).map Prod.snd).contains p.2 then take now p.1
            else p.1 }) :=
  rfl

/-- A claim leaves the messages in their places, and what `take` does not touch of them. -/
theorem map_claim {β : Type} {f : Message → β} (hf : ∀ t x, f (take t x) = f x) (m : Memory)
    (batch : Nat) (staleBefore now : Instant) :
    (m.claim batch staleBefore now).2.outbox.map f = m.outbox.map f := by
  rw [claim_eq]
  have hkeep : ∀ p : Message × Nat, f (if ((m.chosen batch staleBefore).map Prod.snd).contains p.2
      then take now p.1 else p.1) = f p.1 := by
    intro p
    split
    · exact hf now p.1
    · rfl
  rw [List.map_map]
  calc m.outbox.zipIdx.map _ = m.outbox.zipIdx.map fun p => f p.1 :=
        List.map_congr_left fun p _ => hkeep p
    _ = (m.outbox.zipIdx.map Prod.fst).map f := by rw [List.map_map]; rfl
    _ = m.outbox.map f := by rw [List.zipIdx_map_fst]

theorem map_id_claim (m : Memory) (batch : Nat) (staleBefore now : Instant) :
    (m.claim batch staleBefore now).2.outbox.map Message.id = m.outbox.map Message.id :=
  map_claim (fun _ _ => rfl) m batch staleBefore now

/-- A claim takes what it has chosen, where it stands. -/
theorem getElem?_claim (batch : Nat) (staleBefore now : Instant) {i : Nat}
    (hx : m.outbox[i]? = some x) :
    (m.claim batch staleBefore now).2.outbox[i]? =
      some (if (x, i) ∈ m.chosen batch staleBefore then take now x else x) := by
  have hplace : ((m.chosen batch staleBefore).map Prod.snd).contains i = true ↔
      (x, i) ∈ m.chosen batch staleBefore := by
    rw [List.contains_iff_mem, List.mem_map]
    constructor
    · rintro ⟨⟨y, k⟩, hy, rfl⟩
      obtain ⟨hplace, -⟩ := of_mem_eligible (List.mem_of_mem_take hy)
      rwa [Option.some.inj (hx.symm.trans hplace)]
    · exact fun h => ⟨(x, i), h, rfl⟩
  rw [claim_eq, List.getElem?_map, List.getElem?_zipIdx, hx]
  simp only [Option.map_some, Nat.zero_add]
  exact congrArg some (if_congr hplace rfl rfl)

theorem Distinct.eq_of_id_eq (h : m.Distinct) {i k : Nat} {x y : Message}
    (hx : m.outbox[i]? = some x) (hy : m.outbox[k]? = some y) (hid : x.id = y.id) :
    x = y ∧ i = k := by
  refine ⟨List.inj_on_of_nodup_map h (List.mem_of_getElem? hx) (List.mem_of_getElem? hy) hid, ?_⟩
  have hlt := (List.getElem?_eq_some_iff.mp hx).1
  refine (List.getElem?_inj (by rwa [List.length_map]) h).mp ?_
  rw [List.getElem?_map, List.getElem?_map, hx, hy, Option.map_some, Option.map_some, hid]

theorem of_mem_claimed {y : Message} (h : y ∈ (m.claim batch staleBefore now).1) :
    ∃ x i, m.outbox[i]? = some x ∧ isEligible staleBefore x = true ∧
      (x, i) ∈ m.chosen batch staleBefore ∧ y = take now x := by
  obtain ⟨⟨x, i⟩, hp, rfl⟩ := List.mem_map.mp h
  obtain ⟨hplace, heligible⟩ := of_mem_eligible (List.mem_of_mem_take hp)
  exact ⟨x, i, hplace, heligible, hp, rfl⟩

/-- A claim takes the message of an id, which can be claimed, and hands out what it has made of it;
or it does neither. -/
theorem claim_takes_or_leaves (hm : m.Distinct) (batch : Nat) (staleBefore now : Instant)
    (id : Uuid) :
    let r := m.claim batch staleBefore now
    (∃ x, m.message? id = some x ∧ isEligible staleBefore x = true ∧
        messageOf? id r.1 = some (take now x) ∧ r.2.message? id = some (take now x)) ∨
      messageOf? id r.1 = none ∧ r.2.message? id = m.message? id := by
  intro r
  have hr : r.2.Distinct := hm.of_map_id (m.map_id_claim batch staleBefore now)
  cases hout : messageOf? id r.1 with
  | some y =>
      obtain ⟨hy, hid⟩ := messageOf?_mem hout
      obtain ⟨x, i, hx, heligible, hchosen, rfl⟩ := of_mem_claimed hy
      have hafter := getElem?_claim batch staleBefore now hx
      rw [if_pos hchosen] at hafter
      refine .inl ⟨x, ?_, heligible, rfl, ?_⟩
      · exact (messageOf?_eq_some_iff hm).mpr ⟨List.mem_of_getElem? hx, hid⟩
      · exact (messageOf?_eq_some_iff hr).mpr ⟨List.mem_of_getElem? hafter, hid⟩
  | none =>
      refine .inr ⟨rfl, ?_⟩
      cases hfound : m.message? id with
      | none =>
          have hnone := messageOf?_eq_none_iff.mp hfound
          rw [← map_id_claim m batch staleBefore now] at hnone
          exact messageOf?_eq_none_iff.mpr hnone
      | some x =>
          obtain ⟨hx, rfl⟩ := messageOf?_mem hfound
          obtain ⟨i, hi⟩ := List.mem_iff_getElem?.mp hx
          have hnot : (x, i) ∉ m.chosen batch staleBefore := by
            intro hchosen
            exact messageOf?_eq_none_iff.mp hout
              (List.mem_map.mpr ⟨take now x, List.mem_map.mpr ⟨(x, i), hchosen, rfl⟩, rfl⟩)
          have hafter := getElem?_claim batch staleBefore now hi
          rw [if_neg hnot] at hafter
          exact (messageOf?_eq_some_iff hr).mpr ⟨List.mem_of_getElem? hafter, rfl⟩

/-- What a claim hands out could be claimed, and is held where it stands. -/
theorem held_of_mem_claimed (hm : m.Distinct) {y : Message}
    (hy : y ∈ (m.claim batch staleBefore now).1) :
    (∃ x, m.message? y.id = some x ∧ isEligible staleBefore x = true ∧ y = take now x) ∧
      (m.claim batch staleBefore now).2.message? y.id = some y ∧
      ∃ stamp, y.claimedAt = some stamp ∧ isHeld stamp y = true := by
  obtain ⟨x, i, hx, heligible, hchosen, rfl⟩ := of_mem_claimed hy
  have hplace := getElem?_claim batch staleBefore now hx
  rw [if_pos hchosen] at hplace
  have hafter : (m.claim batch staleBefore now).2.Distinct :=
    hm.of_map_id (m.map_id_claim batch staleBefore now)
  refine ⟨⟨x, ?_, heligible, rfl⟩, ?_, claimTime x.claimedAt now, rfl, by simp [isHeld, take]⟩
  · exact (messageOf?_eq_some_iff hm).mpr ⟨List.mem_of_getElem? hx, rfl⟩
  · exact (messageOf?_eq_some_iff hafter).mpr ⟨List.mem_of_getElem? hplace, rfl⟩

/-! ## Purges -/

theorem message?_purge (hm : m.Distinct) (cutoff : Instant) (id : Uuid) :
    (m.purge cutoff).2.message? id =
      (m.message? id).filter fun x => !isExpired cutoff x := by
  have hafter : (m.purge cutoff).2.Distinct := hm.sublist (List.filter_sublist.map _)
  cases hfound : m.message? id with
  | none =>
      refine messageOf?_eq_none_iff.mpr fun hid => ?_
      exact messageOf?_eq_none_iff.mp hfound ((List.filter_sublist.map _).subset hid)
  | some x =>
      obtain ⟨hx, rfl⟩ := messageOf?_mem hfound
      rw [Option.filter_some]
      split
      · rename_i hkept
        exact (messageOf?_eq_some_iff hafter).mpr ⟨List.mem_filter.mpr ⟨hx, hkept⟩, rfl⟩
      · rename_i hexpired
        refine messageOf?_eq_none_iff.mpr fun hid => ?_
        obtain ⟨y, hy, heq⟩ := List.mem_map.mp hid
        obtain ⟨hy, hkept⟩ := List.mem_filter.mp hy
        exact hexpired (List.inj_on_of_nodup_map hm hy hx heq ▸ hkept)

end Memory

/-! ## Everything that can happen to a message -/

/-- The messages that an answer hands out; only a `.claim` does. -/
def Request.handed : (q : Request) → q.Reply → List Message
  | .claim .., .ok messages => messages
  | _, _ => []

theorem Request.handed_of_verdict? {now : Instant} {q : Request} {v : Verdict}
    (h : q.verdict? now = some v) (reply : q.Reply) : q.handed reply = [] := by
  cases q with
  | claim => exact absurd h (by simp [verdict?])
  | _ => rfl

/-- What a request does to the message of an id, and what its answer tells of that: it leaves the
message alone, or it brings, takes, changes or deletes it. -/
inductive Fate (now : Instant) (q : Request) (reply : q.Reply) (id : Uuid) :
    Option Message → Option Message → Prop
  | left (found : Option Message) : messageOf? id (q.handed reply) = none →
      (∀ v, q.verdict? now = some v → v.id = id → reply.toBool = false) →
      Fate now q reply id found found
  | brought {c : ChangeSet} {x : Message} : q = .commit c → x ∈ c.outbox → x.id = id →
      Fate now q reply id none (some x)
  | taken {batch : Nat} {staleBefore : Instant} {x : Message} : q = .claim batch staleBefore →
      Memory.isEligible staleBefore x = true →
      messageOf? id (q.handed reply) = some (Memory.take now x) →
      Fate now q reply id (some x) (some (Memory.take now x))
  | changed {v : Verdict} {x : Message} : q.verdict? now = some v → v.id = id →
      Memory.isHeld v.stamp x = true → reply.toBool = true →
      Fate now q reply id (some x) (some (v.change x))
  | expired {cutoff : Instant} {x : Message} : q = .purge cutoff →
      Memory.isExpired cutoff x = true → Fate now q reply id (some x) none

namespace Memory

theorem exists_claim_of_mem_handed {m : Memory} {now : Instant} {q : Request} {x : Message}
    (h : x ∈ q.handed (m.answer now q).1) :
    ∃ batch staleBefore, q = .claim batch staleBefore ∧ x ∈ (m.claim batch staleBefore now).1 := by
  cases q with
  | claim batch staleBefore => exact ⟨batch, staleBefore, rfl, h⟩
  | _ => exact absurd h List.not_mem_nil

section

variable {m : Memory} {now : Instant} {id : Uuid}

theorem fate_of_verdict? {q : Request} {v : Verdict} (hq : q.verdict? now = some v) :
    Fate now q (m.answer now q).1 id (m.message? id) ((m.answer now q).2.message? id) := by
  have hhanded : messageOf? id (q.handed (m.answer now q).1) = none := by
    rw [Request.handed_of_verdict? hq]
    rfl
  rcases m.verdict_accepted_or_refused hq with ⟨x, a, hx, hheld, hreply, -, hafter⟩ | ⟨-, hanswer⟩
  · rw [hafter id]
    by_cases hid : id = v.id
    · subst hid
      rw [if_pos rfl, hx]
      exact .changed hq rfl hheld (by rw [hreply]; rfl)
    · rw [if_neg hid]
      refine .left _ hhanded fun v' hv' hid' => absurd hid'.symm ?_
      rwa [← Option.some.inj (hq.symm.trans hv')]
  · have hmemory : (m.answer now q).2.message? id = m.message? id := by rw [hanswer]
    rw [hmemory]
    exact .left _ hhanded fun _ _ _ => by rw [hanswer]; rfl

theorem fate_of_commit (c : ChangeSet) :
    Fate now (.commit c) (m.answer now (.commit c)).1 id (m.message? id)
      ((m.answer now (.commit c)).2.message? id) := by
  have hnone : ∀ v, (Request.commit c).verdict? now = some v → v.id = id →
      (m.answer now (.commit c)).1.toBool = false := fun v hv => absurd hv (by simp [Request.verdict?])
  cases hfault : m.fault? c with
  | some f =>
      rw [congrArg Prod.snd (answer_commit_refused hfault now)]
      exact .left _ rfl hnone
  | none =>
      rw [congrArg Prod.snd (answer_commit_accepted hfault now), message?_write]
      cases hfound : m.message? id with
      | some x => exact .left _ rfl hnone
      | none =>
          cases hbrought : messageOf? id c.outbox with
          | none => exact .left _ rfl hnone
          | some x =>
              obtain ⟨hx, hid⟩ := messageOf?_mem hbrought
              exact .brought rfl hx hid

theorem fate_of_claim (hm : m.Distinct) (batch : Nat) (staleBefore : Instant) :
    Fate now (.claim batch staleBefore) (m.answer now (.claim batch staleBefore)).1 id
      (m.message? id) ((m.answer now (.claim batch staleBefore)).2.message? id) := by
  show Fate now (.claim batch staleBefore) (.ok (m.claim batch staleBefore now).1) id
    (m.message? id) ((m.claim batch staleBefore now).2.message? id)
  rcases claim_takes_or_leaves hm batch staleBefore now id with
    ⟨x, hx, heligible, hout, hafter⟩ | ⟨hout, hafter⟩
  · rw [hx, hafter]
    exact .taken rfl heligible hout
  · rw [hafter]
    exact .left _ hout fun v hv => absurd hv (by simp [Request.verdict?])

theorem fate_of_purge (hm : m.Distinct) (cutoff : Instant) :
    Fate now (.purge cutoff) (m.answer now (.purge cutoff)).1 id (m.message? id)
      ((m.answer now (.purge cutoff)).2.message? id) := by
  have hnone : ∀ v, (Request.purge cutoff).verdict? now = some v → v.id = id →
      (m.answer now (.purge cutoff)).1.toBool = false :=
    fun v hv => absurd hv (by simp [Request.verdict?])
  have hafter : (m.answer now (.purge cutoff)).2.message? id =
      (m.message? id).filter fun x => !isExpired cutoff x := message?_purge hm cutoff id
  rw [hafter]
  cases hfound : m.message? id with
  | none => exact .left _ rfl hnone
  | some x =>
      cases hexpired : isExpired cutoff x with
      | true =>
          rw [Option.filter_some, hexpired]
          exact .expired rfl hexpired
      | false =>
          rw [Option.filter_some, hexpired]
          exact .left _ rfl hnone

/-- Nothing else happens to a message: whatever is asked of the store, the message of an id meets a
`Fate`. -/
theorem fate (hm : m.Distinct) (now : Instant) (q : Request) (id : Uuid) :
    Fate now q (m.answer now q).1 id (m.message? id) ((m.answer now q).2.message? id) := by
  cases hq : q.verdict? now with
  | some v => exact fate_of_verdict? hq
  | none =>
      cases q with
      | commit c => exact fate_of_commit c
      | claim batch staleBefore => exact fate_of_claim hm batch staleBefore
      | purge cutoff => exact fate_of_purge hm cutoff
      | complete => exact absurd hq (by simp [Request.verdict?])
      | recordFailure => exact absurd hq (by simp [Request.verdict?])
      | markFailed => exact absurd hq (by simp [Request.verdict?])
      | _ => exact .left _ rfl fun v hv => absurd hv (by simp [Request.verdict?])

end

end Memory

end Store

end BalanceLedger
