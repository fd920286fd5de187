/-
# `Proofs.Identity` — a store in memory takes ids on trust

A commit is refused for its version, for its key or for what it voids, never for an id.
So an id can come twice into the log, and twice into the outbox, and nothing happens at
once.  What happens shows later.  The table of places leads an id to the last entry that
has it, so the entries before are lost to every look-up, also to those by their own
keys.  A verdict goes to the first message of its id, so a second one can be claimed but
not settled.

`ids_on_trust` is the result, and `TrustsIds` has its two halves.  What holds in any
case is weaker than `Indexed`, and it is found by asking what a commit of any kind
leaves of the tables: `Charted`, of which `FindsLast` is what can be observed.  What
holds under a condition is the condition itself and what follows from it.  Ids stay
unique exactly if no commit that is accepted repeats one, `uniqueIds_iff`; as long as
they do, an entry is found as it was accepted for all time, and a message that has been
handed out can be settled under its stamp until it is handed out again or settled.

`twinCredits` is a run in which they do not: two credits of one id are accepted, and
neither is found as it was.
-/
import BalanceLedger.Proofs.Representation

namespace BalanceLedger

open Outbox (Message)
open Store (ChangeSet Memory Request Fate messageOf? messageOf?_eq_none_iff)
open Time (Instant)

namespace Store.Memory

variable {m : Memory} {c : ChangeSet}

/-! ## Unique ids -/

/-- No two entries have the same id, and no two messages. -/
structure UniqueIds (m : Memory) : Prop where
  entries : m.ids.Nodup
  messages : m.Distinct

/-- The change set has an id that is there already, or the same id twice. -/
def Repeats (m : Memory) (c : ChangeSet) : Prop :=
  (∃ e ∈ c.entry, e.id ∈ m.ids) ∨ ¬ (c.outbox.map Message.id).Nodup ∨
    ∃ x ∈ c.outbox, x.id ∈ m.outbox.map Message.id

theorem nodup_ids_write_iff (h : m.ids.Nodup) :
    (m.write c).ids.Nodup ↔ ∀ e ∈ c.entry, e.id ∉ m.ids := by
  rw [ids_write]
  cases he : c.entry with
  | none => simpa using h
  | some e =>
      rw [Option.map_some, Option.toList_some, List.nodup_append_comm, List.singleton_append,
        List.nodup_cons]
      constructor
      · rintro ⟨hnew, -⟩ e' he'
        obtain rfl := Option.some.inj he'
        exact hnew
      · intro hnew
        exact ⟨hnew e rfl, h⟩

theorem distinct_write_iff (h : m.Distinct) :
    (m.write c).Distinct ↔
      (c.outbox.map Message.id).Nodup ∧ ∀ x ∈ c.outbox, x.id ∉ m.outbox.map Message.id := by
  constructor
  · intro hafter
    unfold Distinct at hafter
    rw [outbox_write, List.map_append] at hafter
    obtain ⟨-, hbrought, hdisjoint⟩ := List.nodup_append.mp hafter
    exact ⟨hbrought, fun x hx hid => hdisjoint _ hid _ (List.mem_map_of_mem hx) rfl⟩
  · rintro ⟨hbrought, hnew⟩
    exact h.write hbrought fun x hx => messageOf?_eq_none_iff.mpr (hnew x hx)

theorem UniqueIds.write_iff (h : m.UniqueIds) : (m.write c).UniqueIds ↔ ¬ m.Repeats c := by
  unfold Repeats
  push Not
  rw [← nodup_ids_write_iff h.entries, ← distinct_write_iff h.messages]
  exact ⟨fun hafter => ⟨hafter.entries, hafter.messages⟩, fun ⟨he, hx⟩ => ⟨he, hx⟩⟩

/-! ## What is found -/

/-- Of the entries of an id the last one is found, and under a key the last one that has the id of
the entry with the key. -/
structure FindsLast (m : Memory) : Prop where
  byId : ∀ now id, m.answer now (.findEntry id) =
    (.ok (m.entries.reverse.find? fun e => e.id = id), m)
  byKey : ∀ now key, m.answer now (.findByKey key) =
    (.ok ((m.entries.find? fun e => e.key = some key).bind fun holder =>
      m.entries.reverse.find? fun e => e.id = holder.id), m)

/-- The tables as commits of any kind leave them, with `Marked` for those of keys and voids. -/
structure Charted (m : Memory) : Prop where
  marked : m.Marked
  inLog : ∀ id n, m.positions.get? id = some n → n < m.entries.length
  last : ∀ id, m.entry? id = m.entries.reverse.find? fun e => e.id = id

theorem charted_empty : Charted empty where
  marked := indexed_empty.marked
  inLog _ _ h := absurd h (by simp [empty, Index.get?, Index.find?])
  last _ := rfl

theorem found_write (hinLog : ∀ id n, m.positions.get? id = some n → n < m.entries.length)
    (id : Uuid) :
    entry? (m.write c) id = (c.entry.filter fun e => e.id = id).or (m.entry? id) := by
  unfold entry?
  rw [get?_positions_write, entries_write]
  have hbefore : (m.positions.get? id).bind (fun i => (m.entries ++ c.entry.toList)[i]?) =
      (m.positions.get? id).bind fun i => m.entries[i]? := by
    cases hplace : m.positions.get? id with
    | none => rfl
    | some n => exact List.getElem?_append_left (hinLog id n hplace)
  cases he : c.entry with
  | none => simp
  | some e =>
      rw [he, Option.toList_some] at hbefore
      by_cases hid : e.id = id
      · simp [hid, Option.filter]
      · simp [hid, Option.filter, hbefore]

theorem Charted.write (h : m.Charted) (haccepted : m.fault? c = none) : (m.write c).Charted := by
  refine ⟨h.marked.write_of_accepted haccepted, fun id n hn => ?_, fun id => ?_⟩
  · rw [get?_positions_write] at hn
    rw [entries_write, List.length_append]
    split at hn
    · rename_i he
      obtain ⟨e, he, -⟩ := Option.map_eq_some_iff.mp he
      rw [he, Option.toList_some, List.length_singleton]
      have := Option.some.inj hn
      omega
    · have := h.inLog id n hn
      omega
  · rw [found_write h.inLog, h.last, entries_write, List.reverse_append, List.find?_append]
    cases c.entry with
    | none => rfl
    | some e => by_cases hid : e.id = id <;> simp [hid, Option.filter]

theorem Leads.get?_eq {κ : Type} [DecidableEq κ] {t : Index κ Uuid} {mark : Entry → Option κ}
    {log : List Entry} (h : Leads t mark log) (key : κ) :
    t.get? key = (log.find? fun e => mark e = some key).map Entry.id := by
  cases hfound : log.find? fun e => mark e = some key with
  | none =>
      refine h.get?_eq_none_iff.mpr fun x hx => ?_
      simpa using List.find?_eq_none.mp hfound x hx
  | some e =>
      have hmark := List.find?_some hfound
      exact (h key e.id).mpr ⟨e, List.mem_of_find?_eq_some hfound, of_decide_eq_true hmark, rfl⟩

theorem Charted.findsLast (h : m.Charted) : m.FindsLast where
  byId now id := by rw [← h.last]; rfl
  byKey now key := by
    show (Except.ok ((m.keys.get? key).bind m.entry?), m) = _
    rw [h.marked.keys.get?_eq, Option.bind_map]
    congr 3
    exact funext fun holder => h.last holder.id

end Store.Memory

/-! ## At every moment -/

def Exchange.Moves (id : Uuid) (e : Exchange) : Prop :=
  messageOf? id (e.request.handed e.reply) ≠ none ∨
    ∃ v, e.request.verdict? e.now = some v ∧ v.id = id ∧ e.reply.toBool = true

namespace Service

variable {s : Service} {visits : List Visit}

/-- Of the commits among the visits, none that is accepted `Repeats` an id. -/
def AcceptsNew (s : Service) (visits : List Visit) : Prop :=
  ∀ earlier v c, earlier ++ [v] <+: visits → v.request = .commit c →
    (s.run earlier).memory.Admits c → ¬ (s.run earlier).memory.Repeats c

def LeavesAlone (s : Service) (visits : List Visit) (id : Uuid) : Prop :=
  ∀ earlier v, earlier ++ [v] <+: visits → ¬ ((s.run earlier).exchange v).Moves id

theorem memory_serve (h : s.memory.Marked) (v : Visit) :
    (∃ c, v.request = .commit c ∧ s.memory.Admits c ∧ s.memory.fault? c = none ∧
        (s.serve v).memory = s.memory.write c) ∨
      ∃ outbox, (s.serve v).memory = { s.memory with outbox } ∧
        (outbox.map Message.id).Sublist (s.memory.outbox.map Message.id) := by
  by_cases hcommit : ∃ c, v.request = .commit c
  · obtain ⟨c, hc⟩ := hcommit
    cases hfault : s.memory.fault? c with
    | none =>
        refine .inl ⟨c, hc, h.fault?_eq_none_iff_admits.mp hfault, hfault, ?_⟩
        rw [serve, hc, Memory.answer_commit_accepted hfault]
    | some f =>
        refine .inr ⟨s.memory.outbox, ?_, List.Sublist.refl _⟩
        rw [serve, hc, Memory.answer_commit_refused hfault]
  · obtain ⟨outbox, houtbox, hlabels⟩ :=
      s.memory.exists_outbox_answer (fun c hc => hcommit ⟨c, hc⟩) v.now
    refine .inr ⟨outbox, houtbox, ?_⟩
    have hids := hlabels.map Prod.fst
    rwa [List.map_map, List.map_map] at hids

theorem charted_serve (h : s.memory.Charted) (v : Visit) : (s.serve v).memory.Charted := by
  rcases memory_serve h.marked v with ⟨c, -, -, haccepted, hm⟩ | ⟨outbox, hm, -⟩
  · rw [hm]
    exact h.write haccepted
  · rw [hm]
    exact ⟨⟨h.marked.keys, h.marked.voids⟩, h.inLog, h.last⟩

theorem charted_run (h : s.memory.Charted) (visits : List Visit) :
    (s.run visits).memory.Charted := by
  induction visits using List.reverseRecOn with
  | nil => exact h
  | append_singleton visits v ih =>
      rw [run_concat]
      exact charted_serve ih v

theorem uniqueIds_serve (hm : s.memory.Marked) (h : s.memory.UniqueIds) {v : Visit}
    (hnew : ∀ c, v.request = .commit c → s.memory.Admits c → ¬ s.memory.Repeats c) :
    (s.serve v).memory.UniqueIds := by
  rcases memory_serve hm v with ⟨c, hc, hadmits, -, hafter⟩ | ⟨outbox, hafter, hids⟩
  · rw [hafter]
    exact h.write_iff.mpr (hnew c hc hadmits)
  · rw [hafter]
    exact ⟨h.entries, h.messages.sublist hids⟩

/-- `UniqueIds` holds at every moment exactly if every commit that is accepted brings new ones. -/
theorem uniqueIds_iff (hm : s.memory.Charted) (h : s.memory.UniqueIds) :
    (∀ earlier, earlier <+: visits → (s.run earlier).memory.UniqueIds) ↔ s.AcceptsNew visits := by
  constructor
  · intro hunique earlier v c hearlier hc hadmits
    have hafter := hunique (earlier ++ [v]) hearlier
    have hbefore := hunique earlier ((List.prefix_append ..).trans hearlier)
    have hfault := (charted_run hm earlier).marked.fault?_eq_none_iff_admits.mpr hadmits
    rw [run_concat, serve, hc, Memory.answer_commit_accepted hfault] at hafter
    exact hbefore.write_iff.mp hafter
  · intro hnew earlier hearlier
    induction earlier using List.reverseRecOn with
    | nil => exact h
    | append_singleton earlier v ih =>
        rw [run_concat]
        refine uniqueIds_serve (charted_run hm earlier).marked
          (ih ((List.prefix_append ..).trans hearlier)) fun c hc hadmits => ?_
        exact hnew earlier v c hearlier hc hadmits

theorem AcceptsNew.earlier (h : s.AcceptsNew visits) {earlier : List Visit}
    (hearlier : earlier <+: visits) : s.AcceptsNew earlier :=
  fun before v c hbefore => h before v c (hbefore.trans hearlier)

theorem entries_prefix_run (h : s.memory.Charted) (visits : List Visit) :
    s.memory.entries <+: (s.run visits).memory.entries := by
  induction visits using List.reverseRecOn with
  | nil => exact List.prefix_refl _
  | append_singleton visits v ih =>
      rw [run_concat]
      refine ih.trans ?_
      rcases memory_serve (charted_run h visits).marked v with ⟨c, -, -, -, hm⟩ | ⟨outbox, hm, -⟩
      · rw [hm, Memory.entries_write]
        exact List.prefix_append ..
      · rw [hm]

theorem message?_serve (hm : s.memory.Distinct) {v : Visit} {x : Message} {t : Instant}
    (hx : s.memory.message? x.id = some x) (hheld : Memory.isHeld t x = true)
    (hquiet : ¬ (s.exchange v).Moves x.id) : (s.serve v).memory.message? x.id = some x := by
  have hfate := Memory.fate hm v.now v.request x.id
  rw [hx] at hfate
  show (s.memory.answer v.now v.request).2.message? x.id = some x
  generalize hafter : (s.memory.answer v.now v.request).2.message? x.id = after at hfate
  cases hfate with
  | left => rfl
  | taken hq _ hout =>
      refine absurd (.inl ?_) hquiet
      rw [exchange, hout]
      simp
  | changed hq hid _ haccepted => exact absurd (.inr ⟨_, hq, hid, haccepted⟩) hquiet
  | expired hq hexpired =>
      -- it is being processed, so it is not completed
      have hprocessing : x.status = .processing := by
        simp only [Memory.isHeld, Bool.and_eq_true, decide_eq_true_eq] at hheld
        exact hheld.1
      exact absurd hexpired (by simp [Memory.isExpired, hprocessing])

theorem message?_run (hm : s.memory.Charted) (h : s.memory.UniqueIds)
    (hnew : s.AcceptsNew visits) {x : Message} {t : Instant}
    (hx : s.memory.message? x.id = some x) (hheld : Memory.isHeld t x = true)
    (hquiet : s.LeavesAlone visits x.id) : (s.run visits).memory.message? x.id = some x := by
  have hunique := (uniqueIds_iff hm h).mpr hnew
  induction visits using List.reverseRecOn with
  | nil => exact hx
  | append_singleton visits v ih =>
      have hearlier : visits <+: visits ++ [v] := List.prefix_append ..
      rw [run_concat]
      refine message?_serve (hunique visits hearlier).messages ?_ hheld
        (hquiet visits v (List.prefix_refl _))
      exact ih (hnew.earlier hearlier) (fun before w hw => hquiet before w (hw.trans hearlier))
        fun before hb => hunique before (hb.trans hearlier)

theorem held_of_handed (hm : s.memory.Distinct) {v : Visit} {x : Message}
    (hx : x ∈ v.request.handed (s.exchange v).reply) :
    (s.serve v).memory.message? x.id = some x ∧
      ∃ t, x.claimedAt = some t ∧ Memory.isHeld t x = true := by
  obtain ⟨now, q⟩ := v
  obtain ⟨batch, staleBefore, rfl, hx⟩ := Memory.exists_claim_of_mem_handed hx
  exact (Memory.held_of_mem_claimed hm hx).2

/-- An accepted entry is what `entry?` finds for its id and `entryByKey?` for its key. -/
structure Finds (s : Service) (e : Entry) : Prop where
  byId : ∀ now, s.memory.answer now (.findEntry e.id) = (.ok (some e), s.memory)
  byKey : ∀ now key, e.key = some key →
    s.memory.answer now (.findByKey key) = (.ok (some e), s.memory)

theorem finds_of_mem (hm : s.memory.Charted) (h : s.memory.UniqueIds) {e : Entry}
    (he : e ∈ s.memory.entries) : s.Finds e := by
  -- there is one entry of the id, so the last one is the only one
  have hlast : s.memory.entry? e.id = some e := by
    rw [hm.last]
    cases hfound : s.memory.entries.reverse.find? fun x => x.id = e.id with
    | none =>
        have hnone := List.find?_eq_none.mp hfound e (List.mem_reverse.mpr he)
        exact absurd (decide_eq_true rfl) hnone
    | some x =>
        have hid := List.find?_some hfound
        have hx := List.mem_reverse.mp (List.mem_of_find?_eq_some hfound)
        rw [List.inj_on_of_nodup_map h.entries hx he (of_decide_eq_true hid)]
  refine ⟨fun now => ?_, fun now key hkey => ?_⟩
  · show (Except.ok (s.memory.entry? e.id), s.memory) = _
    rw [hlast]
  · have hid := (hm.marked.keys key e.id).mpr ⟨e, he, hkey, rfl⟩
    show (Except.ok ((s.memory.keys.get? key).bind s.memory.entry?), s.memory) = _
    rw [hid, Option.bind_some, hlast]

/-- What becomes of ids in a store that takes them on trust. -/
structure TrustsIds (s : Service) (visits : List Visit) : Prop where
  /-- Whether a change set is accepted does not depend on ids. -/
  atomic : ∀ earlier, earlier <+: visits → ∀ now c, (s.run earlier).memory.Atomic now c
  findsLast : ∀ earlier, earlier <+: visits → (s.run earlier).memory.FindsLast
  unique_iff : (∀ earlier, earlier <+: visits → (s.run earlier).memory.UniqueIds) ↔
    s.AcceptsNew visits
  /-- Without repeated ids, an entry is found for all time once it has been accepted. -/
  kept : s.AcceptsNew visits → ∀ earlier v c, earlier ++ [v] <+: visits →
    v.request = .commit c → (s.run earlier).memory.Admits c → ∀ e ∈ c.entry,
    (s.run visits).Finds e
  /-- Without repeated ids, a message that has been handed out can be settled under its stamp, in any
  way, until it is handed out again or settled. -/
  settled : s.AcceptsNew visits → ∀ earlier v later, earlier ++ v :: later = visits →
    ∀ x ∈ v.request.handed ((s.run earlier).exchange v).reply,
    ((s.run earlier).serve v).LeavesAlone later x.id →
    ∀ now q verdict, q.verdict? now = some verdict → verdict.id = x.id →
      some verdict.stamp = x.claimedAt →
      ((s.run visits).memory.answer now q).1.toBool = true

theorem kept_of_acceptsNew (hm : s.memory.Charted) (h : s.memory.UniqueIds)
    (hnew : s.AcceptsNew visits) {earlier : List Visit} {v : Visit} {c : ChangeSet}
    (hearlier : earlier ++ [v] <+: visits) (hc : v.request = .commit c)
    (hadmits : (s.run earlier).memory.Admits c) {e : Entry} (he : c.entry = some e) :
    (s.run visits).Finds e := by
  have hunique := (uniqueIds_iff hm h).mpr hnew visits (List.prefix_refl _)
  refine finds_of_mem (charted_run hm visits) hunique ?_
  obtain ⟨later, rfl⟩ := hearlier
  have hcharted := charted_run hm earlier
  have hfault := hcharted.marked.fault?_eq_none_iff_admits.mpr hadmits
  rw [run_append]
  refine (entries_prefix_run (charted_run hm _) later).subset ?_
  rw [run_concat, serve, hc, Memory.answer_commit_accepted hfault, Memory.entries_write, he]
  exact List.mem_append_right _ List.mem_cons_self

theorem settled_of_acceptsNew (hm : s.memory.Charted) (h : s.memory.UniqueIds)
    {earlier later : List Visit} {v : Visit} (hnew : s.AcceptsNew (earlier ++ v :: later))
    {x : Message} (hx : x ∈ v.request.handed ((s.run earlier).exchange v).reply)
    (hquiet : ((s.run earlier).serve v).LeavesAlone later x.id) {now : Instant} {q : Request}
    {verdict : Store.Verdict} (hq : q.verdict? now = some verdict) (hid : verdict.id = x.id)
    (hstamp : some verdict.stamp = x.claimedAt) :
    ((s.run (earlier ++ v :: later)).memory.answer now q).1.toBool = true := by
  have hunique := (uniqueIds_iff hm h).mpr hnew
  rw [List.append_cons] at hnew hunique ⊢
  have hdistinct := (hunique earlier (by rw [List.append_assoc]; exact List.prefix_append ..)).messages
  obtain ⟨hthere, t, ht, hheld⟩ := held_of_handed hdistinct hx
  obtain rfl := Option.some.inj (hstamp.trans ht)
  have hthen : ((s.run earlier).serve v).AcceptsNew later := by
    intro before w c hbefore
    have := hnew (earlier ++ [v] ++ before) w c
    rw [run_append, run_concat, List.append_assoc] at this
    exact this (List.prefix_append_right_inj _ |>.mpr hbefore)
  have hafter := message?_run (charted_serve (charted_run hm earlier) v)
    (run_concat ▸ hunique (earlier ++ [v]) (List.prefix_append ..)) hthen hthere hheld hquiet
  rw [run_append, run_concat]
  rcases Memory.verdict_accepted_or_refused _ hq with ⟨_, a, -, -, haccepted, -⟩ | ⟨hnone, -⟩
  · rw [haccepted]
    rfl
  · rw [hid] at hnone
    exact absurd (hheld.symm.trans (hnone x hafter)) (by simp)

end Service

/-- Change sets of any kind are committed to a store on which nothing had happened, and messages are
claimed, settled and purged in any way: ids play no part in what is accepted, and they are unique as
long as no accepted commit repeats one, and not otherwise. -/
theorem ids_on_trust (visits : List Visit) :
    Service.TrustsIds { memory := .empty } visits := by
  have hm : Memory.empty.Charted := Memory.charted_empty
  have h : Memory.empty.UniqueIds := ⟨List.nodup_nil, List.nodup_nil⟩
  constructor
  case atomic => exact fun earlier _ => (Service.charted_run hm earlier).marked.atomic
  case findsLast => exact fun earlier _ => (Service.charted_run hm earlier).findsLast
  case unique_iff => exact Service.uniqueIds_iff hm h
  case kept =>
    intro hnew earlier v c hearlier hc hadmits e he
    exact Service.kept_of_acceptsNew hm h hnew hearlier hc hadmits he
  case settled =>
    rintro hnew earlier v later rfl x hx hquiet now q verdict hq hid hstamp
    exact Service.settled_of_acceptsNew hm h hnew hx hquiet hq hid hstamp

def twin (amount : Int64) (key : IdempotencyKey) : Entry :=
  { id := .ofNat 1, account := .nil, currency := dirham, side := .credit, amount,
    description := "", reference := none, transaction := none, target := none, date := .epoch,
    runningBalance := amount, key := some key }

def twinKeys : IdempotencyKey × IdempotencyKey :=
  (⟨"first", by decide, by decide, by decide⟩, ⟨"second", by decide, by decide, by decide⟩)

/-- Two credits with a key each but with one id, announced by messages of one id; then both messages
are claimed, and both deliverers say that they are done. -/
def twinCredits : List Visit :=
  let message : Message :=
    { id := .ofNat 2, eventType := "BalanceUpdated", payload := .null, occurredAt := .epoch,
      processedAt := none, claimedAt := none, status := .pending, retryCount := 0, error := none,
      correlationId := none, initiatedBy := none }
  let commit (expected : Int64) (entry : Entry) : Visit :=
    { now := .epoch
      request := .commit
        { slot :=
            { account := .nil, currency := dirham, balance := 5,
              reserved := 0, version := expected + 1, updatedAt := .epoch }
          expected, entry := some entry, outbox := [message] } }
  [commit 0 (twin 5 twinKeys.1), commit 1 (twin 7 twinKeys.2),
    { now := .epoch, request := .claim 10 .epoch },
    { now := .epoch, request := .complete (.ofNat 2) .epoch },
    { now := .epoch, request := .complete (.ofNat 2) .epoch }]

/-- Everything is accepted but the last verdict.  The first credit is not found any more, not even
under its own key, and its message is the one that is completed, while the other one stays held. -/
theorem ids_repeat_twinCredits :
    let s := Service.run { memory := .empty } twinCredits
    s.past.map (fun e => e.reply.toBool) = [true, true, true, true, false] ∧
      ¬ s.memory.UniqueIds ∧ ¬ Service.AcceptsNew { memory := .empty } twinCredits ∧
      s.memory.entries = [twin 5 twinKeys.1, twin 7 twinKeys.2] ∧
      (∀ now, (s.memory.answer now (.findEntry (.ofNat 1))).1 = .ok (some (twin 7 twinKeys.2))) ∧
      (∀ now, (s.memory.answer now (.findByKey twinKeys.1)).1 = .ok (some (twin 7 twinKeys.2))) ∧
      s.memory.outbox.map (fun x => (x.id, x.status, x.claimedAt)) =
        [(.ofNat 2, .completed, none), (.ofNat 2, .processing, some .epoch)] := by
  intro s
  have hrun : s.past.map (fun e => e.reply.toBool) = [true, true, true, true, false] ∧
      s.memory.entries = [twin 5 twinKeys.1, twin 7 twinKeys.2] ∧
      s.memory.entry? (.ofNat 1) = some (twin 7 twinKeys.2) ∧
      s.memory.entryByKey? twinKeys.1 = some (twin 7 twinKeys.2) ∧
      s.memory.outbox.map (fun x => (x.id, x.status, x.claimedAt)) =
        [(.ofNat 2, .completed, none), (.ofNat 2, .processing, some .epoch)] := by
    simp only [s, twinCredits, Service.run, List.foldl, Service.serve, Memory.answer,
      Memory.claim, Memory.eligible_eq_insertionSort]
    decide +kernel
  obtain ⟨hpast, hentries, hbyId, hbyKey, houtbox⟩ := hrun
  have hunique : ¬ s.memory.UniqueIds := by
    intro hunique
    have hnodup := hunique.entries
    rw [Memory.ids, hentries] at hnodup
    exact absurd hnodup (by decide +kernel)
  refine ⟨hpast, hunique, fun hnew => ?_, hentries, fun now => ?_, fun now => ?_, houtbox⟩
  · exact hunique ((Service.uniqueIds_iff (s := { memory := .empty }) Memory.charted_empty
      ⟨List.nodup_nil, List.nodup_nil⟩).mpr hnew _ (List.prefix_refl _))
  · exact congrArg Except.ok hbyId
  · exact congrArg Except.ok hbyKey

end BalanceLedger
