/-
# `Proofs.Contention` — a race is lost to somebody

An attempt that loses the race has read the slot at a version that is no longer there,
and only a commit on the same slot changes its version.  So between the turn in which
the attempt has read the slot and the turn in which it is refused, another call has
committed on that slot: `exists_overtaking`.

The attempts of a call come one after the other, so these stretches of turns have
nothing in common; and no call commits twice.  So each race that a call loses is lost to
another call, `lost_le_rivals`, and a call that may try as often as there are calls does
not run out of attempts.  Nor does it answer with a race that it has lost, since it
tries again, and it gives up only when all its attempts have lost.  `Contended` has all
of these, and `conflicts_have_rivals` proves it for every indexed store and every list
of steps.

The count is made along the transcript, and `Abreast` is its invariant: as long as an
attempt has not been refused, no more races have been lost than others had committed on
the slot when the attempt read it.  The bound is kept as of that reading, in `HasRead`,
and it is raised by one when the attempt is refused, by the commit that has come since.
A bound as of now would not do, because a commit that has been counted for one attempt
could be counted for the next.

The slot of a void is found by the entry that it names.  That entry may come into the
log only later; but once it is there it stays, so the slot that is found at the end is
the slot that was meant all along.
-/
import BalanceLedger.Proofs.Perseverance
import BalanceLedger.Proofs.Serializability

namespace BalanceLedger

open Store (ChangeSet Memory)
open Time (Instant)

/-! ## Slots of commands -/

theorem Command.slotBy?_mono {command : Command} {find find' : Uuid → Option Entry}
    (h : ∀ id e, find id = some e → find' id = some e) {key : Slot.Key}
    (hkey : command.slotBy? find = some key) : command.slotBy? find' = some key := by
  cases command with
  | void c =>
      obtain ⟨e, he, rfl⟩ := Option.map_eq_some_iff.mp hkey
      exact Option.map_eq_some_iff.mpr ⟨e, h _ e he, rfl⟩
  | _ => exact hkey

def Command.slotIn? (command : Command) (m : Memory) : Option Slot.Key :=
  command.slotBy? m.entry?

/-! ## What is told by a transcript -/

abbrev journalOf (turns : List Utterance) : List (Nat × ChangeSet) :=
  turns.filterMap Utterance.made?

abbrev Store.Memory.told (base : Memory) (turns : List Utterance) : Memory :=
  base.after (journalOf turns)

/-- The commits of a journal that other parties have made on a slot. -/
def others (place : Nat) (key : Slot.Key) (journal : List (Nat × ChangeSet)) :
    List (Nat × ChangeSet) :=
  journal.filter fun p => p.1 ≠ place ∧ p.2.slot.key = key

variable {base : Memory} {call : Call} {place : Nat} {turns : List Utterance} {u : Utterance}
  {key : Slot.Key} {stored : Option Slot} {s : Effort}

/-- In its current attempt a party has read a slot, by a turn `load`: the turns before, that turn,
and the turns since. -/
structure HasRead (base : Memory) (place : Nat) (key : Slot.Key) (stored : Option Slot)
    (turns earlier : List Utterance) (load : Utterance) (since : List Utterance) : Prop where
  split : turns = earlier ++ load :: since
  own : load.place = place
  turn : load.turn = ⟨.plan (.loadSlot key.1 key.2), some (.ok stored)⟩
  read : (base.told earlier).slots.get? key = stored
  /-- The attempt is still the same, and has not written. -/
  current : ∀ v ∈ since, v.place = place → v.turn.isAttempt = false ∧ v.turn.made? = none

/-- What a call goes by is true of the store, and no more races have been lost than other parties
have committed on the slot. -/
structure Abreast (call : Call) (base : Memory) (place : Nat) (turns : List Utterance)
    (s : Effort) : Prop where
  found : ∀ e, s.found = some e →
    ∃ c, call.command = .void c ∧ Memory.entry? (base.told turns) c.target = some e
  loaded : ∀ key stored, s.loaded = some (key, stored) → ∃ earlier load since,
    HasRead base place key stored turns earlier load since ∧
      s.lost ≤ (others place key (journalOf earlier)).length
  lost : s.lost = 0 ∨ ∃ key, call.command.slotIn? (base.told turns) = some key ∧
    s.lost ≤ (others place key (journalOf turns)).length

theorem journalOf_concat (turns : List Utterance) (u : Utterance) :
    journalOf (turns ++ [u]) = journalOf turns ++ u.made?.toList := by
  cases h : u.made? <;> simp [journalOf, h]

theorem journalOf_mono (turns : List Utterance) (u : Utterance) :
    journalOf turns <+: journalOf (turns ++ [u]) := by
  rw [journalOf_concat]
  exact List.prefix_append ..

theorem journalOf_concat_of_none (h : u.turn.made? = none) :
    journalOf (turns ++ [u]) = journalOf turns := by
  rw [journalOf_concat, Utterance.made?, h]
  exact List.append_nil _

theorem HasRead.journalOf_eq {earlier since : List Utterance} {load : Utterance}
    (h : HasRead base place key stored turns earlier load since) :
    journalOf turns = journalOf earlier ++ journalOf since := by
  have hload : load.made? = none := by
    rw [Utterance.made?, h.turn]
    rfl
  simp [h.split, journalOf, hload]

theorem length_others_append (journal more : List (Nat × ChangeSet)) :
    (others place key (journal ++ more)).length =
      (others place key journal).length + (others place key more).length := by
  rw [others, List.filter_append, List.length_append, others, others]

theorem length_others_mono {journal more : List (Nat × ChangeSet)} (h : journal <+: more) :
    (others place key journal).length ≤ (others place key more).length :=
  (h.sublist.filter _).length_le

namespace Abreast

theorem slotIn?_eq (h : Abreast call base place turns s)
    (hkey : call.command.slotBy? (fun _ => s.found) = some key) :
    call.command.slotIn? (base.told turns) = some key := by
  cases hcommand : call.command with
  | void c =>
      rw [hcommand] at hkey
      obtain ⟨e, he, rfl⟩ := Option.map_eq_some_iff.mp hkey
      obtain ⟨c', hc', hfound⟩ := h.found e he
      obtain rfl := Command.void.inj (hcommand.symm.trans hc')
      exact Option.map_eq_some_iff.mpr ⟨e, hfound, rfl⟩
  | _ =>
      rw [hcommand] at hkey
      exact hkey

theorem extend (h : Abreast call base place turns s) (hbase : base.Indexed)
    (ho : base.Orderly (journalOf (turns ++ [u])))
    (hu : s.loaded = none ∨ (u.place = place → u.turn.isAttempt = false ∧ u.turn.made? = none)) :
    Abreast call base place (turns ++ [u]) s where
  found e he := by
    obtain ⟨c, hc, hfound⟩ := h.found e he
    exact ⟨c, hc, Memory.entry?_after hbase ho (journalOf_mono ..) hfound⟩
  loaded key stored hloaded := by
    obtain ⟨earlier, load, since, hread, hlost⟩ := h.loaded key stored hloaded
    refine ⟨earlier, load, since ++ [u], ⟨?_, hread.own, hread.turn, hread.read, ?_⟩, hlost⟩
    · rw [hread.split, List.append_assoc, List.cons_append]
    · intro v hv
      rcases List.mem_append.mp hv with hv | hv
      · exact hread.current v hv
      · obtain rfl := List.mem_singleton.mp hv
        exact hu.resolve_left (by simp [hloaded])
  lost := by
    rcases h.lost with hzero | ⟨key, hkey, hlost⟩
    · exact .inl hzero
    · refine .inr ⟨key, Command.slotBy?_mono (fun id e he => ?_) hkey,
        hlost.trans (length_others_mono (journalOf_mono ..))⟩
      exact Memory.entry?_after hbase ho (journalOf_mono ..) he

theorem forget (h : Abreast call base place turns s) {begun : Nat} {found : Option Entry}
    {verdict : Option (Except StoreError Unit)} (hfound : found = none ∨ found = s.found) :
    Abreast call base place turns { s with begun, found, loaded := none, verdict } where
  found e he := by
    rcases hfound with rfl | rfl
    · exact absurd he (by simp)
    · exact h.found e he
  loaded _ _ hloaded := absurd hloaded (by simp)
  lost := h.lost

/-- A call that is refused for the version of its slot `HasRead` the slot before another party has
committed on it. -/
theorem exists_rival (h : Abreast call base place turns s) (hbase : base.Indexed)
    (ho : base.Orderly (journalOf turns)) {c : ChangeSet} (hbases : s.Bases call.command c)
    (hmoved : (base.told turns).versionOf c.slot.key ≠ c.expected) :
    ∃ stored earlier load since, HasRead base place c.slot.key stored turns earlier load since ∧
      s.lost ≤ (others place c.slot.key (journalOf earlier)).length ∧
      ∃ v ∈ since, ∃ c', v.made? = some (v.place, c') ∧ c'.slot.key = c.slot.key ∧
        v.place ≠ place := by
  obtain ⟨key, stored, hloaded, -, hkey, hexpected⟩ := hbases
  obtain ⟨earlier, load, since, hread, hlost⟩ := h.loaded key stored hloaded
  -- the slot is what it is found by
  obtain rfl : c.slot.key = key := by
    rw [hkey]
    cases hstored : stored with
    | none => rfl
    | some slot =>
        have horderly := ho.earlier (hread.journalOf_eq ▸ List.prefix_append ..)
        exact (hbase.after horderly).slot_key key slot (hread.read.trans hstored)
  have hcommit : Memory.commitsOn c.slot.key (journalOf since) ≠ 0 := by
    intro hnone
    refine hmoved ?_
    rw [hexpected, Memory.versionOf, Memory.told, hread.journalOf_eq, Memory.get?_slots_after hnone,
      hread.read]
    rfl
  obtain ⟨⟨n, c'⟩, hmem, hslot⟩ := List.countP_pos_iff.mp (Nat.pos_of_ne_zero hcommit)
  obtain ⟨v, hv, hmade⟩ := List.mem_filterMap.mp hmem
  obtain ⟨c'', hturn, hpair⟩ := Option.map_eq_some_iff.mp hmade
  obtain ⟨rfl, rfl⟩ := Prod.mk.inj hpair
  refine ⟨stored, earlier, load, since, hread, hlost, v, hv, c'', hmade, of_decide_eq_true hslot,
    fun hplace => ?_⟩
  exact absurd ((hread.current v hv hplace).2.symm.trans hturn) (by simp)

theorem lost_succ_le (h : Abreast call base place turns s) (hbase : base.Indexed)
    (ho : base.Orderly (journalOf turns)) {c : ChangeSet} (hbases : s.Bases call.command c)
    (hmoved : (base.told turns).versionOf c.slot.key ≠ c.expected) :
    s.lost + 1 ≤ (others place c.slot.key (journalOf turns)).length := by
  obtain ⟨_, earlier, load, since, hread, hlost, v, hv, c', hmade, hslot, hplace⟩ :=
    h.exists_rival hbase ho hbases hmoved
  have hrival : (v.place, c') ∈ others place c.slot.key (journalOf since) :=
    List.mem_filter.mpr ⟨List.mem_filterMap.mpr ⟨v, hv, hmade⟩, decide_eq_true ⟨hplace, hslot⟩⟩
  have hpos := List.length_pos_of_mem hrival
  rw [hread.journalOf_eq, length_others_append]
  omega

theorem slotIn?_of_bases (h : Abreast call base place turns s) (hbase : base.Indexed)
    (ho : base.Orderly (journalOf turns)) {c : ChangeSet} (hbases : s.Bases call.command c) :
    call.command.slotIn? (base.told turns) = some c.slot.key := by
  obtain ⟨key, stored, hloaded, hslot, hkey, -⟩ := hbases
  obtain ⟨earlier, load, since, hread, -⟩ := h.loaded key stored hloaded
  have horderly := ho.earlier (hread.journalOf_eq ▸ List.prefix_append ..)
  rw [h.slotIn?_eq hslot, hkey]
  cases hstored : stored with
  | none => rfl
  | some slot =>
      exact congrArg some ((hbase.after horderly).slot_key key slot
        (hread.read.trans hstored)).symm

section

variable {w : Moment} {stopping : Bool} {now : Instant}

theorem own_plan (h : Abreast call base place turns s) (hbase : base.Indexed) {q : Store.Request}
    (ho : base.Orderly
      (journalOf (turns ++ [⟨place, now, w.turn stopping (base.told turns) (.plan q)⟩])))
    (hmay : Effort.may call s (.plan q)) :
    Abreast call base place (turns ++ [⟨place, now, w.turn stopping (base.told turns) (.plan q)⟩])
      (Effort.moved s (.plan q) (w.reply stopping (base.told turns) (.plan q)).1) := by
  have hextended := h.extend hbase ho (.inr fun _ => ⟨rfl, rfl⟩)
  by_cases hgiven : (stopping && w.yields) = true
  · have hreply : (w.reply stopping (base.told turns) (.plan q)).1 = none := by
      simp [Moment.reply, hgiven]
    rw [hreply]
    exact hextended
  · have hreply : (w.reply stopping (base.told turns) (.plan q)).1 =
        some ((base.told turns).answer w.now q).1 := by
      simp [Moment.reply, hgiven]
    rw [hreply]
    cases q with
    | loadSlot account currency =>
        refine ⟨hextended.found, fun key stored hloaded => ?_, hextended.lost⟩
        obtain ⟨rfl, rfl⟩ := Prod.mk.inj (Option.some.inj hloaded)
        refine ⟨turns, _, [], ⟨rfl, rfl, congrArg (Turn.mk _) hreply, rfl, by simp⟩, ?_⟩
        rcases h.lost with hzero | ⟨key, hkey, hlost⟩
        · exact (Nat.le_of_eq hzero).trans (Nat.zero_le _)
        · obtain rfl := Option.some.inj (hkey.symm.trans (h.slotIn?_eq hmay.2))
          exact hlost
    | findEntry id =>
        refine ⟨fun e he => ?_, hextended.loaded, hextended.lost⟩
        obtain ⟨-, c, hc, rfl⟩ := hmay
        refine ⟨c, hc, ?_⟩
        rw [Memory.told, journalOf_concat_of_none rfl]
        exact he
    | findByKey | findVoidOf => exact hextended
    | _ => exact hmay.2.elim

theorem own_commit (h : Abreast call base place turns s) (hbase : base.Indexed) {c : ChangeSet}
    (ho : base.Orderly
      (journalOf (turns ++ [⟨place, now, w.turn stopping (base.told turns) (.store (.commit c))⟩])))
    (hmay : Effort.may call s (.store (.commit c))) :
    Abreast call base place
      (turns ++ [⟨place, now, w.turn stopping (base.told turns) (.store (.commit c))⟩])
      (Effort.moved s (.store (.commit c))
        (w.reply stopping (base.told turns) (.store (.commit c))).1) := by
  cases hfault : (base.told turns).fault? c with
  | none =>
      simp only [Moment.reply, Memory.answer_commit_accepted hfault]
      exact (h.forget (.inr rfl)).extend hbase ho (.inl rfl)
  | some e =>
      have hreply : (w.reply stopping (base.told turns) (.store (.commit c))).1 = .error e := by
        simp only [Moment.reply, Memory.answer_commit_refused hfault]
      have hnone : (w.turn stopping (base.told turns) (.store (.commit c))).made? = none := by
        rw [Moment.turn, hreply]
        rfl
      rw [hreply]
      cases hrace : e.isVersionConflict with
      | false =>
          rw [Effort.moved, hrace, if_neg Bool.false_ne_true]
          exact (h.forget (.inr rfl)).extend hbase ho (.inl rfl)
      | true =>
          rw [Effort.moved, hrace, if_pos rfl]
          have hpast : base.Orderly (journalOf turns) := ho.earlier (journalOf_mono ..)
          have hlost := h.lost_succ_le hbase hpast hmay.2
            (Memory.versionOf_ne_of_conflict hfault hrace)
          have hslot := h.slotIn?_of_bases hbase hpast hmay.2
          have hforgot : Abreast call base place turns { s with loaded := none } :=
            h.forget (.inr rfl)
          have hknown := hforgot.extend hbase ho (.inl rfl)
          refine ⟨hknown.found, fun _ _ h => absurd h (by simp), .inr ⟨c.slot.key, ?_, ?_⟩⟩
          · rwa [Memory.told, journalOf_concat_of_none hnone]
          · rwa [journalOf_concat_of_none hnone]

/-- A turn of the party leaves it `Abreast` of the store. -/
theorem own_turn (h : Abreast call base place turns s) (hbase : base.Indexed)
    {request : World.Request}
    (ho : base.Orderly
      (journalOf (turns ++ [⟨place, now, w.turn stopping (base.told turns) request⟩])))
    (hmay : Effort.may call s request) :
    Abreast call base place (turns ++ [⟨place, now, w.turn stopping (base.told turns) request⟩])
      (Effort.moved s request (w.reply stopping (base.told turns) request).1) := by
  cases request with
  | stopping => exact (h.forget (.inl rfl)).extend hbase ho (.inl rfl)
  | plan q => exact h.own_plan hbase ho hmay
  | store q =>
      cases q with
      | commit c => exact h.own_commit hbase ho hmay
      | findByKey key => exact h.extend hbase ho (.inr fun _ => ⟨rfl, rfl⟩)
      | _ => exact hmay.elim
  | _ => exact h.extend hbase ho (.inr fun _ => ⟨rfl, rfl⟩)

end

end Abreast

namespace Traffic

open Interleaving

variable {steps : List (Step Call)}

theorem journal_eq (base : Memory) (steps : List (Step Call)) :
    ((on base).run steps : Traffic).journal = journalOf ((on base).transcript steps) :=
  journal_run ..

theorem orderly_transcript (hbase : base.Indexed) (steps : List (Step Call)) :
    base.Orderly (journalOf ((on base : Traffic).transcript steps)) := by
  rw [← journal_eq]
  exact (upheld hbase steps).orderly

theorem memory_eq (hbase : base.Indexed) (steps : List (Step Call)) :
    ((on base).run steps : Traffic).memory = base.told ((on base : Traffic).transcript steps) := by
  rw [(upheld hbase steps).memory, journal_eq]

def effort (call : Call) (base : Memory) (steps : List (Step Call)) (place : Nat) : Effort :=
  (Effort.conduct call).after {} ((on base : Traffic).dialogue steps place)

/-- What a call goes by is true, whoever comes in between: it stays `Abreast`. -/
theorem abreast_run (hbase : base.Indexed)
    (h : (Effort.conduct call).Allows {} ((on base : Traffic).dialogue steps place)) :
    Abreast call base place ((on base : Traffic).transcript steps)
      (effort call base steps place) := by
  induction steps using List.reverseRecOn with
  | nil => exact ⟨fun _ he => absurd he nofun, fun _ _ hloaded => absurd hloaded nofun, .inl rfl⟩
  | append_singleton steps x ih =>
      have ho := orderly_transcript hbase (steps ++ [x])
      rw [dialogue_concat] at h
      rw [effort, dialogue_concat]
      rw [transcript_concat] at ho ⊢
      cases hx : ((on base).run steps : Traffic).heard? x with
      | none =>
          rw [dialogue_singleton_of_none hx, List.append_nil] at h ⊢
          rw [Option.toList_none, List.append_nil]
          exact ih h
      | some u =>
          rw [hx, Option.toList_some] at ho
          rw [dialogue_singleton hx] at h ⊢
          rw [Option.toList_some]
          by_cases hplace : u.place = place
          · rw [if_pos hplace] at h ⊢
            obtain ⟨hbefore, hmay⟩ := Conduct.allows_concat_iff.mp h
            rw [Conduct.after_concat]
            obtain ⟨w, stopping, request, hu⟩ := turn_of_heard? hx
            rw [hplace, memory_eq hbase] at hu
            subst hu
            exact (ih hbefore).own_turn hbase ho hmay
          · rw [if_neg hplace, List.append_nil] at h ⊢
            exact (ih h).extend hbase ho (.inr fun h => absurd h hplace)

/-! ## Rivals -/

/-- The slot of the command of a party, in the store as it is now. -/
def slotAt? (s : Traffic) (place : Nat) : Option Slot.Key :=
  s.parties[place]?.bind fun p => p.task.command.slotIn? s.memory

def rivals (s : Traffic) (place : Nat) : List Nat :=
  (s.journal.filter fun p => p.1 ≠ place ∧ some p.2.slot.key = slotAt? s place).map Prod.fst

/-- A turn of a party is allowed for what the party goes by. -/
structure IsAllowed (base : Memory) (before : List Utterance) (u : Utterance) (call : Call)
    (s : Effort) : Prop where
  abreast : Abreast call base u.place before s
  may : Effort.may call s u.turn.request
  reply : ∃ (w : Moment) (stopping : Bool) (request : World.Request),
    u = ⟨u.place, w.now, w.turn stopping (base.told before) request⟩

variable {p : Party Call (Except LedgerError Answer)} {before after : List Utterance}

theorem tries_run (hp : ((on base).run steps : Traffic).parties[place]? = some p) :
    (Effort.conduct p.task).Allows {} ((on base : Traffic).dialogue steps place) ∧
      (Effort.conduct p.task).Keeps p.rest (Effort.Closes Answer.status p.task.policy.attempts)
        (effort p.task base steps place) :=
  keeps_run hp (Call.tries_execute p.task) fun _ _ => World.IsGiven.isCandid

theorem exists_allowed (hbase : base.Indexed)
    (h : (on base : Traffic).transcript steps = before ++ u :: after) : ∃ p s,
      ((on base).run steps : Traffic).parties[u.place]? = some p ∧
        IsAllowed base before u p.task s := by
  obtain ⟨p, hp⟩ := exists_party_of_mem_transcript (h ▸ List.mem_append_right _ List.mem_cons_self)
  obtain ⟨steps₁, x, steps₂, rfl, rfl, hx⟩ := exists_step_of_transcript h
  have hallows := (tries_run hp).1
  rw [List.append_cons, dialogue_append, dialogue_concat, dialogue_singleton hx, if_pos rfl]
    at hallows
  obtain ⟨hbefore, hmay⟩ := Conduct.allows_concat_iff.mp
    (hallows.earlier (List.prefix_append ..))
  obtain ⟨w, stopping, request, hu⟩ := turn_of_heard? hx
  rw [memory_eq hbase] at hu
  exact ⟨p, _, hp, abreast_run hbase hbefore, hmay, w, stopping, request, hu⟩

theorem slotAt?_eq (hbase : base.Indexed)
    (h : (on base : Traffic).transcript steps = before ++ u :: after) {c : ChangeSet}
    (hu : u.turn.request = .store (.commit c)) :
    slotAt? ((on base).run steps) u.place = some c.slot.key := by
  obtain ⟨p, s, hp, habreast, hmay, -⟩ := exists_allowed hbase h
  have ho := orderly_transcript hbase steps
  have hearlier : journalOf before <+: journalOf ((on base : Traffic).transcript steps) := by
    rw [h]
    exact (List.prefix_append ..).filterMap _
  rw [hu] at hmay
  rw [slotAt?, hp, Option.bind_some, memory_eq hbase]
  exact Command.slotBy?_mono (fun _ _ => Memory.entry?_after hbase ho hearlier)
    (habreast.slotIn?_of_bases hbase (ho.earlier hearlier) hmay.2)

theorem request_of_made? {v : Utterance} {q : Nat × ChangeSet} (h : v.made? = some q) :
    q.1 = v.place ∧ v.turn = ⟨.store (.commit q.2), .ok ()⟩ := by
  obtain ⟨place, now, ⟨request, reply⟩⟩ := v
  obtain ⟨c, hc, rfl⟩ := Option.map_eq_some_iff.mp h
  refine ⟨rfl, ?_⟩
  unfold Turn.made? at hc
  split at hc
  · rename_i hturn
    obtain rfl := Option.some.inj hc
    exact hturn
  · exact absurd hc (by simp)

theorem slotAt?_of_mem_journal (hbase : base.Indexed) {q : Nat × ChangeSet}
    (h : q ∈ ((on base).run steps : Traffic).journal) :
    slotAt? ((on base).run steps) q.1 = some q.2.slot.key := by
  rw [journal_eq] at h
  obtain ⟨v, hv, hmade⟩ := List.mem_filterMap.mp h
  obtain ⟨before, after, hsplit⟩ := List.append_of_mem hv
  obtain ⟨hplace, hturn⟩ := request_of_made? hmade
  rw [hplace]
  exact slotAt?_eq hbase hsplit (by rw [hturn])

theorem mem_rivals {s : Traffic} {q : Nat} : q ∈ rivals s place ↔
    ∃ c, (q, c) ∈ s.journal ∧ q ≠ place ∧ some c.slot.key = slotAt? s place := by
  simp [rivals]

theorem rivals_distinct (hbase : base.Indexed) (steps : List (Step Call)) (place : Nat) :
    let s : Traffic := (on base).run steps
    (rivals s place).Nodup ∧ ∀ q ∈ rivals s place,
      q ≠ place ∧ q < s.parties.length ∧ slotAt? s q = slotAt? s place := by
  have hupheld := upheld hbase steps
  refine ⟨(nodup_places hupheld).sublist (List.filter_sublist.map _), fun q hq => ?_⟩
  obtain ⟨c, hc, hne, hslot⟩ := mem_rivals.mp hq
  exact ⟨hne, hupheld.places _ hc, (slotAt?_of_mem_journal hbase hc).trans hslot⟩

theorem length_rivals_lt (hbase : base.Indexed)
    (hp : ((on base).run steps : Traffic).parties[place]? = some p) :
    (rivals ((on base).run steps) place).length <
      ((on base).run steps : Traffic).parties.length := by
  obtain ⟨hnodup, hall⟩ := rivals_distinct hbase steps place
  have hplace := (List.getElem?_eq_some_iff.mp hp).1
  have hwith : (place :: rivals ((on base).run steps) place).Nodup :=
    List.nodup_cons.mpr ⟨fun h => (hall place h).1 rfl, hnodup⟩
  have hsub : place :: rivals ((on base).run steps) place ⊆
      List.range ((on base).run steps : Traffic).parties.length := by
    intro q hq
    rcases List.mem_cons.mp hq with rfl | hq
    · exact List.mem_range.mpr hplace
    · exact List.mem_range.mpr (hall q hq).2.1
  have hlength := (List.subperm_of_subset hwith hsub).length_le
  rwa [List.length_range] at hlength

/-- No more races are lost than there are `rivals`. -/
theorem lost_le_rivals (hbase : base.Indexed)
    (hp : ((on base).run steps : Traffic).parties[place]? = some p) :
    (effort p.task base steps place).lost ≤ (rivals ((on base).run steps) place).length := by
  rcases (abreast_run hbase (tries_run hp).1).lost with hzero | ⟨key, hkey, hlost⟩
  · exact hzero ▸ Nat.zero_le _
  · have hslot : slotAt? ((on base).run steps) place = some key := by
      rw [slotAt?, hp, Option.bind_some, memory_eq hbase]
      exact hkey
    rw [rivals, List.length_map, hslot, journal_eq]
    simpa only [others, Option.some.injEq] using hlost

theorem closes_effort (hp : ((on base).run steps : Traffic).parties[place]? = some p)
    {answer : Except LedgerError Answer} (ha : p.answer? = some answer) :
    Effort.Closes Answer.status p.task.policy.attempts answer (effort p.task base steps place) := by
  have hkeeps := (tries_run hp).2
  rwa [Party.rest_eq_done ha] at hkeeps

/-- A race that is lost is lost to one of the `rivals`, which has committed since the slot was read.
-/
theorem exists_overtaking (hbase : base.Indexed)
    (h : (on base : Traffic).transcript steps = before ++ u :: after) {c : ChangeSet}
    {e : StoreError} (hu : u.turn = ⟨.store (.commit c), .error e⟩)
    (he : e.isVersionConflict = true) : ∃ stored earlier load since,
      HasRead base u.place c.slot.key stored before earlier load since ∧
        ∃ v ∈ since, ∃ c', v.turn = ⟨.store (.commit c'), .ok ()⟩ ∧ c'.slot.key = c.slot.key ∧
          v.place ∈ rivals ((on base).run steps) u.place := by
  obtain ⟨p, s, -, habreast, hmay, w, stopping, request, hmoment⟩ := exists_allowed hbase h
  have hearlier : journalOf before <+: journalOf ((on base : Traffic).transcript steps) := by
    rw [h]
    exact (List.prefix_append ..).filterMap _
  have hmoved : (base.told before).versionOf c.slot.key ≠ c.expected := by
    obtain ⟨rfl, hreply⟩ := Turn.mk.inj ((congrArg Utterance.turn hmoment).symm.trans hu)
    have hanswer : ((base.told before).answer w.now (.commit c)).1 = .error e := eq_of_heq hreply
    cases hfault : (base.told before).fault? c with
    | none => exact absurd hanswer (by simp [Memory.answer_commit_accepted hfault])
    | some f =>
        rw [Memory.answer_commit_refused hfault] at hanswer
        exact Memory.versionOf_ne_of_conflict hfault (Except.error.inj hanswer ▸ he)
  rw [hu] at hmay
  obtain ⟨stored, earlier, load, since, hread, -, v, hv, c', hmade, hslot, hplace⟩ :=
    habreast.exists_rival hbase ((orderly_transcript hbase steps).earlier hearlier) hmay.2 hmoved
  refine ⟨stored, earlier, load, since, hread, v, hv, c', (request_of_made? hmade).2, hslot, ?_⟩
  refine mem_rivals.mpr ⟨c', ?_, hplace, ?_⟩
  · rw [journal_eq]
    refine hearlier.subset (List.mem_filterMap.mpr ⟨v, ?_, hmade⟩)
    rw [hread.split]
    exact List.mem_append_right _ (List.mem_cons_of_mem _ hv)
  · rw [hslot, slotAt?_eq hbase h (by rw [hu])]

/-! ## The result -/

/-- How calls come to lose races, and how often they try. -/
structure Contended (base : Memory) (steps : List (Step Call)) : Prop where
  /-- A call asks only for the slot of its command to be written. -/
  own : ∀ u ∈ (on base : Traffic).transcript steps, ∀ c, u.turn.request = .store (.commit c) →
    slotAt? ((on base).run steps) u.place = some c.slot.key
  /-- The rivals of a call are other calls for the same slot that have committed, each counted
  once. -/
  distinct : ∀ place, (rivals ((on base).run steps) place).Nodup ∧
    ∀ q ∈ rivals ((on base).run steps) place, q ≠ place ∧
      slotAt? ((on base).run steps) q = slotAt? ((on base).run steps) place ∧
      ∃ c, (q, c) ∈ ((on base).run steps : Traffic).journal ∧
        some c.slot.key = slotAt? ((on base).run steps) place
  /-- Between the turn in which an attempt has read its slot and the turn in which it loses the
  race, a rival has committed on that slot. -/
  overtaken : ∀ before u after c e,
    (on base : Traffic).transcript steps = before ++ u :: after →
    u.turn = ⟨.store (.commit c), .error e⟩ → e.isVersionConflict = true →
      ∃ stored earlier load since,
        HasRead base u.place c.slot.key stored before earlier load since ∧
          ∃ v ∈ since, ∃ c', v.turn = ⟨.store (.commit c'), .ok ()⟩ ∧ c'.slot.key = c.slot.key ∧
            v.place ∈ rivals ((on base).run steps) u.place
  /-- So no more races are lost than there are rivals. -/
  bounded : ∀ place, ((on base : Traffic).dialogue steps place).countP Turn.isConflict ≤
    (rivals ((on base).run steps) place).length
  /-- A call that may try as often as there are calls does not run out of attempts. -/
  enough : ∀ (place : Nat) (p : Party Call (Except LedgerError Answer)),
    ((on base).run steps : Traffic).parties[place]? = some p →
    ((on base).run steps : Traffic).parties.length ≤ p.task.policy.attempts →
    ∀ n, p.answer? ≠ some (.error (.exhausted n))
  /-- A lost race is never the answer itself: the call tries again, and gives up only when as many
  attempts as its policy allows have all lost. -/
  retried : ∀ (place : Nat) (p : Party Call (Except LedgerError Answer)),
    ((on base).run steps : Traffic).parties[place]? = some p → ∀ e, p.answer? = some (.error e) →
      e.isVersionConflict = false ∧
        ∀ n, e = .exhausted n → n = p.task.policy.attempts ∧
          ((on base : Traffic).dialogue steps place).countP Turn.isConflict = n
  /-- No call tries more often than its policy allows. -/
  patient : ∀ (place : Nat) (p : Party Call (Except LedgerError Answer)),
    ((on base).run steps : Traffic).parties[place]? = some p →
    ((on base : Traffic).dialogue steps place).countP Turn.isAttempt ≤
      max 1 p.task.policy.maxAttempts

end Traffic

open Traffic in
/-- Races are lost to rivals only, so there are no more of them than rivals, and a call that may try
as often as there are calls gets to its answer. -/
theorem conflicts_have_rivals (base : Memory) (hbase : base.Indexed)
    (steps : List (Interleaving.Step Call)) : Contended base steps where
  own u hu c hc := by
    obtain ⟨before, after, hsplit⟩ := List.append_of_mem hu
    exact slotAt?_eq hbase hsplit hc
  distinct place := by
    obtain ⟨hnodup, hall⟩ := rivals_distinct hbase steps place
    refine ⟨hnodup, fun q hq => ⟨(hall q hq).1, (hall q hq).2.2, ?_⟩⟩
    obtain ⟨c, hc, -, hslot⟩ := mem_rivals.mp hq
    exact ⟨c, hc, hslot⟩
  overtaken before u after c e h := exists_overtaking hbase h
  bounded place := by
    cases hp : ((Interleaving.on base).run steps : Traffic).parties[place]? with
    | none => simp [Interleaving.dialogue_eq_nil hp]
    | some p =>
        rw [← (Effort.counts_after p.task _).2]
        exact lost_le_rivals hbase hp
  enough place p hp hmany n ha := by
    have hlost := ((closes_effort hp ha).exhausted n rfl).2
    have hrivals := lost_le_rivals hbase hp
    have hfewer := length_rivals_lt hbase hp
    omega
  retried place p hp e ha := by
    have hcloses := closes_effort hp ha
    refine ⟨hcloses.settled e rfl, ?_⟩
    rintro n rfl
    obtain ⟨hattempts, hlost⟩ := hcloses.exhausted n rfl
    refine ⟨hattempts, ?_⟩
    rw [hattempts, ← hlost]
    exact (Effort.counts_after p.task _).2.symm
  patient place p hp := by
    rw [← (Effort.counts_after p.task _).1]
    exact Effort.begun_le (tries_run hp).1

/-- The first of two credits that open a slot loses its first race to the second one. -/
theorem conflicts_have_rivals_racingCredits :
    Memory.empty.Indexed ∧ Traffic.Contended .empty racingCredits ∧
      ((Interleaving.on .empty : Traffic).dialogue racingCredits 0).countP Turn.isConflict = 1 ∧
      Traffic.rivals ((Interleaving.on .empty).run racingCredits) 0 = [1] :=
  ⟨Memory.indexed_empty, conflicts_have_rivals .empty Memory.indexed_empty racingCredits,
    by decide +kernel, by decide +kernel⟩

end BalanceLedger
