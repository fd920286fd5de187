/-
# `Proofs.Announcement` — the outbox tells what happened

A commit writes three tables: the slot, the log and the outbox.  Here the outbox is
taken for itself.  Its messages are read as a deliverer reads them, which is
`Memory.events`, and what they say is compared with the other two tables.

What a deliverer can know of a slot are its `Figures`: a version, a balance and what is
reserved.  An event that moves a slot `Continues` figures if it is the next version and
states what follows from them, and it carries them on to the next figures.  So a list of
such events is a history of a slot, and `Event.replay` makes the slot from nothing.

Each effect announces first how it moves its slot, then the entry that it adds, then
what that entry voids: `Effect.Announces`, one lemma for each kind of command.  A commit
is made on the slot as it is at that moment, so its first event continues the history of
the slot, and attempts that are given up leave nothing in the outbox.  The two
inductions on the journal are `replays_after` for the slots and `tell_after` for the
log.

`mutations_announced_once` states the comparison as `Announced`.  It is in both
directions: every commit is announced, and nothing is announced that was not committed.
Only the histories of slots need a store that fits a machine, since a version that has
come round would make a history with two events of one version.
-/
import BalanceLedger.Proofs.Conservation
import BalanceLedger.Proofs.Payload

namespace BalanceLedger

open Outbox (Message)
open Store (ChangeSet Memory)
open Time (Instant)

/-! ## Figures -/

/-- What is known of a slot from what has been announced. -/
structure Figures where
  version : Int
  balance : Int
  reserved : Int

namespace Event

def moved? : Event → Option (Uuid × String)
  | balanceUpdated e => some (e.account, e.currency)
  | fundsReserved e => some (e.account, e.currency)
  | reservationReleased e => some (e.account, e.currency)
  | entryCreated _ => none
  | entryVoided _ => none

def version? : Event → Option Int
  | balanceUpdated e => some e.version.toInt
  | fundsReserved e => some e.version.toInt
  | reservationReleased e => some e.version.toInt
  | entryCreated _ => none
  | entryVoided _ => none

def created? : Event → Option EntryCreated
  | entryCreated e => some e
  | _ => none

def voided? : Event → Option EntryVoided
  | entryVoided e => some e
  | _ => none

/-- An event moves a slot of these figures: it has the next version, it starts from the balance, and
the figures that it states are those after the change. -/
def Continues (f : Figures) : Event → Prop
  | balanceUpdated e =>
    e.version.toInt = f.version + 1 ∧ e.previous.toInt = f.balance ∧
      e.change.toInt = e.balance.toInt - e.previous.toInt
  | fundsReserved e =>
    e.version.toInt = f.version + 1 ∧ e.reserved.toInt = f.reserved + e.amount.toInt ∧
      e.available.toInt = f.balance - e.reserved.toInt
  | reservationReleased e =>
    e.version.toInt = f.version + 1 ∧ e.reserved.toInt = f.reserved - e.amount.toInt ∧
      e.available.toInt = f.balance - e.reserved.toInt
  | entryCreated _ => False
  | entryVoided _ => False

end Event

namespace Figures

def start : Figures :=
  { version := 0, balance := 0, reserved := 0 }

def next (f : Figures) : Event → Figures
  | .balanceUpdated e => { f with version := e.version.toInt, balance := f.balance + e.change.toInt }
  | .fundsReserved e => { f with version := e.version.toInt, reserved := f.reserved + e.amount.toInt }
  | .reservationReleased e =>
    { f with version := e.version.toInt, reserved := f.reserved - e.amount.toInt }
  | .entryCreated _ => f
  | .entryVoided _ => f

/-- The figures after events, from nothing. -/
def replay (events : List Event) : Figures :=
  events.foldl next start

end Figures

def Slot.figures (s : Slot) : Figures :=
  { version := s.version.toInt, balance := s.balance.toInt, reserved := s.reserved.toInt }

def Slot.figuresRead (stored : Option Slot) : Figures :=
  (stored.map Slot.figures).getD .start

/-- Events are the history of a slot: each `Continues` the figures of those before it, they have the
versions 1, 2 and so on up to that of the slot, and together they make its figures. -/
structure Replays (events : List Event) (stored : Option Slot) : Prop where
  continues : ∀ earlier e, earlier ++ [e] <+: events → e.Continues (Figures.replay earlier)
  versions : events.map Event.version? =
    (List.range events.length).map fun (n : Nat) => some ((n : Int) + 1)
  length : (events.length : Int) = (Slot.versionRead stored).toInt
  figures : Figures.replay events = Slot.figuresRead stored

theorem Slot.version_figuresRead (stored : Option Slot) :
    (figuresRead stored).version = (versionRead stored).toInt := by
  cases stored <;> rfl

theorem Event.Continues.version {f : Figures} {e : Event} (h : e.Continues f) :
    e.version? = some (f.version + 1) ∧ (f.next e).version = f.version + 1 := by
  cases e with
  | balanceUpdated e => exact ⟨congrArg some h.1, h.1⟩
  | fundsReserved e => exact ⟨congrArg some h.1, h.1⟩
  | reservationReleased e => exact ⟨congrArg some h.1, h.1⟩
  | entryCreated e => exact h.elim
  | entryVoided e => exact h.elim

theorem replays_nil : Replays [] none where
  continues earlier e h := absurd (List.prefix_nil.mp h) (by simp)
  versions := rfl
  length := rfl
  figures := rfl

theorem Replays.concat {events : List Event} {stored : Option Slot} {e : Event} {slot : Slot}
    (h : Replays events stored) (he : e.Continues (Slot.figuresRead stored))
    (hnext : (Slot.figuresRead stored).next e = slot.figures) :
    Replays (events ++ [e]) (some slot) := by
  -- the version of a slot is the length of its history
  have hversion : (Slot.figuresRead stored).version = events.length := by
    rw [Slot.version_figuresRead, h.length]
  obtain ⟨hevent, hslot⟩ := he.version
  rw [hversion] at hevent hslot
  rw [hnext] at hslot
  refine ⟨?_, ?_, ?_, ?_⟩
  · intro earlier e' hearlier
    rcases List.prefix_concat_iff.mp hearlier with heq | hbefore
    · obtain ⟨rfl, hlast⟩ := List.append_inj' heq rfl
      obtain rfl := (List.cons.inj hlast).1
      rw [h.figures]
      exact he
    · exact h.continues earlier e' hbefore
  · rw [List.map_append, h.versions, List.map_singleton, hevent, List.length_append,
      List.length_singleton, List.range_succ, List.map_append, List.map_singleton]
  · rw [List.length_append, List.length_singleton]
    exact hslot.symm
  · rw [Figures.replay, List.foldl_append, ← Figures.replay, h.figures]
    exact hnext

/-! ## What effects announce -/

namespace Slot

variable {s t : Slot} {amount : Amount} {now : Instant}

theorem Succeeds.toInt_version (h : t.Succeeds s) (hcount : s.version.toInt < Word.maxInt64) :
    t.version.toInt = s.version.toInt + 1 := by
  have hlow := s.version.le_toInt
  rw [h.version]
  refine Word.toInt_add_of_fits ?_
  show Word.FitsInt64 (s.version.toInt + 1)
  unfold Word.FitsInt64 Word.minInt64 Word.maxInt64 at *
  omega

/-- A moved balance continues the figures of the slot, and carries them on to those of the moved
slot. -/
theorem move_continues {side : Side} {u : BalanceUpdated}
    (h : s.move side amount now = .ok (t, u)) (hs : s.Solvent)
    (hcount : s.version.toInt < Word.maxInt64) :
    (Event.balanceUpdated u).Continues s.figures ∧
      s.figures.next (.balanceUpdated u) = t.figures := by
  obtain ⟨hsucceeds, hsolvent⟩ := move_ok h
  obtain ⟨hreserved, change, rfl, hchange⟩ := move_announced h
  obtain ⟨-, hbalance⟩ := hsolvent hs
  have hversion := hsucceeds.toInt_version hcount
  -- the event states the old balance and the new one, so the change is their difference
  refine ⟨⟨hversion, rfl, ?_⟩, ?_⟩
  · show change.toInt = t.balance.toInt - s.balance.toInt
    omega
  · simp only [Figures.next, figures, balanceUpdated, hchange, hbalance, hreserved]

theorem reserve_continues {u : ReservationChange} (h : s.reserve amount now = .ok (t, u))
    (hs : s.Solvent) (hcount : s.version.toInt < Word.maxInt64) :
    (Event.fundsReserved u).Continues s.figures ∧
      s.figures.next (.fundsReserved u) = t.figures := by
  obtain ⟨hsucceeds, hbalance, rfl, hsolvent⟩ := reserve_ok h
  obtain ⟨hafter, hreserved⟩ := hsolvent hs
  refine ⟨⟨hsucceeds.toInt_version hcount, hreserved, ?_⟩, ?_⟩
  · show t.available.toInt = s.balance.toInt - t.reserved.toInt
    rw [hafter.toInt_available, hbalance]
  · simp only [Figures.next, figures, reservationChange, hbalance, hreserved]

theorem release_continues {u : ReservationChange} (h : s.release amount now = .ok (t, u))
    (hs : s.Solvent) (hcount : s.version.toInt < Word.maxInt64) :
    (Event.reservationReleased u).Continues s.figures ∧
      s.figures.next (.reservationReleased u) = t.figures := by
  obtain ⟨hsucceeds, hbalance, rfl, hsolvent⟩ := release_ok h
  obtain ⟨hafter, hreserved⟩ := hsolvent hs
  refine ⟨⟨hsucceeds.toInt_version hcount, hreserved, ?_⟩, ?_⟩
  · show t.available.toInt = s.balance.toInt - t.reserved.toInt
    rw [hafter.toInt_available, hbalance]
  · simp only [Figures.next, figures, reservationChange, hbalance, hreserved]

end Slot

structure EntryCreated.Tells (u : EntryCreated) (e : Entry) : Prop where
  entry : u.entry = e.id
  account : u.account = e.account
  currency : u.currency = e.currency.code
  amount : u.amount = e.amount
  side : u.side = e.side.name
  runningBalance : u.runningBalance = e.runningBalance
  reference : u.reference = e.reference

theorem Entry.created_tells (e : Entry) : e.created.Tells e :=
  ⟨rfl, rfl, rfl, rfl, rfl, rfl, rfl⟩

structure EntryVoided.Tells (u : EntryVoided) (v : Entry) : Prop where
  target : v.target = some u.target
  voidEntry : v.id = u.voidEntry
  account : v.account = u.account
  reason : v.description = "VOID: " ++ u.reason

/-- Events tell of the entries that were added to a log, in their order, and of the voids among
them. -/
structure Tell (events : List Event) (log : List Entry) : Prop where
  created : List.Forall₂ EntryCreated.Tells (events.filterMap Event.created?) log
  voided : List.Forall₂ EntryVoided.Tells (events.filterMap Event.voided?)
    (log.filter Entry.isVoid)

theorem tell_nil : Tell [] [] :=
  ⟨.nil, .nil⟩

theorem Tell.append {events events' : List Event} {log log' : List Entry} (h : Tell events log)
    (h' : Tell events' log') : Tell (events ++ events') (log ++ log') := by
  constructor
  · rw [List.filterMap_append]
    exact List.rel_append h.created h'.created
  · rw [List.filterMap_append, List.filter_append]
    exact List.rel_append h.voided h'.voided

structure Effect.Moves (x : Effect) (stored : Option Slot) (e : Event) : Prop where
  moved : e.moved? = some (x.slot.account, x.slot.currency.code)
  continues : (∀ s, stored = some s → s.Solvent) →
    (Slot.versionRead stored).toInt < Word.maxInt64 →
    e.Continues (Slot.figuresRead stored) ∧ (Slot.figuresRead stored).next e = x.slot.figures

/-- An effect on a slot that was read announces how it moves the slot, and tells of the entry that
it adds. -/
structure Effect.Announces (x : Effect) (stored : Option Slot) : Prop where
  moves : ∃ e rest, x.events = e :: rest ∧ x.Moves stored e ∧ ∀ e' ∈ rest, e'.moved? = none
  tell : Tell x.events x.entry.toList

theorem Posting.announces {p : Posting} {stored : Option Slot} {now later : Instant} {id : Uuid}
    {x : Effect} (h : p.effect stored now later id = .ok x) : x.Announces stored := by
  obtain ⟨moved, updated, e, hmove, hpost, rfl⟩ := effect_ok h
  obtain rfl := Entry.post_ok hpost
  refine ⟨⟨_, _, rfl, ⟨?_, ?_⟩, by simp [Event.moved?]⟩, ?_⟩
  · obtain ⟨-, change, rfl, -⟩ := Slot.move_announced hmove
    rfl
  · intro hs hcount
    cases stored with
    | none => exact Slot.move_continues hmove (Slot.solvent_opened ..) hcount
    | some s => exact Slot.move_continues hmove (hs s rfl) hcount
  · exact ⟨.cons (Entry.created_tells _) .nil, .nil⟩

theorem VoidCommand.announces {c : VoidCommand} {target : Entry} {slot : Slot}
    {now later : Instant} {id : Uuid} {x : Effect}
    (h : c.effect target slot now later id = .ok x) : x.Announces (some slot) := by
  obtain ⟨amount, moved, updated, e, voided, -, hmove, hvoid, rfl⟩ := effect_ok h
  obtain ⟨rfl, rfl⟩ := Entry.void_ok hvoid
  refine ⟨⟨_, _, rfl, ⟨?_, ?_⟩, by simp [Event.moved?]⟩, ?_⟩
  · obtain ⟨-, change, rfl, -⟩ := Slot.move_announced hmove
    rfl
  · intro hs hcount
    exact Slot.move_continues hmove (hs slot rfl) hcount
  · exact ⟨.cons (Entry.created_tells _) .nil, .cons ⟨rfl, rfl, rfl, rfl⟩ .nil⟩

theorem Earmark.announces {k : Earmark} {slot : Slot} {amount : Amount} {now : Instant} {x : Effect}
    (h : k.effect slot amount now = .ok x) : x.Announces (some slot) := by
  obtain ⟨changed, event, hchange, rfl⟩ := effect_ok h
  rcases change_ok hchange with ⟨u, hreserve, rfl⟩ | ⟨u, hrelease, rfl⟩
  · refine ⟨⟨_, _, rfl, ⟨?_, fun hs => ?_⟩, by simp⟩, ⟨.nil, .nil⟩⟩
    · obtain ⟨-, -, rfl, -⟩ := Slot.reserve_ok hreserve
      rfl
    · exact Slot.reserve_continues hreserve (hs slot rfl)
  · refine ⟨⟨_, _, rfl, ⟨?_, fun hs => ?_⟩, by simp⟩, ⟨.nil, .nil⟩⟩
    · obtain ⟨-, -, rfl, -⟩ := Slot.release_ok hrelease
      rfl
    · exact Slot.release_continues hrelease (hs slot rfl)

theorem Command.Settles.announces {m : Memory} {command : Command} {key : Slot.Key}
    {stored : Option Slot} {ids : List Uuid} {x : Effect}
    (h : command.Settles m key stored ids x) : x.Announces stored := by
  cases h with
  | post _ heffect => exact Posting.announces heffect
  | adjust _ heffect => exact Posting.announces heffect
  | void _ _ _ heffect => exact VoidCommand.announces heffect
  | earmark _ _ heffect => exact Earmark.announces heffect

/-! ## What the outbox says -/

theorem World.Staged.filterMap_event? {origin : Origin} {events : List Event} {ids : List Uuid}
    {messages : List Message} (h : World.Staged origin events ids messages) :
    messages.filterMap Message.event? = events := by
  induction h with
  | nil => rfl
  | cons event id now _ ih =>
      rw [List.filterMap_cons, Message.event?_ofEvent]
      exact congrArg (event :: ·) ih

namespace Store.Memory

/-- What the messages of the outbox say, in their order. -/
def events (m : Memory) : List Event :=
  m.outbox.filterMap Message.event?

def movements (m : Memory) (key : Slot.Key) : List Event :=
  m.events.filter fun e => e.moved? = some (key.1, key.2.code)

theorem events_write {m : Memory} {c : ChangeSet} {x : Effect} {origin : Origin}
    {stored : Option Slot} {ids : List Uuid} (h : x.Written origin stored ids c) :
    (m.write c).events = m.events ++ x.events := by
  rw [events, outbox_write, List.filterMap_append, h.outbox.filterMap_event?]
  rfl

end Store.Memory

theorem Slot.key_eq_iff {s : Slot} {key : Slot.Key} :
    s.key = key ↔ (s.account, s.currency.code) = (key.1, key.2.code) := by
  constructor
  · rintro rfl
    rfl
  · intro h
    obtain ⟨haccount, hcode⟩ := Prod.mk.inj h
    obtain ⟨account, ⟨code, hvalid⟩⟩ := key
    cases haccount
    cases hcode
    rfl

/-- What an effect announces is a movement of its slot and of no other. -/
theorem Effect.Announces.movements {x : Effect} {stored : Option Slot} (h : x.Announces stored)
    (key : Slot.Key) :
    ∃ e, x.Moves stored e ∧
      x.events.filter (fun e => decide (e.moved? = some (key.1, key.2.code))) =
        if x.slot.key = key then [e] else [] := by
  obtain ⟨e, rest, hevents, hmoves, hrest⟩ := h.moves
  refine ⟨e, hmoves, ?_⟩
  have hothers : rest.filter (fun e => decide (e.moved? = some (key.1, key.2.code))) = [] := by
    refine List.filter_eq_nil_iff.mpr fun e' he' => ?_
    rw [hrest e' he']
    simp
  have hkey : e.moved? = some (key.1, key.2.code) ↔ x.slot.key = key := by
    rw [hmoves.moved, Option.some.injEq, Slot.key_eq_iff]
  rw [hevents, List.filter_cons, hothers]
  simp only [hkey, decide_eq_true_eq]

namespace Traffic

variable {s : Traffic} {j : List (Nat × ChangeSet)}

theorem tell_after (h : (Call.charter .empty).Upheld .empty s) (hj : j <+: s.journal) :
    Tell (Memory.empty.after j).events (Memory.empty.after j).entries := by
  induction j using List.reverseRecOn with
  | nil => exact tell_nil
  | append_singleton j p ih =>
      obtain ⟨place, c⟩ := p
      obtain ⟨_, _, key, stored, ids, ids', x, -, -, -, hcommits⟩ := exists_commits h hj
      rw [Memory.after_concat, Memory.events_write hcommits.written, Memory.entries_write,
        hcommits.written.entry]
      exact (ih ((List.prefix_append ..).trans hj)).append hcommits.settles.announces.tell

/-- A version that was read is small while the store is `Holdable`. -/
theorem versionRead_lt (h : (Call.charter .empty).Upheld .empty s) (hfits : s.memory.Holdable)
    {p : Nat × ChangeSet} (hj : j ++ [p] <+: s.journal) (key : Slot.Key) :
    (Slot.versionRead ((Memory.empty.after j).slots.get? key)).toInt < Word.maxInt64 := by
  have hrows := Memory.length_outbox_after h.orderly
  rw [← h.memory] at hrows
  have hlength := hj.length_le
  rw [List.length_append, List.length_singleton] at hlength
  have hcount : Memory.commitsOn key j ≤ j.length := List.countP_le_length
  unfold Memory.Holdable at hfits
  have horderly : Memory.empty.Orderly ([] ++ j) := h.orderly.earlier ((List.prefix_append ..).trans hj)
  have hversion := Memory.versionOf_after key horderly
  rw [Memory.after_nil, Memory.versionOf_empty, Int64.zero_add] at hversion
  show ((Memory.empty.after j).versionOf key).toInt < Word.maxInt64
  rw [List.nil_append] at hversion
  rw [hversion, Word.toInt_ofNat_of_le (by omega)]
  omega

/-- The events that move a slot are its history at every moment: they `Replays` what the store has
of it. -/
theorem replays_after (h : (Call.charter .empty).Upheld .empty s) (hfits : s.memory.Holdable)
    (key : Slot.Key) (hj : j <+: s.journal) :
    Replays ((Memory.empty.after j).movements key) ((Memory.empty.after j).slots.get? key) := by
  induction j using List.reverseRecOn with
  | nil => exact replays_nil
  | append_singleton j p ih =>
      obtain ⟨place, c⟩ := p
      have hj' := (List.prefix_append j [(place, c)]).trans hj
      have hfew := fun key => commitsOn_lt_versions h hfits (List.prefix_refl _) key
      obtain ⟨_, _, key', stored, ids, ids', x, -, -, -, hcommits⟩ := exists_commits h hj
      -- the effect was worked out on the slot as it is when it is committed
      obtain rfl := hcommits.current (commitsOn_lt_versions h hfits hj' key')
      have hslot : c.slot.key = x.slot.key := congrArg Slot.key hcommits.written.slot
      obtain ⟨e, hmoves, hmovements⟩ := hcommits.settles.announces.movements key
      rw [Memory.movements, Memory.after_concat, Memory.events_write hcommits.written,
        List.filter_append, hmovements, Memory.get?_slots_write, hslot]
      by_cases hkey : x.slot.key = key
      · have hkey' : key' = key := hcommits.keeps.slotKey.symm.trans hkey
        subst hkey'
        have hsolvent := (books_after h hfew key' j hj').solvent
        have hcount := versionRead_lt h hfits hj key'
        obtain ⟨hcontinues, hnext⟩ := hmoves.continues hsolvent hcount
        rw [if_pos hkey, if_pos hkey, hcommits.written.slot]
        exact (ih hj').concat hcontinues hnext
      · rw [if_neg hkey, if_neg hkey, List.append_nil]
        exact ih hj'

theorem exists_event (h : (Call.charter .empty).Upheld .empty s) {x : Message}
    (hx : x ∈ s.memory.outbox) :
    ∃ e, x.event? = some e ∧ x.eventType = e.kind.name := by
  obtain ⟨_, _, hc, hx⟩ := exists_commit_of_mem_outbox h hx
  obtain ⟨_, _, _, -, -, -, hstaged⟩ := exists_staged h hc
  obtain ⟨e, id, now, -, rfl⟩ := hstaged.exists_event x hx
  exact ⟨e, Message.event?_ofEvent .., rfl⟩

theorem exists_moved (h : (Call.charter .empty).Upheld .empty s) {e : Event}
    (he : e ∈ s.memory.events) {account : Uuid} {code : String}
    (hmoved : e.moved? = some (account, code)) :
    ∃ key slot, s.memory.slots.get? key = some slot ∧ key.1 = account ∧ key.2.code = code := by
  obtain ⟨y, hy, hevent⟩ := List.mem_filterMap.mp he
  obtain ⟨place, c, hc, hy⟩ := exists_commit_of_mem_outbox h hy
  obtain ⟨j, hj⟩ := exists_prefix_of_mem hc
  obtain ⟨_, _, _, _, _, _, x, -, -, -, hcommits⟩ := exists_commits h hj
  have hmem : e ∈ x.events := by
    rw [← hcommits.written.outbox.filterMap_event?]
    exact List.mem_filterMap.mpr ⟨y, hy, hevent⟩
  -- it is the first event of the effect, as the others move nothing
  obtain ⟨e', rest, hevents, hmoves, hrest⟩ := hcommits.settles.announces.moves
  rw [hevents] at hmem
  rcases List.mem_cons.mp hmem with rfl | hmem
  · obtain ⟨slot, hslot⟩ := Memory.exists_slot_after (m := .empty) hc
    rw [← h.memory] at hslot
    have hkey := Option.some.inj (hmoves.moved.symm.trans hmoved)
    rw [← hcommits.written.slot] at hkey
    exact ⟨c.slot.key, slot, hslot, (Prod.mk.inj hkey).1, (Prod.mk.inj hkey).2⟩
  · exact absurd ((hrest e hmem).symm.trans hmoved) (by simp)

/-- The outbox announces what calls have done, once.  `Tell` is the comparison with the log,
`Replays` that with the slots. -/
structure Announced (s : Traffic) : Prop where
  /-- The outbox holds the messages of the commits, in their order. -/
  outbox : s.memory.outbox = s.journal.flatMap fun p => p.2.outbox
  distinct : (s.memory.outbox.map Message.id).Nodup
  /-- Every message names the origin of the call that has written it. -/
  origin : ∀ place c, (place, c) ∈ s.journal → ∃ p, s.parties[place]? = some p ∧
    ∀ x ∈ c.outbox, x.correlationId = p.task.origin.correlationId ∧
      x.initiatedBy = p.task.origin.initiatedBy
  /-- Every message is an event of the kind that it names. -/
  readable : ∀ x ∈ s.memory.outbox, ∃ e, x.event? = some e ∧ x.eventType = e.kind.name
  tell : Tell s.memory.events s.memory.entries
  moved : ∀ e ∈ s.memory.events, ∀ account code, e.moved? = some (account, code) →
    ∃ key slot, s.memory.slots.get? key = some slot ∧ key.1 = account ∧ key.2.code = code
  replays : s.memory.Holdable → ∀ key,
    Replays (s.memory.movements key) (s.memory.slots.get? key)

end Traffic

/-- Calls of any kind, on a store in which nothing has happened, come between each other in any way:
the outbox announces every commit once, and its events, as `Replays` reads them, are the history of
every slot. -/
theorem mutations_announced_once (steps : List (Interleaving.Step Call)) :
    let s : Traffic := (Interleaving.on .empty).run steps
    s.Announced := by
  intro s
  have h : (Call.charter .empty).Upheld .empty s := Traffic.upheld Memory.indexed_empty steps
  constructor
  case outbox => exact Traffic.outbox_eq h
  case distinct =>
    rw [Traffic.outbox_eq h]
    exact Traffic.nodup_message_ids h
  case origin =>
    intro place c hc
    obtain ⟨p, _, _, hp, -, -, hstaged⟩ := Traffic.exists_staged h hc
    refine ⟨p, hp, fun x hx => ?_⟩
    obtain ⟨_, _, _, -, rfl⟩ := hstaged.exists_event x hx
    exact ⟨rfl, rfl⟩
  case readable => exact fun x hx => Traffic.exists_event h hx
  case tell =>
    have htell := Traffic.tell_after h (List.prefix_refl _)
    rwa [← h.memory] at htell
  case moved => exact fun e he account code hmoved => Traffic.exists_moved h he hmoved
  case replays =>
    intro hfits key
    have hreplays := Traffic.replays_after h hfits key (List.prefix_refl _)
    rwa [← h.memory] at hreplays

/-- The reservation that had to plan again is announced once, after the debit that came first. -/
theorem mutations_announced_once_creditReserveDebitVoid :
    let s : Traffic := (Interleaving.on .empty).run creditReserveDebitVoid
    s.memory.Holdable ∧ s.memory.outbox.map Message.eventType =
      ["BalanceUpdated", "EntryCreated", "BalanceUpdated", "EntryCreated", "FundsReserved",
        "BalanceUpdated", "EntryCreated", "EntryVoided"] ∧ s.Announced := by
  intro s
  have hfits : s.memory.Holdable := by
    unfold Memory.Holdable
    decide +kernel
  exact ⟨hfits, by decide +kernel, mutations_announced_once creditReserveDebitVoid⟩

end BalanceLedger
