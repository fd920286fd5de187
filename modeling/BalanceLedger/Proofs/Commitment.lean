/-
# `Proofs.Commitment` — commits of effects

When the store accepts what an operation has worked out, the operation commits an effect
on the slot as it was read.  The check of the version says that the slot is still what
it was, unless so many commits came in between that the version has gone all the way
round.  So the effect that was worked out before is an effect on the slot as it is now.

Such a commit is in good order, and it may be made in the name of the operation: its
entry is named by what the operation has drawn.  `Commitment` has all this in one place,
`due` says that it is what the terms of a party ask for, and `Quiet.commitment` makes
one from an effect, a journal that was read and a store that accepts.  Each of the
operations ends with that lemma, so the argument about versions is made once.

Before that come the messages of an effect: how they are named (`World.Staged.map_id`),
and that each of them announces an event.
-/
import BalanceLedger.Proofs.Effect

namespace BalanceLedger

open Store (ChangeSet Memory)

theorem World.Staged.ne_nil {origin : Origin} {events : List Event} {ids : List Uuid}
    {messages : List Outbox.Message} (h : World.Staged origin events ids messages)
    (hevents : events ≠ []) : messages ≠ [] := by
  cases h with
  | nil => exact absurd rfl hevents
  | cons => simp

theorem World.Staged.map_id {origin : Origin} {events : List Event} {ids : List Uuid}
    {messages : List Outbox.Message} (h : World.Staged origin events ids messages) :
    messages.map Outbox.Message.id = ids := by
  induction h with
  | nil => rfl
  | cons event id now _ ih => rw [List.map_cons, ih]; rfl

theorem World.Staged.exists_event {origin : Origin} {events : List Event} {ids : List Uuid}
    {messages : List Outbox.Message} (h : World.Staged origin events ids messages) :
    ∀ x ∈ messages, ∃ event id now, event ∈ events ∧ x = .ofEvent event origin id now := by
  induction h with
  | nil => exact fun x hx => absurd hx List.not_mem_nil
  | cons event id now _ ih =>
      intro x hx
      rcases List.mem_cons.mp hx with rfl | hx
      · exact ⟨event, id, now, List.mem_cons_self, rfl⟩
      · obtain ⟨event', id', now', hevent, rfl⟩ := ih x hx
        exact ⟨event', id', now', List.mem_cons_of_mem _ hevent, rfl⟩

namespace Terms

variable {T : Terms} {start w : View}

/-- An operation commits an effect on a slot that it has read, with what it has drawn for the effect
and for the messages. -/
structure Commitment (T : Terms) (start w : View) (origin : Origin) (key : Slot.Key)
    (stored : Option Slot) (x : Effect) (ids ids' : List Uuid) (c : ChangeSet) : Prop where
  quiet : T.Quiet start w
  accepted : (T.memory w).fault? c = none
  written : x.Written origin stored ids' c
  keeps : x.Keeps stored key
  named : ∀ e, x.entry = some e → e.id ∈ ids
  drawn : ∃ older, w.drawn = (ids ++ ids').reverse ++ older ∧ start.drawn <:+ older
  /-- The slot is still what was read. -/
  current : Memory.commitsOn key w.journal < Memory.versions →
    (T.memory w).slots.get? key = stored

namespace Commitment

variable {origin : Origin} {key : Slot.Key} {stored : Option Slot} {x : Effect}
  {ids ids' : List Uuid} {c : ChangeSet}

theorem mem_drawn (h : T.Commitment start w origin key stored x ids ids' c) {id : Uuid}
    (hid : id ∈ ids ++ ids') : id ∈ w.drawn := by
  obtain ⟨older, hdrawn, -⟩ := h.drawn
  rw [hdrawn]
  exact List.mem_append_left _ (List.mem_reverse.mpr hid)

theorem nodup (h : T.Commitment start w origin key stored x ids ids' c) :
    (start.drawn ++ (ids ++ ids')).Nodup := by
  obtain ⟨older, hdrawn, hsuffix⟩ := h.drawn
  have hdistinct := h.quiet.distinct
  rw [hdrawn] at hdistinct
  obtain ⟨hnew, holder, hapart⟩ := List.nodup_append.mp hdistinct
  refine List.nodup_append.mpr ⟨hsuffix.sublist.nodup holder,
    (List.reverse_perm _).nodup_iff.mp hnew, fun id hid id' hid' heq => ?_⟩
  exact hapart id' (List.mem_reverse.mpr hid') id (hsuffix.subset hid) heq.symm

theorem due (h : T.Commitment start w origin key stored x ids ids' c) (howes : T.owes w c) :
    T.Due w c := by
  have hown : ∀ e, c.entry = some e → e.id ∈ w.drawn := by
    intro e he
    rw [h.written.entry] at he
    exact h.mem_drawn (List.mem_append_left _ (h.named e he))
  refine ⟨⟨h.accepted, ?_, ?_, ?_⟩, hown, howes⟩
  · rw [h.written.slot, h.written.expected, h.keeps.version]
  · intro e he
    exact h.quiet.unused e.id (hown e he)
  · exact h.written.outbox.ne_nil h.keeps.announced

end Commitment

/-- An effect that a `Quiet` operation has worked out on a slot as it was read is a commitment when
the store accepts it. -/
theorem Quiet.commitment {v : View} (hv : T.Quiet start v) (hw : T.Quiet start w)
    {j : List (Nat × ChangeSet)} (hj : j <+: w.journal) {origin : Origin} {x : Effect}
    {ids ids' : List Uuid} {c : ChangeSet} {key : Slot.Key} {stored : Option Slot}
    (hread : (T.base.after j).slots.get? key = stored)
    (hdrawn : w.drawn = (ids ++ ids').reverse ++ v.drawn)
    (hwritten : x.Written origin stored ids' c) (hkeeps : x.Keeps stored key)
    (hnamed : ∀ e, x.entry = some e → e.id ∈ ids) (haccepted : (T.memory w).fault? c = none) :
    T.Commitment start w origin key stored x ids ids' c := by
  have hkey : c.slot.key = key := hwritten.slot ▸ hkeeps.slotKey
  refine ⟨hw, haccepted, hwritten, hkeeps, hnamed, ⟨v.drawn, hdrawn, hv.drawn⟩, ?_⟩
  intro hfew
  obtain ⟨hversion, -⟩ := Memory.fault?_eq_none_iff.mp haccepted
  have hsame : (T.memory w).versionOf key = (T.base.after j).versionOf key := by
    rw [← hkey, hversion, hwritten.expected, ← hread, ← hkey]
    rfl
  rw [← hread]
  exact Memory.get?_slots_of_versionOf_eq hw.orderly hj hfew hsame

end Terms

end BalanceLedger
