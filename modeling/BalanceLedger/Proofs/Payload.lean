/-
# `Proofs.Payload` — events survive being stored

A message holds an event as the name of its kind and a bare payload, and a deliverer
reads the event back out of both.  The writer and the reader of a payload share nothing
but the names of the members, and two kinds of events have the same members, so that a
payload alone does not say which event it is.  What is read back is the event all the
same: every value of a payload is read as what it was written from, and every name as
the kind that it is the name of.  `Event.ofJson_toJson` is the round trip.

A registry decides by the name which decoder it reads with.
`Registry.decode_ledgerEvents` says what that comes to where the decoders are those of
the ledger, and `Registry.decode_ofEvent` that the message of an event is then read as
that event.  For any other registry there is only `Processor.event?`, what a processor
publishes for a message if its own registry can read it.

The records are read field by field, in the order in which they are asked for.  `Reads`
is what one of these readers does, so that a record is proved by a rule for each field;
the identifiers come first, since every payload has some.
-/
import BalanceLedger.Outbox.Processor
import Mathlib.Algebra.Ring.Nat

namespace BalanceLedger

open Time (Instant)

/-! ## Identifiers -/

namespace Uuid

theorem length_hexDigits (count n : Nat) : (hexDigits count n).length = count := by
  induction count generalizing n with
  | zero => rfl
  | succ count ih => rw [hexDigits, List.length_append, ih, List.length_singleton]

theorem digit?_digitChar : ∀ d, d < 16 → digit? (Nat.digitChar d) = some d := by
  decide

theorem mapM_digit?_hexDigits (count n : Nat) :
    ∃ ds, (hexDigits count n).mapM digit? = some ds ∧
      ds.foldl (fun n d => n * 16 + d) 0 = n % 16 ^ count := by
  induction count generalizing n with
  | zero => exact ⟨[], rfl, by rw [Nat.pow_zero, Nat.mod_one]; rfl⟩
  | succ count ih =>
      obtain ⟨ds, hds, hvalue⟩ := ih (n / 16)
      refine ⟨ds ++ [n % 16], ?_, ?_⟩
      · rw [hexDigits, List.mapM_append, hds]
        simp [digit?_digitChar (n % 16) (Nat.mod_lt n (by omega))]
      · rw [List.foldl_append, hvalue, Nat.pow_succ, Nat.mul_comm (16 ^ count), Nat.mod_mul]
        simp only [List.foldl_cons, List.foldl_nil]
        omega

theorem length_hyphenate : ∀ (sizes : List Nat) (cs : List Char), cs.length = sizes.sum →
    (hyphenate sizes cs).length = cs.length + (sizes.length - 1)
  | [], cs, _ => rfl
  | [_], cs, _ => rfl
  | size :: next :: sizes, cs, h => by
      rw [List.sum_cons] at h
      have hrest : (cs.drop size).length = (next :: sizes).sum := by
        rw [List.length_drop]
        omega
      rw [hyphenate, List.length_append, List.length_cons, length_hyphenate _ _ hrest,
        List.length_take, List.length_drop]
      · simp only [List.length_cons]
        omega
      · exact List.cons_ne_nil next sizes

theorem dehyphenate?_hyphenate : ∀ (sizes : List Nat) (cs : List Char), cs.length = sizes.sum →
    dehyphenate? sizes (hyphenate sizes cs) = some cs
  | [], cs, h => by
      obtain rfl := List.length_eq_zero_iff.mp h
      rfl
  | [size], cs, h => by
      rw [List.sum_singleton] at h
      exact if_pos h
  | size :: next :: sizes, cs, h => by
      rw [List.sum_cons] at h
      have hrest : (cs.drop size).length = (next :: sizes).sum := by
        rw [List.length_drop]
        omega
      have htake : (cs.take size).length = size := by
        rw [List.length_take]
        omega
      have ih := dehyphenate?_hyphenate (next :: sizes) (cs.drop size) hrest
      rw [hyphenate, dehyphenate?, List.drop_left' htake,
        List.take_left' htake]
      · simp only [ih, Option.map_some, List.take_append_drop]
      · exact List.cons_ne_nil next sizes
      · exact List.cons_ne_nil next sizes

theorem ofDigits?_hexDigits (u : Uuid) : ofDigits? (hexDigits 32 u.toNat) = some u := by
  obtain ⟨ds, hds, hvalue⟩ := mapM_digit?_hexDigits 32 u.toNat
  have hfits : u.toNat % 16 ^ 32 = u.toNat := Nat.mod_eq_of_lt u.val.isLt
  rw [ofDigits?, if_pos (length_hexDigits 32 u.toNat), hds, Option.map_some, hvalue, hfits, ofNat,
    toNat, BitVec.ofNat_toNat, BitVec.setWidth_eq]

/-- An identifier is read as what it was written from. -/
theorem parse?_render (u : Uuid) : parse? u.render = some u := by
  have hdigits := length_hexDigits 32 u.toNat
  have hlength : u.toChars.length = 36 := by
    rw [toChars, length_hyphenate groupSizes _ hdigits, hdigits]
    rfl
  rw [parse?, render, String.toList_ofList, ofChars?, hlength]
  simp only [ofHyphenated?]
  rw [toChars, dehyphenate?_hyphenate groupSizes _ hdigits, Option.bind_some,
    ofDigits?_hexDigits]

theorem ofJson_toJson (u : Uuid) : ofJson u.toJson = .ok u := by
  simp only [toJson, ofJson, parse?_render]

end Uuid

/-! ## Records -/

namespace Decode

theorem int64_int64 (n : Int64) : int64 (.int64 n) = .ok n := by
  have hlow : Word.minInt64 ≤ n.toInt := n.le_toInt
  have hhigh : n.toInt ≤ Word.maxInt64 := Int.le_of_lt_add_one n.toInt_lt
  simp only [int64, integer, Json.int64, if_pos (And.intro hlow hhigh), Except.map,
    Int64.ofInt_toInt]

namespace Fields

variable {α β : Type} {ms : List (String × Json)} {name : String} {v : Json}

/-- A reader reads a value out of the members of an object. -/
def Reads (f : Fields α) (ms : List (String × Json)) (a : α) : Prop :=
  ∀ i, f.read (.members ms) i = .ok a

theorem Reads.seq {f : Fields (α → β)} {x : Fields α} {g : α → β} {a : α} (hf : f.Reads ms g)
    (hx : x.Reads ms a) : (f <*> x).Reads ms (g a) := by
  intro i
  show (f.seq x).read (.members ms) i = .ok (g a)
  simp only [Fields.seq, hf i, hx (i + f.size)]

theorem Reads.map {x : Fields α} {a : α} (g : α → β) (hx : x.Reads ms a) :
    (g <$> x).Reads ms (g a) :=
  Reads.seq (f := Fields.pure g) (fun _ => rfl) hx

theorem reads_required {item : Json → Result α} {a : α} (hv : Json.member? name ms = some v)
    (ha : item v = .ok a) : (required name item).Reads ms a := by
  intro i
  simp only [required, hv, ha, Except.mapError]

theorem reads_optional_text {a : Option String} (hv : Json.member? name ms = some (.text? a)) :
    (optional name text).Reads ms a := by
  intro i
  cases a with
  | none => simp only [optional, hv, Json.text?, option, Except.mapError]
  | some s => simp only [optional, hv, Json.text?, option, text, Except.map, Except.mapError]

theorem Reads.decode {f : Fields α} {a : α} (h : f.Reads ms a) (name : String) :
    f.decode name (.obj ms) = .ok a := by
  simp only [Fields.decode, h 0, Except.mapError]

end Fields

end Decode

/-! ## Events -/

open Decode Decode.Fields

theorem EntryCreated.ofJson_toJson (e : EntryCreated) : ofJson e.toJson = .ok e := by
  have hread : fields.Reads e.toJson.members e := by
    refine .seq (.seq (.seq (.seq (.seq (.seq (.map _ ?_) ?_) ?_) ?_) ?_) ?_) ?_
    · exact reads_required rfl e.entry.ofJson_toJson
    · exact reads_required rfl e.account.ofJson_toJson
    · exact reads_required rfl rfl
    · exact reads_required rfl (int64_int64 e.amount)
    · exact reads_required rfl rfl
    · exact reads_required rfl (int64_int64 e.runningBalance)
    · exact reads_optional_text rfl
  exact hread.decode _

theorem BalanceUpdated.ofJson_toJson (e : BalanceUpdated) : ofJson e.toJson = .ok e := by
  have hread : fields.Reads e.toJson.members e := by
    refine .seq (.seq (.seq (.seq (.seq (.map _ ?_) ?_) ?_) ?_) ?_) ?_
    · exact reads_required rfl e.account.ofJson_toJson
    · exact reads_required rfl rfl
    · exact reads_required rfl (int64_int64 e.previous)
    · exact reads_required rfl (int64_int64 e.balance)
    · exact reads_required rfl (int64_int64 e.change)
    · exact reads_required rfl (int64_int64 e.version)
  exact hread.decode _

theorem EntryVoided.ofJson_toJson (e : EntryVoided) : ofJson e.toJson = .ok e := by
  have hread : fields.Reads e.toJson.members e := by
    refine .seq (.seq (.seq (.map _ ?_) ?_) ?_) ?_
    · exact reads_required rfl e.target.ofJson_toJson
    · exact reads_required rfl e.voidEntry.ofJson_toJson
    · exact reads_required rfl e.account.ofJson_toJson
    · exact reads_required rfl rfl
  exact hread.decode _

theorem ReservationChange.ofJson_toJson (kind : EventKind) (e : ReservationChange) :
    ofJson kind e.toJson = .ok e := by
  have hread : fields.Reads e.toJson.members e := by
    refine .seq (.seq (.seq (.seq (.seq (.map _ ?_) ?_) ?_) ?_) ?_) ?_
    · exact reads_required rfl e.account.ofJson_toJson
    · exact reads_required rfl rfl
    · exact reads_required rfl (int64_int64 e.amount)
    · exact reads_required rfl (int64_int64 e.reserved)
    · exact reads_required rfl (int64_int64 e.available)
    · exact reads_required rfl (int64_int64 e.version)
  exact hread.decode _

/-- An event is read back from its payload, as one of its `kind`. -/
theorem Event.ofJson_toJson (e : Event) : ofJson e.kind e.toJson = .ok e := by
  cases e with
  | entryCreated e => simp only [kind, ofJson, toJson, e.ofJson_toJson, Except.map]
  | balanceUpdated e => simp only [kind, ofJson, toJson, e.ofJson_toJson, Except.map]
  | entryVoided e => simp only [kind, ofJson, toJson, e.ofJson_toJson, Except.map]
  | fundsReserved e =>
      simp only [kind, ofJson, toJson, ReservationChange.ofJson_toJson, Except.map]
  | reservationReleased e =>
      simp only [kind, ofJson, toJson, ReservationChange.ofJson_toJson, Except.map]

namespace Outbox

theorem Registry.decode_ledgerEvents (kind : EventKind) (payload : Json) :
    ledgerEvents.decode kind.name payload =
      (Event.ofJson kind payload).mapError (.undecodable kind.name) := by
  cases kind <;> rfl

/-- The message of an event is read by `ledgerEvents` as that event. -/
theorem Registry.decode_ofEvent (e : Event) (origin : Origin) (id : Uuid) (now : Instant) :
    ledgerEvents.decode (Message.ofEvent e origin id now).eventType
      (Message.ofEvent e origin id now).payload = .ok e := by
  show ledgerEvents.decode e.kind.name e.toJson = .ok e
  rw [Registry.decode_ledgerEvents, e.ofJson_toJson]
  rfl

/-- The event of a message, as a deliverer that knows the events of the ledger reads it. -/
def Message.event? (x : Message) : Option Event :=
  (Registry.ledgerEvents.decode x.eventType x.payload).toOption

theorem Message.event?_ofEvent (e : Event) (origin : Origin) (id : Uuid) (now : Instant) :
    (ofEvent e origin id now).event? = some e := by
  rw [event?, Registry.decode_ofEvent]
  rfl

namespace Processor

variable {p : Processor} {x : Message}

/-- The event that is published for a message, if the `registry` of the processor can read it. -/
def event? (p : Processor) (x : Message) : Option PublishedEvent :=
  (p.registry.decode x.eventType x.payload).toOption.map (PublishedEvent.ofMessage x)

theorem event?_of_decode {event : Event} (h : p.registry.decode x.eventType x.payload = .ok event) :
    p.event? x = some (.ofMessage x event) := by
  rw [event?, h]
  rfl

theorem event?_eq_none_of_decode {e : OutboxError}
    (h : p.registry.decode x.eventType x.payload = .error e) : p.event? x = none := by
  rw [event?, h]
  rfl

theorem event?_id {e : PublishedEvent} (h : p.event? x = some e) : e.id = x.id := by
  obtain ⟨event, -, rfl⟩ := Option.map_eq_some_iff.mp h
  rfl

end Processor

end Outbox

end BalanceLedger
