/-
# `Proofs.RoundTrip` — the wire format is read as what it was written from

Each type of the wire has a writer and a reader, and the reader takes more than the
writer writes: records as arrays, fields in any order, blanks around codes and keys,
letters in either case, identifiers and instants in several spellings.  Three things are
compared.  What is written is read as what it was written from.  What has been read in
whatever form can be written and read again, and nothing is lost by it.  And both hold
of texts as they hold of JSON values.  `RoundTrips` is all three for one type.

The types keep their own validity, so that for most of them every value can be written,
which is `AlwaysRoundTrips`.  Instants alone are freer in the program than in a text,
and so are the types that hold them; and a stored event holds a JSON value that is not
the ledger's.

A record is read by a reader for each of its fields.  `Reads`, of the module about
payloads, says what is read of what was written; here `Ensures` is added to it, which
says what is known of a value that was read in any form.  Both are proved field by
field, along the text of the reader.

`wire_format_round_trips` has `Faithful` for all types, and it says that the form in
which a value is written is its normal form: what is accepted in any form can be put
into that one, and putting it there again changes nothing.
-/
import BalanceLedger.Proofs.Cancellation
import BalanceLedger.Proofs.JsonText
import BalanceLedger.Proofs.Timestamps
import BalanceLedger.WireFormat

namespace BalanceLedger

open Time (Instant)

/-! ## Single values -/

namespace Amount

theorem ofJson_toJson (a : Amount) : ofJson a.toJson = .ok a := by
  simp only [ofJson, toJson, Decode.int64_int64, Except.bind, a.ofInt64_val, Except.mapError]

end Amount

namespace IdempotencyKey

theorem ofJson_str_text (k : IdempotencyKey) : ofJson (.str k.text) = .ok k := by
  simp only [ofJson, Decode.parsed, Decode.text, Except.bind, k.parse_text, Except.mapError]

end IdempotencyKey

namespace Currency

theorem toNat_of_isUpper {c : Char} (h : c.isUpper = true) : 65 ≤ c.toNat ∧ c.toNat ≤ 90 := by
  obtain ⟨hlow, hhigh⟩ := of_decide_eq_true h
  exact ⟨UInt32.le_iff_toNat_le.mp hlow, UInt32.le_iff_toNat_le.mp hhigh⟩

theorem isBlank_of_isUpper {c : Char} (h : c.isUpper = true) : Text.isBlank c = false := by
  have hrange := toNat_of_isUpper h
  simp only [Text.isBlank, Bool.or_eq_false_iff, Bool.and_eq_false_iff, decide_eq_false_iff_not,
    beq_eq_false_iff_ne]
  omega

theorem toUpper_of_isUpper {c : Char} (h : c.isUpper = true) : c.toUpper = c := by
  refine dif_neg fun hlower => ?_
  have hlow : 97 ≤ c.toNat := UInt32.le_iff_toNat_le.mp hlower.1
  have hhigh := (toNat_of_isUpper h).2
  omega

theorem trimChars_of_isUpper {cs : List Char} (h : ∀ c ∈ cs, c.isUpper = true) :
    Text.trimChars cs = cs := by
  have hkeep (ds : List Char) (hds : ∀ c ∈ ds, c.isUpper = true) :
      ds.dropWhile Text.isBlank = ds := by
    cases ds with
    | nil => rfl
    | cons c ds =>
        refine List.dropWhile_cons_of_neg ?_
        rw [isBlank_of_isUpper (hds c List.mem_cons_self)]
        exact Bool.false_ne_true
  rw [Text.trimChars, hkeep cs h, hkeep cs.reverse fun c hc => h c (List.mem_reverse.mp hc),
    List.reverse_reverse]

/-- A code stands without blanks and in upper case, so that `parse` reads it as it is. -/
theorem parse_code (c : Currency) : parse c.code = .ok c := by
  have hupper : ∀ d ∈ c.code.toList, d.isUpper = true :=
    List.all_eq_true.mp (Bool.and_eq_true_iff.mp c.valid).2
  have htrim : Text.trim c.code = c.code := by
    rw [Text.trim, trimChars_of_isUpper hupper, String.ofList_toList]
  have hcode : String.ofList (c.code.toList.map Char.toUpper) = c.code := by
    rw [List.map_congr_left fun d hd => toUpper_of_isUpper (hupper d hd), List.map_id',
      String.ofList_toList]
  simp only [parse, htrim, hcode, c.valid, dif_pos]

theorem ofJson_toJson (c : Currency) : ofJson c.toJson = .ok c := by
  simp only [ofJson, toJson, Decode.parsed, Decode.text, Except.bind, c.parse_code,
    Except.mapError]

end Currency

theorem Side.ofJson_toJson (s : Side) : ofJson s.toJson = .ok s := by
  cases s <;> rfl

theorem AdjustmentKind.ofJson_toJson (k : AdjustmentKind) : ofJson k.toJson = .ok k := by
  cases k <;> rfl

theorem PostingStatus.ofJson_toJson (s : PostingStatus) : ofJson s.toJson = .ok s := by
  cases s <;> rfl

theorem Outbox.Status.ofJson_toJson (s : Status) : ofJson s.toJson = .ok s := by
  cases s <;> rfl

namespace Decode

theorem int32_int32 (n : Int32) : int32 (.int32 n) = .ok n := by
  have hlow : Word.minInt32 ≤ n.toInt := n.le_toInt
  have hhigh : n.toInt ≤ Word.maxInt32 := Int.le_of_lt_add_one n.toInt_lt
  simp only [int32, integer, Json.int32, if_pos (And.intro hlow hhigh), Except.map,
    Int32.ofInt_toInt]

/-! ## Fields -/

namespace Fields

variable {α β : Type} {ms : List (String × Json)} {name : String}

theorem reads_optional_map {item : Json → Result α} {render : α → String} {a : Option α}
    (hv : Json.member? name ms = some (.text? (a.map render)))
    (hitem : ∀ b, a = some b → item (.str (render b)) = .ok b) :
    (optional name item).Reads ms a := by
  intro i
  cases a with
  | none => simp only [optional, hv, Option.map_none, Json.text?, option, Except.mapError]
  | some b =>
      simp only [optional, hv, Option.map_some, Json.text?, option, hitem b rfl, Except.map,
        Except.mapError]

/-- Whatever the reader reads out of that source has the property. -/
def Ensures (f : Fields α) (source : Source) (P : α → Prop) : Prop :=
  ∀ i a, f.read source i = .ok a → P a

variable {source : Source}

theorem Ensures.any (f : Fields α) : f.Ensures source fun _ => True :=
  fun _ _ _ => trivial

theorem Ensures.seq {f : Fields (α → β)} {x : Fields α} {P : β → Prop} {Q : α → Prop}
    (hf : f.Ensures source fun g => ∀ a, Q a → P (g a)) (hx : x.Ensures source Q) :
    (f <*> x).Ensures source P := by
  intro i b h
  change (f.seq x).read source i = .ok b at h
  simp only [Fields.seq] at h
  split at h
  · rename_i g a hg ha
    obtain rfl := Except.ok.inj h
    exact hf _ _ hg _ (hx _ _ ha)
  all_goals exact absurd h (by simp)

theorem Ensures.map {x : Fields α} {g : α → β} {P : β → Prop}
    (hx : x.Ensures source fun a => P (g a)) : (g <$> x).Ensures source P := by
  refine Ensures.seq (f := Fields.pure g) (Q := fun a => P (g a)) ?_ hx
  intro i h heq
  obtain rfl := Except.ok.inj heq
  exact fun _ ha => ha

def Values (source : Source) : List Json :=
  match source with
  | .members ms => ms.map Prod.snd
  | .items xs => xs

theorem member?_mem {v : Json} (h : Json.member? name ms = some v) : v ∈ ms.map Prod.snd := by
  induction ms with
  | nil => exact absurd h (by simp [Json.member?])
  | cons m ms ih =>
      obtain ⟨key, w⟩ := m
      rw [Json.member?] at h
      split at h
      · obtain rfl := Option.some.inj h
        exact List.mem_cons_self
      · exact List.mem_cons_of_mem _ (ih h)

theorem ensures_required {item : Json → Result α} {P : α → Prop}
    (h : ∀ v ∈ Values source, ∀ a, item v = .ok a → P a) :
    (required name item).Ensures source P := by
  have hread (v : Json) (place : Place) (a : α) (hv : v ∈ Values source)
      (ha : (item v).mapError (Fault.mk place) = .ok a) : P a := by
    cases hitem : item v with
    | ok b =>
        rw [hitem] at ha
        obtain rfl := Except.ok.inj ha
        exact h v hv b hitem
    | error e => exact absurd ha (by simp [hitem, Except.mapError])
  intro i a ha
  cases source with
  | members ms =>
      simp only [required] at ha
      split at ha
      · rename_i v hv
        exact hread v _ a (member?_mem hv) ha
      · exact absurd ha (by simp)
  | items xs =>
      simp only [required] at ha
      split at ha
      · rename_i v hv
        exact hread v _ a (List.mem_of_getElem? hv) ha
      · exact absurd ha (by simp)

theorem option_eq_ok {item : Json → Result α} {v : Json} {a : Option α} {b : α}
    (h : option item v = .ok a) (hb : b ∈ a) : item v = .ok b := by
  have hmap (h : (item v).map some = .ok a) : item v = .ok b := by
    cases hitem : item v with
    | ok c =>
        rw [hitem] at h
        obtain rfl := Except.ok.inj h
        rw [Option.mem_some_iff.mp hb]
    | error e => exact absurd h (by simp [hitem, Except.map])
  cases v with
  | null =>
      obtain rfl := Except.ok.inj h
      exact absurd hb (by simp)
  | _ => exact hmap h

theorem ensures_optional {item : Json → Result α} {P : α → Prop}
    (h : ∀ v ∈ Values source, ∀ a, item v = .ok a → P a) :
    (optional name item).Ensures source fun a => ∀ b ∈ a, P b := by
  intro i a ha
  have hrequired : (required name (option item)).Ensures source fun a => ∀ b ∈ a, P b :=
    ensures_required fun v hv a ha b hb => h v hv b (option_eq_ok ha hb)
  cases source with
  | members ms =>
      cases hv : Json.member? name ms with
      | some v =>
          refine hrequired i a ?_
          simpa only [required, optional, hv] using ha
      | none =>
          simp only [optional, hv] at ha
          obtain rfl := Except.ok.inj ha
          exact fun b hb => absurd hb (by simp)
  | items xs => exact hrequired i a ha

theorem exists_source {f : Fields α} {v : Json} {a : α} (h : f.decode name v = .ok a) :
    ∃ source, Values source = v.parts ∧ f.read source 0 = .ok a := by
  cases v with
  | obj ms =>
      refine ⟨.members ms, rfl, ?_⟩
      cases hread : f.read (.members ms) 0 with
      | ok b => simpa [Fields.decode, hread, Except.mapError] using h
      | error e => simp [Fields.decode, hread, Except.mapError] at h
  | arr xs =>
      refine ⟨.items xs, rfl, ?_⟩
      simp only [Fields.decode] at h
      split at h
      · rename_i b hread
        split at h
        · exact absurd h (by simp)
        · obtain rfl := Except.ok.inj h
          exact hread
      all_goals exact absurd h (by simp)
  | _ => exact absurd h (by simp [Fields.decode])

/-- What is known of everything that is read out of the parts of a value. -/
theorem Ensures.decode {f : Fields α} {v : Json} {a : α} {P : α → Prop}
    (h : f.decode name v = .ok a) (hf : ∀ source, Values source = v.parts → f.Ensures source P) :
    P a := by
  obtain ⟨source, hsource, hread⟩ := exists_source h
  exact hf source hsource 0 a hread

end Fields

end Decode

/-! ## Types of the wire -/

namespace WireFormat

/-- Read a value out of a JSON text. -/
def readText {α : Type} (read : Json → Decode.Result α) (s : String) : Option α :=
  (Json.parse s).bind fun v => (read v).toOption

def innerDepth : Nat := 126

/-- A type of the wire is read as what it was written from.  Not every value of the type need be
writable, and it may hold JSON values that are not the ledger's. -/
structure RoundTrips {α : Type} (read : Json → Decode.Result α) (write : α → Json)
    (writable : α → Prop) (foreign : α → List Json) : Prop where
  written : ∀ a, writable a → read (write a) = .ok a
  /-- Whatever is accepted can be written, and is read again as the same value. -/
  again : ∀ v a, read v = .ok a → writable a ∧ read (write a) = .ok a
  writtenText : ∀ a, writable a → (∀ v ∈ foreign a, v.Plain innerDepth) →
    readText read (write a).render = some a
  againText : ∀ s a, readText read s = some a → (∀ v ∈ foreign a, v.Floatless) →
    readText read (write a).render = some a

/-- A type of the wire every value of which can be written. -/
abbrev AlwaysRoundTrips {α : Type} (read : Json → Decode.Result α) (write : α → Json) : Prop :=
  RoundTrips read write (fun _ => True) fun _ => []

variable {α : Type} {read : Json → Decode.Result α} {write : α → Json} {writable : α → Prop}
  {foreign : α → List Json}

theorem readText_render {a : α} (hread : read (write a) = .ok a)
    (hplain : (write a).Plain Json.maxDepth) : readText read (write a).render = some a := by
  rw [readText, Json.parse_render hplain, Option.bind_some, hread]
  rfl

theorem RoundTrips.of_parts (written : ∀ a, writable a → read (write a) = .ok a)
    (accepted : ∀ v a, read v = .ok a → writable a)
    (plain : ∀ a, (∀ v ∈ foreign a, v.Plain innerDepth) → (write a).Plain Json.maxDepth)
    (inner : ∀ v a, read v = .ok a → v.Regular Json.maxDepth →
      ∀ w ∈ foreign a, w.Regular innerDepth) : RoundTrips read write writable foreign where
  written := written
  again v a h := ⟨accepted v a h, written a (accepted v a h)⟩
  writtenText a ha hforeign := readText_render (written a ha) (plain a hforeign)
  againText s a h hfloatless := by
    obtain ⟨v, hv, hread⟩ := Option.bind_eq_some_iff.mp h
    have hread : read v = .ok a := by
      cases hr : read v with
      | ok b => simpa [hr, Except.toOption] using hread
      | error e => simp [hr, Except.toOption] at hread
    have hregular := inner v a hread (Json.regular_of_parse hv)
    exact readText_render (written a (accepted v a hread))
      (plain a fun w hw => ⟨hregular w hw, hfloatless w hw⟩)

/-- A type that holds no JSON values but its own, by `Plain`. -/
theorem RoundTrips.of_plain (written : ∀ a, writable a → read (write a) = .ok a)
    (accepted : ∀ v a, read v = .ok a → writable a)
    (plain : ∀ a, (write a).Plain Json.maxDepth) :
    RoundTrips read write writable fun _ => [] :=
  .of_parts written accepted (fun a _ => plain a)
    fun _ _ _ _ _ hw => absurd hw List.not_mem_nil

theorem AlwaysRoundTrips.of_plain (written : ∀ a, read (write a) = .ok a)
    (plain : ∀ a, (write a).Plain Json.maxDepth) : AlwaysRoundTrips read write :=
  RoundTrips.of_plain (fun a _ => written a) (fun _ _ _ => trivial) plain

end WireFormat

open Decode Decode.Fields WireFormat
open Json (Plain)

/-! ### Single values -/

@[simp]
theorem Uuid.plain_toJson {depth : Nat} (u : Uuid) : u.toJson.Plain depth :=
  .str _

@[simp]
theorem Currency.plain_toJson {depth : Nat} (c : Currency) : c.toJson.Plain depth :=
  .str _

@[simp]
theorem Side.plain_toJson {depth : Nat} (s : Side) : s.toJson.Plain depth :=
  .str _

@[simp]
theorem AdjustmentKind.plain_toJson {depth : Nat} (k : AdjustmentKind) : k.toJson.Plain depth :=
  .str _

@[simp]
theorem PostingStatus.plain_toJson {depth : Nat} (s : PostingStatus) : s.toJson.Plain depth :=
  .str _

@[simp]
theorem Outbox.Status.plain_toJson {depth : Nat} (s : Status) : s.toJson.Plain depth :=
  .str _

@[simp]
theorem Time.Instant.plain_toJson {depth : Nat} (t : Instant) : t.toJson.Plain depth :=
  .str _

/-! ### Records of values that can always be written -/

theorem Origin.roundTrips : AlwaysRoundTrips Origin.ofJson Origin.toJson := by
  refine .of_plain ?_ ?_
  · intro o
    have hread : fields.Reads o.toJson.members o := by
      obtain ⟨correlationId, initiatedBy⟩ := o
      refine .seq (.map _ ?_) ?_
      · cases correlationId <;> cases initiatedBy <;> exact fun _ => rfl
      · cases correlationId <;> cases initiatedBy <;> exact fun _ => rfl
    exact hread.decode _
  · intro o
    obtain ⟨correlationId, initiatedBy⟩ := o
    cases correlationId <;> cases initiatedBy <;> exact .obj (by simp) (by simp)

theorem PostCommand.roundTrips : AlwaysRoundTrips PostCommand.ofJson PostCommand.toJson := by
  refine .of_plain (fun c => ?_) fun c => .obj (by simp) (by simp)
  have hread : fields.Reads c.toJson.members c := by
    refine .seq (.seq (.seq (.seq (.seq (.seq (.seq (.map _ ?_) ?_) ?_) ?_) ?_) ?_) ?_) ?_
    · exact reads_required rfl c.account.ofJson_toJson
    · exact reads_required rfl rfl
    · exact reads_required rfl (int64_int64 c.amount)
    · exact reads_required rfl c.side.ofJson_toJson
    · exact reads_required rfl rfl
    · exact reads_optional_text rfl
    · exact reads_optional_map rfl fun u _ => u.ofJson_toJson
    · exact reads_optional_text rfl
  exact hread.decode _

theorem VoidCommand.roundTrips : AlwaysRoundTrips VoidCommand.ofJson VoidCommand.toJson := by
  refine .of_plain (fun c => ?_) fun c => .obj (by simp) (by simp)
  have hread : fields.Reads c.toJson.members c := by
    refine .seq (.map _ ?_) ?_
    · exact reads_required rfl c.target.ofJson_toJson
    · exact reads_required rfl rfl
  exact hread.decode _

theorem AdjustCommand.roundTrips : AlwaysRoundTrips AdjustCommand.ofJson AdjustCommand.toJson := by
  refine .of_plain (fun c => ?_) fun c => .obj (by simp) (by simp)
  have hread : fields.Reads c.toJson.members c := by
    refine .seq (.seq (.seq (.seq (.seq (.map _ ?_) ?_) ?_) ?_) ?_) ?_
    · exact reads_required rfl c.account.ofJson_toJson
    · exact reads_required rfl rfl
    · exact reads_required rfl (int64_int64 c.amount)
    · exact reads_required rfl c.kind.ofJson_toJson
    · exact reads_required rfl rfl
    · exact reads_optional_text rfl
  exact hread.decode _

theorem ReserveCommand.roundTrips :
    AlwaysRoundTrips ReserveCommand.ofJson ReserveCommand.toJson := by
  refine .of_plain (fun c => ?_) fun c => .obj (by simp) (by simp)
  have hread : fields.Reads c.toJson.members c := by
    refine .seq (.seq (.map _ ?_) ?_) ?_
    · exact reads_required rfl c.account.ofJson_toJson
    · exact reads_required rfl rfl
    · exact reads_required rfl (int64_int64 c.amount)
  exact hread.decode _

theorem PostingResult.roundTrips : AlwaysRoundTrips PostingResult.ofJson PostingResult.toJson := by
  refine .of_plain (fun r => ?_) fun r => .obj (by simp) (by simp)
  have hread : fields.Reads r.toJson.members r := by
    refine .seq (.seq (.map _ ?_) ?_) ?_
    · exact reads_required rfl r.entry.ofJson_toJson
    · exact reads_required rfl r.status.ofJson_toJson
    · exact reads_required rfl (int64_int64 r.balance)
  exact hread.decode _

theorem VoidResult.roundTrips : AlwaysRoundTrips VoidResult.ofJson VoidResult.toJson := by
  refine .of_plain (fun r => ?_) fun r => .obj (by simp) (by simp)
  have hread : fields.Reads r.toJson.members r := by
    refine .seq (.seq (.seq (.map _ ?_) ?_) ?_) ?_
    · exact reads_required rfl r.voidEntry.ofJson_toJson
    · exact reads_required rfl r.target.ofJson_toJson
    · exact reads_required rfl r.status.ofJson_toJson
    · exact reads_required rfl (int64_int64 r.balance)
  exact hread.decode _

theorem ReservationResult.roundTrips :
    AlwaysRoundTrips ReservationResult.ofJson ReservationResult.toJson := by
  refine .of_plain (fun r => ?_) fun r => .obj (by simp) (by simp)
  have hread : fields.Reads r.toJson.members r := by
    refine .seq (.seq (.seq (.seq (.map _ ?_) ?_) ?_) ?_) ?_
    · exact reads_required rfl r.account.ofJson_toJson
    · exact reads_required rfl rfl
    · exact reads_required rfl r.status.ofJson_toJson
    · exact reads_required rfl (int64_int64 r.reserved)
    · exact reads_required rfl (int64_int64 r.available)
  exact hread.decode _

/-! ### Records with instants -/

def Slot.Writable (s : Slot) : Prop :=
  s.updatedAt.Writable

theorem Slot.roundTrips : RoundTrips Slot.ofJson Slot.toJson Writable fun _ => [] := by
  refine .of_plain ?_ ?_ fun s => .obj (by simp) (by simp)
  · intro s hs
    have hread : fields.Reads s.toJson.members s := by
      refine .seq (.seq (.seq (.seq (.seq (.map _ ?_) ?_) ?_) ?_) ?_) ?_
      · exact reads_required rfl s.account.ofJson_toJson
      · exact reads_required rfl s.currency.ofJson_toJson
      · exact reads_required rfl (int64_int64 s.balance)
      · exact reads_required rfl (int64_int64 s.reserved)
      · exact reads_required rfl (int64_int64 s.version)
      · exact reads_required rfl (Instant.ofJson_toJson hs)
    exact hread.decode _
  · intro v s h
    refine Ensures.decode h fun source _ => ?_
    refine .seq (.seq (.seq (.seq (.seq (.map ?_) (.any _)) (.any _)) (.any _)) (.any _))
      (ensures_required fun v _ t => Instant.writable_of_ofJson)
    intro i account _ currency _ balance _ reserved _ version _ updatedAt hupdated
    exact hupdated

def Entry.Writable (e : Entry) : Prop :=
  e.date.Writable

theorem Entry.roundTrips : RoundTrips Entry.ofJson Entry.toJson Writable fun _ => [] := by
  refine .of_plain ?_ ?_ fun e => .obj (by simp) (by simp)
  · intro e he
    have hread : fields.Reads e.toJson.members e := by
      refine .seq (.seq (.seq (.seq (.seq (.seq (.seq (.seq (.seq (.seq (.seq (.map _ ?_) ?_) ?_)
        ?_) ?_) ?_) ?_) ?_) ?_) ?_) ?_) ?_
      · exact reads_required rfl e.id.ofJson_toJson
      · exact reads_required rfl e.account.ofJson_toJson
      · exact reads_required rfl e.currency.ofJson_toJson
      · exact reads_required rfl e.side.ofJson_toJson
      · exact reads_required rfl (int64_int64 e.amount)
      · exact reads_required rfl rfl
      · exact reads_optional_text rfl
      · exact reads_optional_map rfl fun u _ => u.ofJson_toJson
      · exact reads_optional_map rfl fun u _ => u.ofJson_toJson
      · exact reads_required rfl (Instant.ofJson_toJson he)
      · exact reads_required rfl (int64_int64 e.runningBalance)
      · exact reads_optional_map rfl fun k _ => k.ofJson_str_text
    exact hread.decode _
  · intro v e h
    refine Ensures.decode h fun source _ => ?_
    refine .seq (.seq (.seq (.seq (.seq (.seq (.seq (.seq (.seq (.seq (.seq (.map ?_) (.any _))
      (.any _)) (.any _)) (.any _)) (.any _)) (.any _)) (.any _)) (.any _))
      (ensures_required fun v _ t => Instant.writable_of_ofJson)) (.any _)) (.any _)
    intro i id _ account _ currency _ side _ amount _ description _ reference _ transaction _
      target _ date hdate
    intros
    exact hdate

namespace Outbox.Message

/-- A message whose instants are `Writable`. -/
structure Writable (m : Message) : Prop where
  occurredAt : m.occurredAt.Writable
  processedAt : ∀ t ∈ m.processedAt, t.Writable
  claimedAt : ∀ t ∈ m.claimedAt, t.Writable

theorem read_written {m : Message} (hm : m.Writable) : ofJson m.toJson = .ok m := by
  have hread : fields.Reads m.toJson.members m := by
    refine .seq (.seq (.seq (.seq (.seq (.seq (.seq (.seq (.seq (.seq (.map _ ?_) ?_) ?_) ?_) ?_)
      ?_) ?_) ?_) ?_) ?_) ?_
    · exact reads_required rfl m.id.ofJson_toJson
    · exact reads_required rfl rfl
    · exact reads_required rfl rfl
    · exact reads_required rfl (Instant.ofJson_toJson hm.occurredAt)
    · exact reads_optional_map rfl fun t ht => Instant.ofJson_toJson (hm.processedAt t ht)
    · exact reads_optional_map rfl fun t ht => Instant.ofJson_toJson (hm.claimedAt t ht)
    · exact reads_required rfl m.status.ofJson_toJson
    · exact reads_required rfl (int32_int32 m.retryCount)
    · exact reads_optional_text rfl
    · exact reads_optional_text rfl
    · exact reads_optional_text rfl
  exact hread.decode _

theorem writable_payload_of_read {v : Json} {m : Message} (h : ofJson v = .ok m) :
    m.Writable ∧ m.payload ∈ v.parts := by
  refine Ensures.decode (P := fun m => m.Writable ∧ m.payload ∈ v.parts) h
    fun source hsource => ?_
  have hpayload : (required "payload" fun v => .ok v).Ensures source (· ∈ v.parts) := by
    refine ensures_required fun w hw a ha => ?_
    obtain rfl := Except.ok.inj ha
    exact hsource ▸ hw
  refine .seq (.seq (.seq (.seq (.seq (.seq (.seq (.seq (.seq (.seq (.map ?_) (.any _)) hpayload)
    (ensures_required fun v _ t => Instant.writable_of_ofJson))
    (ensures_optional fun v _ t => Instant.writable_of_ofJson))
    (ensures_optional fun v _ t => Instant.writable_of_ofJson)) (.any _)) (.any _)) (.any _))
    (.any _)) (.any _)
  intro i id _ type _ payload hpayload occurredAt hoccurred processedAt hprocessed claimedAt
    hclaimed
  intros
  exact ⟨⟨hoccurred, hprocessed, hclaimed⟩, hpayload⟩

theorem roundTrips : RoundTrips ofJson toJson Writable fun m => [m.payload] := by
  refine .of_parts (fun m => read_written) ?_ ?_ ?_
  · intro v m h
    exact (writable_payload_of_read h).1
  · intro m hpayload
    have hpayload : m.payload.Plain 126 := hpayload _ (List.mem_singleton.mpr rfl)
    exact .obj (by simp) (by simp [instant?, hpayload])
  · intro v m h hregular w hw
    obtain rfl := List.mem_singleton.mp hw
    exact hregular.parts _ (writable_payload_of_read h).2

end Outbox.Message

/-! ## The whole wire format -/

namespace WireFormat

/-- Every type of the wire is read as what it was written from. -/
structure Faithful : Prop where
  amount : AlwaysRoundTrips Amount.ofJson Amount.toJson
  currency : AlwaysRoundTrips Currency.ofJson Currency.toJson
  key : AlwaysRoundTrips IdempotencyKey.ofJson IdempotencyKey.toJson
  side : AlwaysRoundTrips Side.ofJson Side.toJson
  adjustmentKind : AlwaysRoundTrips AdjustmentKind.ofJson AdjustmentKind.toJson
  postingStatus : AlwaysRoundTrips PostingStatus.ofJson PostingStatus.toJson
  outboxStatus : AlwaysRoundTrips Outbox.Status.ofJson Outbox.Status.toJson
  origin : AlwaysRoundTrips Origin.ofJson Origin.toJson
  postCommand : AlwaysRoundTrips PostCommand.ofJson PostCommand.toJson
  voidCommand : AlwaysRoundTrips VoidCommand.ofJson VoidCommand.toJson
  adjustCommand : AlwaysRoundTrips AdjustCommand.ofJson AdjustCommand.toJson
  reserveCommand : AlwaysRoundTrips ReserveCommand.ofJson ReserveCommand.toJson
  postingResult : AlwaysRoundTrips PostingResult.ofJson PostingResult.toJson
  voidResult : AlwaysRoundTrips VoidResult.ofJson VoidResult.toJson
  reservationResult : AlwaysRoundTrips ReservationResult.ofJson ReservationResult.toJson
  /-- Slots, entries and messages hold instants, which have to be writable. -/
  slot : RoundTrips Slot.ofJson Slot.toJson Slot.Writable fun _ => []
  entry : RoundTrips Entry.ofJson Entry.toJson Entry.Writable fun _ => []
  /-- A message holds a payload, which is read back from a text only if the text can hold it. -/
  message : RoundTrips Outbox.Message.ofJson Outbox.Message.toJson Outbox.Message.Writable
    fun m => [m.payload]
  entryCreated : AlwaysRoundTrips EntryCreated.ofJson EntryCreated.toJson
  balanceUpdated : AlwaysRoundTrips BalanceUpdated.ofJson BalanceUpdated.toJson
  entryVoided : AlwaysRoundTrips EntryVoided.ofJson EntryVoided.toJson
  /-- Two kinds of events have one payload. -/
  reservationChange : ∀ kind,
    AlwaysRoundTrips (ReservationChange.ofJson kind) ReservationChange.toJson

theorem faithful : Faithful where
  amount := .of_plain Amount.ofJson_toJson fun a => .int64 a.val
  currency := .of_plain Currency.ofJson_toJson fun c => .str c.code
  key := .of_plain IdempotencyKey.ofJson_str_text fun k => .str k.text
  side := .of_plain Side.ofJson_toJson fun s => .str s.name
  adjustmentKind := .of_plain AdjustmentKind.ofJson_toJson fun k => .str k.name
  postingStatus := .of_plain PostingStatus.ofJson_toJson fun s => .str s.name
  outboxStatus := .of_plain Outbox.Status.ofJson_toJson fun s => .str s.name
  origin := Origin.roundTrips
  postCommand := PostCommand.roundTrips
  voidCommand := VoidCommand.roundTrips
  adjustCommand := AdjustCommand.roundTrips
  reserveCommand := ReserveCommand.roundTrips
  postingResult := PostingResult.roundTrips
  voidResult := VoidResult.roundTrips
  reservationResult := ReservationResult.roundTrips
  slot := Slot.roundTrips
  entry := Entry.roundTrips
  message := Outbox.Message.roundTrips
  entryCreated := .of_plain EntryCreated.ofJson_toJson fun e => .obj (by simp) (by simp)
  balanceUpdated := .of_plain BalanceUpdated.ofJson_toJson fun e => .obj (by simp) (by simp)
  entryVoided := .of_plain EntryVoided.ofJson_toJson fun e => .obj (by simp) (by simp)
  reservationChange kind :=
    .of_plain (ReservationChange.ofJson_toJson kind) fun e => .obj (by simp) (by simp)

variable {α : Type} {read : Json → Decode.Result α} {write : α → Json} {writable : α → Prop}
  {foreign : α → List Json}

theorem RoundTrips.again_again (h : RoundTrips read write writable foreign) (v w : Json)
    (hv : WireFormat.again read write v = .ok w) : WireFormat.again read write w = .ok w := by
  unfold WireFormat.again at hv ⊢
  cases ha : read v with
  | ok a =>
      rw [ha] at hv
      obtain rfl := Except.ok.inj hv
      rw [(h.again v a ha).2]
      rfl
  | error e => exact absurd hv (by simp [ha, Except.map])

/-- A form in which a value is written is written in that form. -/
theorem normal_of_mem (h : Faithful) {type : String} {form : Json → Decode.Result Json}
    (hmem : (type, form) ∈ types) (v w : Json) : form v = .ok w → form w = .ok w := by
  have htypes : ∀ x ∈ types, ∀ v w, x.2 v = .ok w → x.2 w = .ok w := by
    simp only [types, List.forall_mem_cons]
    exact ⟨h.amount.again_again, h.currency.again_again, h.key.again_again, h.side.again_again,
      h.adjustmentKind.again_again, h.postingStatus.again_again, h.outboxStatus.again_again,
      h.origin.again_again, h.postCommand.again_again, h.voidCommand.again_again,
      h.adjustCommand.again_again, h.reserveCommand.again_again, h.postingResult.again_again,
      h.voidResult.again_again, h.reservationResult.again_again, h.slot.again_again,
      h.entry.again_again, h.message.again_again, h.entryCreated.again_again,
      h.balanceUpdated.again_again, h.entryVoided.again_again,
      (h.reservationChange .fundsReserved).again_again,
      (h.reservationChange .reservationReleased).again_again,
      fun _ hmem => absurd hmem List.not_mem_nil⟩
  exact htypes (type, form) hmem v w

end WireFormat

/-- Every value of every type of the wire is read as what it was written from, as a JSON value and
as a text; and what is read in any form that is accepted is written, and read again, as the same
value.  So the form in which the library writes a value is the form in which it writes that form
again. -/
theorem wire_format_round_trips :
    WireFormat.Faithful ∧ ∀ type v w, WireFormat.normalise? type v = some (.ok w) →
      WireFormat.normalise? type w = some (.ok w) := by
  refine ⟨WireFormat.faithful, fun type v w hv => ?_⟩
  obtain ⟨form, hform, hread⟩ := Option.map_eq_some_iff.mp hv
  obtain ⟨before, after, heq, -⟩ := List.lookup_eq_some_iff.mp hform
  have hmem : (type, form) ∈ WireFormat.types := by
    rw [heq]
    exact List.mem_append_right _ List.mem_cons_self
  rw [WireFormat.normalise?, hform, Option.map_some,
    WireFormat.normal_of_mem WireFormat.faithful hmem v w hread]

/-- A slot as an array, with an identifier in braces, a currency in lower case and an instant
behind UTC. -/
example :
    WireFormat.normalise? "AccountBalance"
      (.arr [.str "\x7b00000000-0000-0000-0000-00000000000A\x7d", .str " mad ", .int 5, .int 0,
        .int 1, .str "2024-02-29 23:30:00-01:30"]) =
    some (.ok (Slot.toJson
      { account := .ofNat 10, currency := ⟨"MAD", by decide⟩, balance := 5, reserved := 0,
        version := 1, updatedAt := { seconds := 1709254800, nanos := 0 } })) := by
  decide +kernel

end BalanceLedger
