/-
# `Proofs.Rows` — what is bound to a statement is what its row is read as

A statement that writes a row names columns, and values are bound to it by number.  The
reader of the row knows nothing of these numbers: it asks for columns by name, and for
some that were never written.  So what is read back depends on two lists of columns, on
the numbers in the text of the statement, and on the texts that names, currencies and
keys are written as.

The statements are taken apart here into columns and numbers, from which their texts can
be put together again (`insertSlot_eq` and its kin).  `Insertion` and `Revision` are
statements so taken apart, and what they do to a row is said of the columns.  Then a row
holds in each column the value that is bound to it, and it is read as what was written;
that is one `RowReader.Reads` for each table and each way in which a row comes about,
also when the values have travelled as `Value.sent` says.

The other way round, a row can hold texts that stand for nothing.  It is told to be
corrupt then, by `CorruptUnless`, and so is the whole answer that it is part of:
`answers_request` says of every request that is answered from rows that its answer is
`MadeOf` them.

`rows_read_as_bound` has all of this, and it also says that what is bound is what the
store sends.
-/
import BalanceLedger.Proofs.Connection
import BalanceLedger.Proofs.RoundTrip

namespace BalanceLedger

theorem Side.parse_name (side : Side) : parse side.name = .ok side := by
  cases side <;> decide +kernel

theorem Outbox.Status.parse_name (status : Status) : parse status.name = .ok status := by
  cases status <;> decide +kernel

end BalanceLedger

namespace BalanceLedger.Sql

open Outbox (Message Status StatusCounts)
open Time (Instant)

/-! ## Statements that write a row -/

/-- Columns with the numbers of the values that are bound to them. -/
abbrev Assignment := List (String × Nat)

namespace Assignment

def value? (a : Assignment) (values : List Value) (column : String) : Option Value :=
  (a.lookup column).bind fun n => values[n - 1]?

def equations (a : Assignment) : List String :=
  a.map fun (column, n) => column ++ " = $" ++ toString n

end Assignment

abbrev Content := String → Value

/-- A statement that adds a row to a table. -/
structure Insertion where
  table : String
  columns : Assignment
  /-- What is said of rows that are there already. -/
  otherwise : String := ""

namespace Insertion

def text (i : Insertion) : String :=
  "INSERT INTO " ++ i.table ++ " ( " ++ listed (i.columns.map Prod.fst) ++ " ) VALUES (" ++
    listed (i.columns.map fun (_, n) => "$" ++ toString n) ++ ")" ++ i.otherwise

/-- The row that is added: a column that is not named is absent. -/
def content (i : Insertion) (values : List Value) : Content :=
  fun column => (i.columns.value? values column).getD .null

end Insertion

structure Revision where
  table : String
  columns : Assignment
  /-- What has to be in a row so that it is changed. -/
  condition : Assignment

namespace Revision

def text (r : Revision) : String :=
  "UPDATE " ++ r.table ++ " SET " ++ ", ".intercalate r.columns.equations ++ " WHERE " ++
    " AND ".intercalate r.condition.equations

/-- Is a row changed?  What is `.null` equals nothing. -/
def Selects (r : Revision) (values : List Value) (old : Content) : Prop :=
  ∀ p ∈ r.condition, values[p.2 - 1]? = some (old p.1) ∧ old p.1 ≠ .null

/-- The row after the change: a column that is not named stays as it was. -/
def content (r : Revision) (values : List Value) (old : Content) : Content :=
  fun column => (r.columns.value? values column).getD (old column)

end Revision

def slotInsertion : Insertion where
  table := "account_balances"
  columns := [("account_id", 1), ("currency_code", 2), ("balance_minor_units", 3),
    ("reserved_minor_units", 4), ("version", 5), ("last_updated_at", 6)]
  otherwise := " ON CONFLICT (account_id, currency_code) DO NOTHING"

def slotRevision : Revision where
  table := "account_balances"
  columns := [("balance_minor_units", 3), ("reserved_minor_units", 4), ("version", 5),
    ("last_updated_at", 6)]
  condition := [("account_id", 1), ("currency_code", 2), ("version", 7)]

def entryInsertion : Insertion where
  table := "ledger_entries"
  columns := [("id", 1), ("account_id", 2), ("currency_code", 3), ("entry_type", 4),
    ("amount_minor_units", 5), ("description", 6), ("reference", 7), ("transaction_id", 8),
    ("original_entry_id", 9), ("entry_date", 10), ("running_balance", 11),
    ("idempotency_key", 12)]

def messageInsertion : Insertion where
  table := "outbox_messages"
  columns := [("id", 1), ("event_type", 2), ("payload", 3), ("occurred_at", 4), ("status", 5),
    ("retry_count", 6), ("correlation_id", 7), ("initiated_by", 8)]

theorem insertSlot_eq : Statement.insertSlot = slotInsertion.text := by
  decide +kernel

theorem updateSlot_eq : Statement.updateSlot = slotRevision.text := by
  decide +kernel

theorem insertEntry_eq : Statement.insertEntry = entryInsertion.text := by
  decide +kernel

theorem insertMessage_eq : Statement.insertMessage = messageInsertion.text := by
  decide +kernel

/-! ## Reading a row -/

/-- A row as it is looked up, with these columns. -/
def selected (columns : List String) (content : Content) : Row :=
  columns.map fun column => (column, content column)

theorem lookup_selected {columns : List String} {name : String} (content : Content)
    (h : name ∈ columns) : (selected columns content).lookup name = some (content name) := by
  unfold selected
  induction columns with
  | nil => exact absurd h List.not_mem_nil
  | cons column columns ih =>
      rw [List.map_cons, List.lookup_cons]
      by_cases hname : name = column
      · rw [hname, beq_self_eq_true]
      · rw [beq_false_of_ne hname]
        exact ih ((List.mem_cons.mp h).resolve_left hname)

theorem named_selected {α : Type} {columns : List String} {content : Content} {column : Column α}
    (name : String) (a : α) (hname : name ∈ columns)
    (hread : column.read (content name) = some a) :
    (selected columns content).named name column = .ok a := by
  have hlookup : (selected columns content).reverse.lookup name = some (content name) := by
    rw [selected, ← List.map_reverse]
    exact lookup_selected content (List.mem_reverse.mpr hname)
  simp only [Row.named, hlookup, Row.value, hread]

theorem Column.read_text? (s : Option String) :
    Column.text.optional.read (.ofOption .text s) = some s := by
  cases s <;> rfl

theorem Column.read_uuid? (u : Option Uuid) :
    Column.uuid.optional.read (.ofOption .uuid u) = some u := by
  cases u <;> rfl

/-- How the rows of a table are looked up and read. -/
structure RowReader (α β : Type) where
  columns : List String
  read : Row → Reading α
  map : α → Mapped β

/-- The row is read as a value. -/
def RowReader.Reads {α β : Type} (r : RowReader α β) (content : Content) (b : β) : Prop :=
  ∃ row, r.read (selected r.columns content) = .ok row ∧ r.map row = .ok b

def slotReader : RowReader SlotRow Slot :=
  ⟨SlotRow.columns, SlotRow.read, SlotRow.toSlot⟩

def entryReader : RowReader EntryRow Entry :=
  ⟨EntryRow.columns, EntryRow.read, EntryRow.toEntry⟩

def messageReader : RowReader MessageRow Message :=
  ⟨MessageRow.columns, MessageRow.read, MessageRow.toMessage⟩

/-! ## What is written is read back -/

theorem slotReader_reads {content : Content} {s : Slot}
    (haccount : content "account_id" = .uuid s.account)
    (hcurrency : content "currency_code" = .text s.currency.code)
    (hbalance : content "balance_minor_units" = .int8 s.balance)
    (hreserved : content "reserved_minor_units" = .int8 s.reserved)
    (hversion : content "version" = .int8 s.version)
    (hupdated : content "last_updated_at" = .time s.updatedAt) : slotReader.Reads content s := by
  have hnamed {α : Type} {column : Column α} {v : Value} (name : String) (a : α)
      (hname : name ∈ SlotRow.columns) (hv : content name = v) (hread : column.read v = some a) :
      (selected SlotRow.columns content).named name column = .ok a :=
    named_selected name a hname (hv ▸ hread)
  refine ⟨⟨s.account, s.currency.code, s.balance, s.reserved, s.version, s.updatedAt⟩, ?_, ?_⟩
  · show SlotRow.read (selected SlotRow.columns content) = _
    rw [SlotRow.read, hnamed "account_id" s.account (by decide) haccount rfl,
      hnamed "currency_code" s.currency.code (by decide) hcurrency rfl,
      hnamed "balance_minor_units" s.balance (by decide) hbalance rfl,
      hnamed "reserved_minor_units" s.reserved (by decide) hreserved rfl,
      hnamed "version" s.version (by decide) hversion rfl,
      hnamed "last_updated_at" s.updatedAt (by decide) hupdated rfl]
    rfl
  · simp only [slotReader, SlotRow.toSlot, s.currency.parse_code]
    rfl

theorem slot_inserted (s : Slot) : slotReader.Reads (slotInsertion.content (slotValues s)) s :=
  slotReader_reads rfl rfl rfl rfl rfl rfl

theorem slot_revised (s : Slot) (expected : Int64) {old : Content}
    (h : slotRevision.Selects (slotValues s ++ [.int8 expected]) old) :
    slotReader.Reads (slotRevision.content (slotValues s ++ [.int8 expected]) old) s := by
  have haccount := (h ("account_id", 1) (by simp [slotRevision])).1
  have hcurrency := (h ("currency_code", 2) (by simp [slotRevision])).1
  exact slotReader_reads (Option.some.inj haccount).symm (Option.some.inj hcurrency).symm
    rfl rfl rfl rfl

theorem slot_selected (s old : Slot) (h : old.key = s.key) :
    slotRevision.Selects (slotValues s ++ [.int8 old.version])
      (slotInsertion.content (slotValues old)) := by
  obtain ⟨haccount, hcurrency⟩ := Prod.mk.inj h
  intro p hp
  simp only [slotRevision, List.mem_cons, List.not_mem_nil, or_false] at hp
  rcases hp with rfl | rfl | rfl
  · exact ⟨congrArg (some ∘ Value.uuid) haccount.symm, Value.noConfusion⟩
  · exact ⟨congrArg (some ∘ Value.text ∘ Currency.code) hcurrency.symm, Value.noConfusion⟩
  · exact ⟨rfl, Value.noConfusion⟩

theorem entry_inserted (e : Entry) :
    entryReader.Reads (entryInsertion.content (entryValues e)) e := by
  have hnamed {α : Type} {column : Column α} (name : String) (a : α)
      (hname : name ∈ EntryRow.columns)
      (hread : column.read (entryInsertion.content (entryValues e) name) = some a) :
      (selected EntryRow.columns (entryInsertion.content (entryValues e))).named name column =
        .ok a :=
    named_selected name a hname hread
  refine ⟨⟨e.id, e.account, e.currency.code, e.side.name, e.amount, e.description, e.reference,
    e.transaction, e.target, e.date, e.runningBalance, e.key.map IdempotencyKey.text⟩, ?_, ?_⟩
  · show EntryRow.read (selected EntryRow.columns _) = _
    rw [EntryRow.read, hnamed "id" e.id (by decide) rfl,
      hnamed "account_id" e.account (by decide) rfl,
      hnamed "currency_code" e.currency.code (by decide) rfl,
      hnamed "entry_type" e.side.name (by decide) rfl,
      hnamed "amount_minor_units" e.amount (by decide) rfl,
      hnamed "description" e.description (by decide) rfl,
      hnamed "reference" e.reference (by decide) (Column.read_text? _),
      hnamed "transaction_id" e.transaction (by decide) (Column.read_uuid? _),
      hnamed "original_entry_id" e.target (by decide) (Column.read_uuid? _),
      hnamed "entry_date" e.date (by decide) rfl,
      hnamed "running_balance" e.runningBalance (by decide) rfl,
      hnamed "idempotency_key" (e.key.map IdempotencyKey.text) (by decide) (Column.read_text? _)]
    rfl
  · have hkey : (e.key.map IdempotencyKey.text).mapM IdempotencyKey.parse = .ok e.key := by
      cases e.key with
      | none => rfl
      | some key => simp [key.parse_text]
    simp only [entryReader, EntryRow.toEntry, e.currency.parse_code, e.side.parse_name, hkey]
    rfl

/-- The columns that are not written when a message is added are absent in a new message. -/
theorem message_inserted {m : Message} (hprocessed : m.processedAt = none)
    (hclaimed : m.claimedAt = none) (herror : m.error = none) :
    messageReader.Reads (messageInsertion.content (messageValues m)) m := by
  have hnamed {α : Type} {column : Column α} (name : String) (a : α)
      (hname : name ∈ MessageRow.columns)
      (hread : column.read (messageInsertion.content (messageValues m) name) = some a) :
      (selected MessageRow.columns (messageInsertion.content (messageValues m))).named name column =
        .ok a :=
    named_selected name a hname hread
  refine ⟨⟨m.id, m.eventType, m.payload, m.occurredAt, m.processedAt, m.claimedAt, m.status.name,
    m.retryCount, m.error, m.correlationId, m.initiatedBy⟩, ?_, ?_⟩
  · show MessageRow.read (selected MessageRow.columns _) = _
    rw [MessageRow.read, hnamed "id" m.id (by decide) rfl,
      hnamed "event_type" m.eventType (by decide) rfl,
      hnamed "payload" m.payload (by decide) rfl,
      hnamed "occurred_at" m.occurredAt (by decide) rfl,
      hnamed "processed_at" m.processedAt (by decide) (hprocessed ▸ rfl),
      hnamed "claimed_at" m.claimedAt (by decide) (hclaimed ▸ rfl),
      hnamed "status" m.status.name (by decide) rfl,
      hnamed "retry_count" m.retryCount (by decide) rfl,
      hnamed "error" m.error (by decide) (herror ▸ rfl),
      hnamed "correlation_id" m.correlationId (by decide) (Column.read_text? _),
      hnamed "initiated_by" m.initiatedBy (by decide) (Column.read_text? _)]
    rfl
  · simp only [messageReader, MessageRow.toMessage, m.status.parse_name]
    rfl

/-! ## On the wire -/

/-- A value as it travels: times to the microsecond by `wireTime`, JSON as text by `wireJson`. -/
def Value.sent : Value → Value
  | .time t => .time (wireTime t)
  | .json v => .json (wireJson v)
  | v => v

theorem Value.sent_text? (s : Option String) : (ofOption .text s).sent = .ofOption .text s := by
  cases s <;> rfl

theorem Value.sent_uuid? (u : Option Uuid) : (ofOption .uuid u).sent = .ofOption .uuid u := by
  cases u <;> rfl

theorem slotValues_sent (s : Slot) : (slotValues s).map Value.sent =
    slotValues { s with updatedAt := Value.wireTime s.updatedAt } :=
  rfl

theorem entryValues_sent (e : Entry) : (entryValues e).map Value.sent =
    entryValues { e with date := Value.wireTime e.date } := by
  simp only [entryValues, List.map_cons, List.map_nil, Value.sent_text?, Value.sent_uuid?]
  rfl

theorem messageValues_sent (m : Message) : (messageValues m).map Value.sent =
    messageValues { m with
      payload := Value.wireJson m.payload, occurredAt := Value.wireTime m.occurredAt } := by
  simp only [messageValues, List.map_cons, List.map_nil, Value.sent_text?]
  rfl

theorem wireJson_event (event : Event) : Value.wireJson event.toJson = event.toJson := by
  have hplain : event.toJson.Plain Json.maxDepth := by
    cases event <;> exact .obj (by simp) (by simp)
  rw [Value.wireJson, Json.parse_render hplain]
  rfl

/-! ## Rows that stand for nothing -/

/-- There is a value if a condition holds, and else a row is `.corrupt`. -/
def CorruptUnless {α : Type} (P : Prop) (x : Mapped α) : Prop :=
  P ∧ (∃ a, x = .ok a) ∨ ¬ P ∧ ∃ text, x = .error (.corrupt text)

def SlotRow.Parses (r : SlotRow) : Prop :=
  ∃ currency, Currency.parse r.currency = .ok currency

/-- The texts of the row name a currency, a side and, if it is there, a key. -/
def EntryRow.Parses (r : EntryRow) : Prop :=
  (∃ currency, Currency.parse r.currency = .ok currency) ∧
    (∃ side, Side.parse r.side = .ok side) ∧
    ∀ text, r.key = some text → ∃ key, IdempotencyKey.parse text = .ok key

/-- The text of the row names a status. -/
def MessageRow.Parses (r : MessageRow) : Prop :=
  ∃ status, Status.parse r.status = .ok status

namespace CorruptUnless

variable {α β ε : Type} {P Q : Prop} {x : Mapped α}

theorem iff (h : CorruptUnless P x) (hiff : P ↔ Q) : CorruptUnless Q x :=
  propext hiff ▸ h

theorem bind {y : Except ε α} {f : α → Mapped β} {wrap : ε → String}
    (hf : ∀ a, y = .ok a → CorruptUnless Q (f a)) :
    CorruptUnless ((∃ a, y = .ok a) ∧ Q) (y.mapError (fun e => .corrupt (wrap e)) >>= f) := by
  cases y with
  | ok a =>
      exact (hf a rfl).iff ⟨fun hQ => ⟨⟨a, rfl⟩, hQ⟩, And.right⟩
  | error e =>
      exact .inr ⟨fun h => absurd h.1 (by simp), wrap e, rfl⟩

theorem map {f : α → β} (h : CorruptUnless P x) : CorruptUnless P (x.map f) := by
  rcases h with ⟨hP, a, rfl⟩ | ⟨hP, text, rfl⟩
  · exact .inl ⟨hP, f a, rfl⟩
  · exact .inr ⟨hP, text, rfl⟩

end CorruptUnless

theorem SlotRow.corruptUnless_toSlot (r : SlotRow) : CorruptUnless r.Parses r.toSlot :=
  (CorruptUnless.bind fun _ _ => .inl ⟨trivial, _, rfl⟩).iff ⟨And.left, fun h => ⟨h, trivial⟩⟩

theorem EntryRow.exists_key_iff (key : Option String) :
    (∃ k, key.mapM IdempotencyKey.parse = .ok k) ↔
      ∀ text, key = some text → ∃ k, IdempotencyKey.parse text = .ok k := by
  cases key with
  | none => exact ⟨fun _ _ h => absurd h (by simp), fun _ => ⟨none, rfl⟩⟩
  | some text =>
      constructor
      · rintro ⟨k, hk⟩ text' htext
        obtain rfl := Option.some.inj htext
        cases hparse : IdempotencyKey.parse text with
        | ok key => exact ⟨key, rfl⟩
        | error e => simp [hparse] at hk
      · intro h
        obtain ⟨k, hk⟩ := h text rfl
        exact ⟨some k, by simp [hk]⟩

theorem EntryRow.corruptUnless_toEntry (r : EntryRow) : CorruptUnless r.Parses r.toEntry := by
  refine CorruptUnless.iff (P := (∃ currency, Currency.parse r.currency = .ok currency) ∧
    (∃ side, Side.parse r.side = .ok side) ∧
      (∃ key, r.key.mapM IdempotencyKey.parse = .ok key) ∧ True) ?_ ?_
  · exact .bind fun _ _ => .bind fun _ _ => .bind fun _ _ => .inl ⟨trivial, _, rfl⟩
  · rw [and_true, exists_key_iff]
    rfl

theorem MessageRow.corruptUnless_toMessage (r : MessageRow) :
    CorruptUnless r.Parses r.toMessage :=
  (CorruptUnless.bind fun _ _ => .inl ⟨trivial, _, rfl⟩).iff ⟨And.left, fun h => ⟨h, trivial⟩⟩

/-! ## Answers with such rows -/

section Lists

variable {α β : Type} {P : α → Prop}

theorem corruptUnless_mapM {map : α → Mapped β} (hmap : ∀ a, CorruptUnless (P a) (map a))
    (as : List α) : CorruptUnless (∀ a ∈ as, P a) (as.mapM map) := by
  induction as with
  | nil => exact .inl ⟨fun _ h => absurd h List.not_mem_nil, [], rfl⟩
  | cons a as ih =>
      rw [List.mapM_cons, List.forall_mem_cons]
      rcases hmap a with ⟨ha, b, hb⟩ | ⟨ha, text, herror⟩
      · rw [hb]
        exact (CorruptUnless.map (f := fun bs => b :: bs) ih).iff ⟨fun h => ⟨ha, h⟩, And.right⟩
      · rw [herror]
        exact .inr ⟨fun h => ha h.1, text, rfl⟩

theorem corruptUnless_addCounts (counts : StatusCounts) (rows : List (String × Int64)) :
    CorruptUnless (∀ p ∈ rows, ∃ status, Status.parse p.1 = .ok status)
      (addCounts counts rows) := by
  induction rows generalizing counts with
  | nil => exact .inl ⟨fun _ h => absurd h List.not_mem_nil, counts, rfl⟩
  | cons p rows ih =>
      rw [List.forall_mem_cons]
      exact .bind fun status _ => ih (counts.add status p.2)

theorem exists_mapM_read {read : Row → Reading α} {rows : List Row}
    (h : ∀ row ∈ rows, ∃ a, read row = .ok a) :
    ∃ as, rows.mapM read = .ok as ∧
      ((∀ a ∈ as, P a) ↔ ∀ row ∈ rows, ∀ a, read row = .ok a → P a) := by
  induction rows with
  | nil => exact ⟨[], rfl, by simp⟩
  | cons row rows ih =>
      obtain ⟨⟨a, ha⟩, hrest⟩ := List.forall_mem_cons.mp h
      obtain ⟨as, has, hiff⟩ := ih hrest
      refine ⟨a :: as, by rw [List.mapM_cons, ha, has]; rfl, ?_⟩
      rw [List.forall_mem_cons, List.forall_mem_cons, hiff]
      simp [ha]

theorem mapM_read_error {read : Row → Reading α} {rows : List Row}
    (h : ∃ row ∈ rows, ¬ ∃ a, read row = .ok a) : ∃ e, rows.mapM read = .error e := by
  induction rows with
  | nil => exact absurd h (by simp)
  | cons row rows ih =>
      rw [List.mapM_cons]
      cases hrow : read row with
      | error e => exact ⟨e, rfl⟩
      | ok a =>
          obtain ⟨other, hother, hnot⟩ := h
          obtain ⟨e, he⟩ := ih ⟨other, (List.mem_cons.mp hother).resolve_left fun heq =>
            hnot (heq ▸ ⟨a, hrow⟩), hnot⟩
          exact ⟨e, by rw [he]; rfl⟩

end Lists

/-- What a row is looked up as. -/
inductive Item where
  | slot
  | entry
  | message
  /-- A status with the number of messages that have it. -/
  | count

namespace Item

/-- The values of the row are of the types that are asked for. -/
def Readable : Item → Row → Prop
  | slot, row => ∃ r, SlotRow.read row = .ok r
  | entry, row => ∃ r, EntryRow.read row = .ok r
  | message, row => ∃ r, MessageRow.read row = .ok r
  | count, row => ∃ p, readCount row = .ok p

/-- The texts of the row stand for something. -/
def Parses : Item → Row → Prop
  | slot, row => ∀ r, SlotRow.read row = .ok r → r.Parses
  | entry, row => ∀ r, EntryRow.read row = .ok r → r.Parses
  | message, row => ∀ r, MessageRow.read row = .ok r → r.Parses
  | count, row => ∀ p, readCount row = .ok p → ∃ status, Status.parse p.1 = .ok status

end Item

/-- An answer is made of rows, all of them: if a value is of another type, the database is to
blame, and if a text stands for nothing, a row is corrupt. -/
structure MadeOf {α : Type} (item : Item) (rows : List Row) (a : Except StoreError α) : Prop where
  readable : (∀ row ∈ rows, item.Readable row) → CorruptUnless (∀ row ∈ rows, item.Parses row) a
  unreadable : (∃ row ∈ rows, ¬ item.Readable row) → ∃ text, a = .error (.database text)

/-- How a request looks rows up: the statement, what they are rows of, and whether all of them are
wanted or the first. -/
structure Lookup where
  sql : String
  item : Item
  all : Bool

def Lookup.rows (l : Lookup) (o : Outcome) : List Row :=
  if l.all then o.rows else o.rows.take 1

/-- How a request is answered from rows, if it is. -/
def lookup? : Store.Request → Option Lookup
  | .loadSlot .. => some ⟨Statement.slot, .slot, false⟩
  | .slots _ => some ⟨Statement.slots, .slot, true⟩
  | .findEntry _ => some ⟨Statement.entryBy "id", .entry, false⟩
  | .findByKey _ => some ⟨Statement.entryBy "idempotency_key", .entry, false⟩
  | .findVoidOf _ => some ⟨Statement.entryBy "original_entry_id", .entry, false⟩
  | .history _ => some ⟨Statement.historyPage, .entry, true⟩
  | .claim .. => some ⟨Statement.claim, .message, true⟩
  | .message _ => some ⟨Statement.message, .message, false⟩
  | .failed _ => some ⟨Statement.failed, .message, true⟩
  | .counts => some ⟨Statement.counts, .count, true⟩
  | .commit _ | .complete .. | .recordFailure .. | .markFailed .. | .purge _ => none

/-- Whatever the database replies, the answer of a program is `MadeOf` the rows that it looks at. -/
def Lookup.Answers {α : Type} (l : Lookup) (p : Program Wire (Except StoreError α)) : Prop :=
  ∀ turns a values outcome, p.Converses turns (.done a) →
    (⟨.statement l.sql values, .ok outcome⟩ : Turn Wire) ∈ turns →
    MadeOf l.item (l.rows outcome) a

section Fetching

variable {α β : Type} {l : Lookup} {values : List Value} {P : α → Prop}

theorem answers_fetch {read : Outcome → Reading α} {map : α → Mapped β}
    (h : ∀ o, MadeOf l.item (l.rows o) (fetched read map (.ok o))) :
    l.Answers (fetch l.sql values read map) := by
  intro turns b values' outcome hconverse hmem
  rw [fetch_eq, Program.converses_ask_done_iff] at hconverse
  obtain ⟨reply, rest, rfl, hrest⟩ := hconverse
  obtain ⟨rfl, rfl⟩ := Program.converses_done_iff.mp hrest
  obtain ⟨hrequest, hreply⟩ := Turn.mk.inj (List.mem_singleton.mp hmem)
  obtain ⟨-, rfl⟩ := Wire.Request.statement.inj hrequest
  obtain rfl := eq_of_heq hreply
  exact h outcome

theorem madeOf_all {item : Item} {read : Row → Reading α} {map : List α → Mapped β}
    (hreadable : ∀ row, item.Readable row ↔ ∃ a, read row = .ok a)
    (hparses : ∀ row, item.Parses row ↔ ∀ a, read row = .ok a → P a)
    (hmap : ∀ as, CorruptUnless (∀ a ∈ as, P a) (map as)) (o : Outcome) :
    MadeOf item o.rows (fetched (·.all read) map (.ok o)) := by
  simp only [fetched, Outcome.all, Except.bind]
  constructor
  · intro h
    obtain ⟨as, has, hiff⟩ :=
      exists_mapM_read (P := P) fun row hrow => (hreadable row).mp (h row hrow)
    rw [has]
    exact (hmap as).iff (hiff.trans (by simp only [hparses]))
  · intro h
    simp only [hreadable] at h
    obtain ⟨e, he⟩ := mapM_read_error h
    exact ⟨_, by rw [he]; rfl⟩

theorem madeOf_first {item : Item} {read : Row → Reading α} {map : α → Mapped β}
    (hreadable : ∀ row, item.Readable row ↔ ∃ a, read row = .ok a)
    (hparses : ∀ row, item.Parses row ↔ ∀ a, read row = .ok a → P a)
    (hmap : ∀ a, CorruptUnless (P a) (map a)) (o : Outcome) :
    MadeOf item (o.rows.take 1) (fetched (·.first? read) (·.mapM map) (.ok o)) := by
  -- as if all had been asked for, and there had been no other
  have hone : fetched (·.first? read) (·.mapM map) (.ok o) =
      fetched (·.all read) (fun as => (as.mapM map).map List.head?)
        (.ok { o with rows := o.rows.take 1 }) := by
    simp only [fetched, Outcome.first?, Outcome.all, Except.bind]
    cases o.rows with
    | nil => rfl
    | cons row rows =>
        rw [List.take_succ_cons, List.take_zero]
        cases hread : read row with
        | error e => simp [hread, bind, Except.bind, Except.map]
        | ok a =>
            cases hvalue : map a <;>
              simp [hread, hvalue, bind, Except.bind, pure, Except.pure, Except.map]
  rw [hone]
  exact madeOf_all hreadable hparses (fun as => (corruptUnless_mapM hmap as).map)
    { o with rows := o.rows.take 1 }

theorem answers_done (a : Except StoreError α) : l.Answers (.done a) := by
  intro turns b values outcome hconverse hmem
  obtain ⟨rfl, -⟩ := Program.converses_done_iff.mp hconverse
  exact absurd hmem List.not_mem_nil

theorem answers_after {sql : String} {next : Except DatabaseError Outcome →
    Program Wire (Except StoreError α)} (hsql : l.sql ≠ sql)
    (hnext : ∀ reply, l.Answers (next reply)) : l.Answers (.ask (.statement sql values) next) := by
  intro turns a values' outcome hconverse hmem
  obtain ⟨reply, rest, rfl, hrest⟩ := Program.converses_ask_done_iff.mp hconverse
  rcases List.mem_cons.mp hmem with hturn | hmem
  · exact absurd (Wire.Request.statement.inj (Turn.mk.inj hturn).1).1 hsql
  · exact hnext reply rest a values' outcome hrest hmem

end Fetching

theorem answers_history (q : HistoryQuery) :
    (Lookup.mk Statement.historyPage .entry true).Answers (history q) := by
  refine answers_after (by decide +kernel) fun reply => ?_
  show Lookup.Answers _ (Program.bind (.done (reply.bind (·.first (·.placed 0 .int8)))) _)
  cases reply.bind (·.first (·.placed 0 .int8)) with
  | error e => exact answers_done _
  | ok total =>
      refine answers_fetch (l := ⟨Statement.historyPage, .entry, true⟩)
        (madeOf_all (fun _ => .rfl) (fun _ => .rfl) fun rows => ?_)
      have hpage : (do return { entries := ← rows.mapM EntryRow.toEntry, total }) =
          (rows.mapM EntryRow.toEntry).map fun entries => HistoryPage.mk entries total := by
        cases rows.mapM EntryRow.toEntry <;> rfl
      rw [hpage]
      exact (corruptUnless_mapM EntryRow.corruptUnless_toEntry rows).map

/-- Every request that is answered from rows is answered from all of them that it looks at. -/
theorem answers_request {request : Store.Request} {l : Lookup} (h : lookup? request = some l) :
    l.Answers (answer request) := by
  have hentry (o : Outcome) : MadeOf .entry (o.rows.take 1) _ :=
    madeOf_first (fun _ => .rfl) (fun _ => .rfl) EntryRow.corruptUnless_toEntry o
  have hmessages := corruptUnless_mapM MessageRow.corruptUnless_toMessage
  cases request with
  | loadSlot account currency =>
      obtain rfl := Option.some.inj h
      exact answers_fetch
        (madeOf_first (fun _ => .rfl) (fun _ => .rfl) SlotRow.corruptUnless_toSlot)
  | slots account =>
      obtain rfl := Option.some.inj h
      exact answers_fetch (madeOf_all (fun _ => .rfl) (fun _ => .rfl)
        (corruptUnless_mapM SlotRow.corruptUnless_toSlot))
  | findEntry | findByKey | findVoidOf =>
      obtain rfl := Option.some.inj h
      exact answers_fetch hentry
  | history q =>
      obtain rfl := Option.some.inj h
      exact answers_history q
  | claim | failed =>
      obtain rfl := Option.some.inj h
      exact answers_fetch (madeOf_all (fun _ => .rfl) (fun _ => .rfl) hmessages)
  | message id =>
      obtain rfl := Option.some.inj h
      exact answers_fetch
        (madeOf_first (fun _ => .rfl) (fun _ => .rfl) MessageRow.corruptUnless_toMessage)
  | counts =>
      obtain rfl := Option.some.inj h
      exact answers_fetch (madeOf_all (fun _ => .rfl) (fun _ => .rfl) (corruptUnless_addCounts {}))
  | commit | complete | recordFailure | markFailed | purge => exact absurd h (by simp [lookup?])

/-! ## The store reads what it writes -/

def Sends (step : Step) (sql : String) (values : List Value) : Prop :=
  ∃ next, step.run = .ask (.statement sql values) next

theorem sends_addEntry (e : Entry) : Sends (addEntry e) entryInsertion.text (entryValues e) := by
  rw [← insertEntry_eq]
  exact ⟨_, rfl⟩

theorem sends_writeSlot_zero (s : Slot) :
    Sends (writeSlot s 0) slotInsertion.text (slotValues s) := by
  rw [← insertSlot_eq]
  exact ⟨_, rfl⟩

theorem sends_writeSlot (s : Slot) {expected : Int64} (h : expected ≠ 0) :
    Sends (writeSlot s expected) slotRevision.text (slotValues s ++ [.int8 expected]) := by
  rw [← updateSlot_eq, writeSlot, if_neg h]
  exact ⟨_, rfl⟩

theorem sends_addMessages (m : Message) (rest : List Message) :
    Sends (addMessages (m :: rest)) messageInsertion.text (messageValues m) := by
  rw [← insertMessage_eq]
  exact ⟨_, rfl⟩

/-- What is written to the tables can be read, and what cannot be read is refused. -/
structure Legible : Prop where
  /-- An entry is read as what is bound to its statement, its date as it travels. -/
  entry : ∀ e : Entry, Sends (addEntry e) entryInsertion.text (entryValues e) ∧
    entryReader.Reads (entryInsertion.content (entryValues e)) e ∧
      entryReader.Reads (entryInsertion.content ((entryValues e).map Value.sent))
        { e with date := Value.wireTime e.date }
  slotAdded : ∀ s : Slot, Sends (writeSlot s 0) slotInsertion.text (slotValues s) ∧
    slotReader.Reads (slotInsertion.content (slotValues s)) s ∧
      slotReader.Reads (slotInsertion.content ((slotValues s).map Value.sent))
        { s with updatedAt := Value.wireTime s.updatedAt }
  /-- A row is changed if it holds the slot at the version that is expected. -/
  slotSelected : ∀ s old : Slot, old.key = s.key →
    slotRevision.Selects (slotValues s ++ [.int8 old.version])
      (slotInsertion.content (slotValues old))
  /-- A slot is read as what is bound, whatever the row has held that is changed. -/
  slotChanged : ∀ (s : Slot) (expected : Int64), expected ≠ 0 →
    let values := slotValues s ++ [.int8 expected]
    Sends (writeSlot s expected) slotRevision.text values ∧
      ∀ old, (slotRevision.Selects values old →
          slotReader.Reads (slotRevision.content values old) s) ∧
        (slotRevision.Selects (values.map Value.sent) old →
          slotReader.Reads (slotRevision.content (values.map Value.sent) old)
            { s with updatedAt := Value.wireTime s.updatedAt })
  /-- So is a message, with nothing in the columns that are not bound. -/
  message : ∀ (event : Event) (origin : Origin) (id : Uuid) (now : Instant) (rest : List Message),
    let m := Message.ofEvent event origin id now
    Sends (addMessages (m :: rest)) messageInsertion.text (messageValues m) ∧
      messageReader.Reads (messageInsertion.content (messageValues m)) m ∧
        messageReader.Reads (messageInsertion.content ((messageValues m).map Value.sent))
          { m with occurredAt := Value.wireTime now }
  slotRow : ∀ r : SlotRow, CorruptUnless r.Parses r.toSlot
  entryRow : ∀ r : EntryRow, CorruptUnless r.Parses r.toEntry
  messageRow : ∀ r : MessageRow, CorruptUnless r.Parses r.toMessage
  /-- No row is left out of an answer. -/
  lookup : ∀ request l, lookup? request = some l → l.Answers (answer request)

/-- What the store writes into a row it reads back (`Legible`), for all slots, entries and new
messages, and a row with a text that stands for nothing is corrupt, as is every answer with such a
row. -/
theorem rows_read_as_bound : Legible where
  entry e := by
    refine ⟨sends_addEntry e, entry_inserted e, ?_⟩
    rw [entryValues_sent]
    exact entry_inserted _
  slotAdded s := by
    refine ⟨sends_writeSlot_zero s, slot_inserted s, ?_⟩
    rw [slotValues_sent]
    exact slot_inserted _
  slotSelected := slot_selected
  slotChanged s expected hexpected := by
    refine ⟨sends_writeSlot s hexpected, fun old => ⟨slot_revised s expected, ?_⟩⟩
    rw [List.map_append, slotValues_sent]
    exact slot_revised _ expected
  message event origin id now rest := by
    refine ⟨sends_addMessages _ rest, message_inserted rfl rfl rfl, ?_⟩
    rw [messageValues_sent, Message.ofEvent, wireJson_event]
    exact message_inserted rfl rfl rfl
  slotRow := SlotRow.corruptUnless_toSlot
  entryRow := EntryRow.corruptUnless_toEntry
  messageRow := MessageRow.corruptUnless_toMessage
  lookup _ _ := answers_request

end BalanceLedger.Sql
