/-
# `Proofs.Connection` — a call over a database commits once at most

When the store is a database, a call talks to it in statements.  Its requests to the
store are conversations then, which can break off anywhere: a statement fails, a row
cannot be read, shutdown comes while a plan is being read, or the COMMIT is answered by
an error and nobody knows what has become of it.  `Link.serve` is how a request is
answered so, and a call over a database is its program put through that.

Rules for the connection say what may be sent when.  Until there is a COMMIT, a
transaction can be tried again, but only if it was seen that another writer had moved
the slot.  After a COMMIT nothing is sent but the rollback of one that failed.
`Connection` is what these rules go by.

Calls keep them because they keep the rules for attempts: each request that those allow
is answered by a conversation within the rules for the connection, and `Mirrors` is how
the states of the two go along with each other.  `keeps_serve` is this for one request,
`keeps_lookup` and `keeps_commit` being its two cases, and `keeps_execute` follows for
whole calls.  So the text of the operations is not gone through again.

`Call.commits_once` reads the result off the conversation, as `CommitsOnce`: the COMMIT
is sent once at most, every attempt but the last has been seen to lose its race, and the
answer tells what has become of it, or that nobody knows.
-/
import BalanceLedger.Proofs.Perseverance
import BalanceLedger.Proofs.Transaction

namespace BalanceLedger

open Sql (DatabaseError Outcome Part Wire)
open Store (ChangeSet)

/-! ## Operations over a database -/

inductive Link.Request where
  | wire (request : Wire.Request)
  /-- Has shutdown come while a plan is being read? -/
  | yields
  /-- Anything that is not for the store. -/
  | world (request : World.Request)

abbrev Link.Reply : Link.Request → Type
  | .wire request => Wire.Reply request
  | .yields => Bool
  | .world request => World.Reply request

abbrev Link : Interface where
  Request := Link.Request
  Reply := Link.Reply

namespace Link

def ask (q : Store.Request) : Program Link q.Reply :=
  (Sql.answer q).through fun request => Program.call (I := Link) (.wire request)

def yields : Program Link Bool :=
  Program.call (I := Link) .yields

/-- Answer a request of an operation.  A `.plan` can be given up before it is sent and before it is
answered. -/
def serve : (request : World.Request) → Program Link (World.Reply request)
  | .store q => ask q
  | .plan q => do
    if ← yields then return none
    let reply ← ask q
    if ← yields then return none
    return some reply
  | request => Program.call (I := Link) (.world request)

end Link

/-! ## The rules for a connection -/

/-- Does the statement write a slot? -/
def Sql.writesSlot (sql : String) : Bool :=
  sql = Statement.insertSlot || sql = Statement.updateSlot

namespace Turn

def begins : Turn Link → Bool
  | ⟨.world .stopping, _⟩ => true
  | _ => false

def seesMoved : Turn Link → Bool
  | ⟨.wire (.statement sql _), .ok outcome⟩ => Sql.writesSlot sql && outcome.affected = 0
  | _ => false

def seals : Turn Link → Bool
  | ⟨.wire .commit, _⟩ => true
  | _ => false

end Turn

/-- What has been done over a connection. -/
structure Connection where
  /-- The attempts that have begun. -/
  begun : Nat := 0
  /-- How often a slot was not written because another writer had moved it. -/
  lost : Nat := 0
  /-- The reply to a COMMIT. -/
  sealed : Option (Except DatabaseError Unit) := none
  /-- Has the transaction been rolled back after that? -/
  closed : Bool := false

namespace Connection

/-- What may be asked. -/
def may (attempts : Nat) (t : Connection) : Link.Request → Prop
  | .wire .rollback => t.sealed ≠ some (.ok ()) ∧ t.closed = false
  | .wire (.script _) => False
  | .wire _ => t.sealed = none
  | .yields => t.sealed = none
  | .world .stopping => t.sealed = none ∧ t.begun = t.lost ∧ t.lost < attempts
  | .world _ => ∀ e, t.sealed ≠ some (.error e)

/-- What has been done after a reply. -/
def moved (t : Connection) : (request : Link.Request) → Link.Reply request → Connection
  | .wire .commit, reply => { t with sealed := some reply }
  | .wire .rollback, _ => { t with closed := t.sealed.isSome }
  | .wire (.statement sql values), reply =>
    let more := if Turn.seesMoved ⟨.wire (.statement sql values), reply⟩ then 1 else 0
    { t with lost := t.lost + more }
  | .world .stopping, _ => { t with begun := t.begun + 1 }
  | _, _ => t

/-- The rules for a connection over which so many attempts may be made. -/
def conduct (attempts : Nat) : Conduct Link Connection where
  may := may attempts
  hears _ _ := True
  moved := moved

/-- No COMMIT has been sent. -/
structure IsOpen (t : Connection) : Prop where
  unsealed : t.sealed = none
  unclosed : t.closed = false

/-- A connection is where the call is, as its `Effort` has it. -/
structure Mirrors (s : Effort) (t : Connection) : Prop where
  begun : t.begun = s.begun
  lost : t.lost = s.lost
  unclosed : t.sealed = none → t.closed = false
  written : t.sealed = some (.ok ()) ↔ s.verdict = some (.ok ())
  /-- A COMMIT that failed has been rolled back, and is taken for a failure of the store. -/
  failed : ∀ e, t.sealed = some (.error e) →
    t.closed = true ∧ s.verdict = some (.error (Sql.storeError e))

/-- Whose change set has not been written, and has not failed with the database, has sent no
COMMIT. -/
theorem Mirrors.isOpen {s : Effort} {t : Connection} (h : Mirrors s t)
    (hfailed : ∀ text, s.verdict ≠ some (.error (.database text)))
    (hwritten : s.verdict ≠ some (.ok ())) : t.IsOpen := by
  have hsealed : t.sealed = none := by
    match hsealed : t.sealed with
    | none => rfl
    | some (.ok ()) => exact absurd (h.written.mp hsealed) hwritten
    | some (.error e) => exact absurd (h.failed e hsealed).2 (hfailed e.message)
  exact ⟨hsealed, h.unclosed hsealed⟩

end Connection

/-! ## Lookups -/

namespace Sql

/-- A value that is read tells of no lost race if it cannot be read. -/
def IsCandid {α : Type} (x : Mapped α) : Prop :=
  ∀ e, x = .error e → e.isVersionConflict = false

theorem IsCandid.bind {α β : Type} {x : Mapped α} {f : α → Mapped β} (hx : IsCandid x)
    (hf : ∀ a, IsCandid (f a)) : IsCandid (x >>= f) := by
  cases x with
  | error e => exact fun e' h => hx e' (congrArg _ (Except.error.inj h))
  | ok a => exact hf a

theorem isCandid_ok {α : Type} (a : α) : IsCandid (.ok a) :=
  fun _ h => absurd h (by simp)

theorem isCandid_mapError {ε α : Type} {x : Except ε α} {f : ε → StoreError}
    (hf : ∀ e, (f e).isVersionConflict = false) : IsCandid (x.mapError f) := by
  cases x with
  | error e =>
      intro e' h
      rw [← Except.error.inj h]
      exact hf e
  | ok a => exact isCandid_ok a

theorem isCandid_mapM {α β : Type} {f : α → Mapped β} (hf : ∀ a, IsCandid (f a))
    (found : Option α) : IsCandid (found.mapM f) := by
  cases found with
  | none => exact isCandid_ok none
  | some a => exact (hf a).bind fun b => isCandid_ok (some b)

theorem SlotRow.isCandid_toSlot (r : SlotRow) : IsCandid r.toSlot :=
  (isCandid_mapError fun _ => rfl).bind fun _ => isCandid_ok _

theorem EntryRow.isCandid_toEntry (r : EntryRow) : IsCandid r.toEntry :=
  (isCandid_mapError fun _ => rfl).bind fun _ =>
    (isCandid_mapError fun _ => rfl).bind fun _ =>
      (isCandid_mapError fun _ => rfl).bind fun _ => isCandid_ok _

/-- The request is answered by one statement that writes no slot, and by its reply. -/
structure LooksUp (q : Store.Request) (sql : String) (values : List Value)
    (next : Wire.Reply (.statement sql values) → q.Reply) : Prop where
  program : answer q = .ask (I := Wire) (.statement sql values) fun reply => .done (next reply)
  readOnly : writesSlot sql = false
  candid : ∀ reply, IsCandid (next reply)

/-- What is fetched, by the reply to the statement. -/
def fetched {α β : Type} (read : Outcome → Reading α) (map : α → Mapped β)
    (reply : Except DatabaseError Outcome) : Mapped β :=
  match reply.bind read with
  | .error e => .error (storeError e)
  | .ok a => map a

theorem fetch_eq {α β : Type} (sql : String) (values : List Value) (read : Outcome → Reading α)
    (map : α → Mapped β) : fetch sql values read map =
      .ask (I := Wire) (.statement sql values) fun reply => .done (fetched read map reply) := by
  refine congrArg (Program.ask (I := Wire) _) (funext fun reply => ?_)
  show (match reply.bind read with
    | .error e => pure (.error (storeError e))
    | .ok a => pure (map a) : Program Wire _) = .done (fetched read map reply)
  unfold fetched
  cases reply.bind read <;> rfl

theorem exists_looksUp_of_fetch {α : Type} {q : Store.Request} {sql : String}
    {values : List Value} {read : Outcome → Reading α} {map : α → Mapped q.Answer}
    (h : answer q = fetch sql values read map) (hsql : writesSlot sql = false)
    (hmap : ∀ a, IsCandid (map a)) : ∃ sql values next, LooksUp q sql values next := by
  refine ⟨sql, values, fetched read map, h.trans (fetch_eq ..), hsql, fun reply => ?_⟩
  unfold fetched
  cases reply.bind read with
  | error e => exact fun e' he => Except.error.inj he ▸ rfl
  | ok a => exact hmap a

theorem exists_looksUp {q : Store.Request} (hq : q.isLookup = true) :
    ∃ sql values next, LooksUp q sql values next := by
  cases q with
  | loadSlot account currency =>
      exact exists_looksUp_of_fetch rfl (by decide +kernel) fun found =>
        isCandid_mapM SlotRow.isCandid_toSlot found
  | findEntry id =>
      exact exists_looksUp_of_fetch rfl (by decide +kernel) fun found =>
        isCandid_mapM EntryRow.isCandid_toEntry found
  | findByKey key =>
      exact exists_looksUp_of_fetch rfl (by decide +kernel) fun found =>
        isCandid_mapM EntryRow.isCandid_toEntry found
  | findVoidOf target =>
      exact exists_looksUp_of_fetch rfl (by decide +kernel) fun found =>
        isCandid_mapM EntryRow.isCandid_toEntry found
  | _ => exact absurd hq (by simp [Store.Request.isLookup])

end Sql

namespace Connection

variable {attempts : Nat} {s : Effort} {t : Connection}

theorem wp_ask (q : Store.Request) (Q : q.Reply → Connection → Prop) :
    (Link.ask q).wp (conduct attempts).asks Q =
      (Sql.answer q).wp (fun request => (conduct attempts).asks (.wire request)) Q :=
  Program.wp_through _ _ Q

theorem moved_statement (sql : String) (values : List Sql.Value)
    (reply : Wire.Reply (.statement sql values)) (hsql : Sql.writesSlot sql = false) :
    moved t (.wire (.statement sql values)) reply = t := by
  have hsame : Turn.seesMoved ⟨.wire (.statement sql values), reply⟩ = false := by
    cases reply <;> simp [Turn.seesMoved, hsql]
  rw [moved, hsame]
  rfl

/-- A lookup leaves the connection as it is. -/
theorem keeps_lookup {q : Store.Request} (hq : q.isLookup = true) (ht : t.IsOpen)
    {Q : q.Reply → Connection → Prop} (h : ∀ reply, Sql.IsCandid reply → Q reply t) :
    (Link.ask q).wp (conduct attempts).asks Q t := by
  obtain ⟨sql, values, next, hlookup⟩ := Sql.exists_looksUp hq
  rw [wp_ask, hlookup.program]
  refine ⟨ht.unsealed, fun reply _ => ?_⟩
  show Q (next reply) (moved t (.wire (.statement sql values)) reply)
  rw [moved_statement sql values reply hlookup.readOnly]
  exact h _ (hlookup.candid reply)

/-! ## Change sets -/

open Sql (concluded sendAll) in
/-- The rest of a transaction, within the rules. -/
abbrev KeepsParts (attempts : Nat) (parts : List Part)
    (Q : Except StoreError Unit → Connection → Prop) (t : Connection) : Prop :=
  (concluded (sendAll parts)).wp (fun request => (conduct attempts).asks (.wire request)) Q t

variable {Q : Except StoreError Unit → Connection → Prop} {parts : List Part}

theorem asks_rollback {k : Unit → Connection → Prop} (ht : t.IsOpen) (h : k () t) :
    (conduct attempts).asks (.wire .rollback) k t := by
  refine ⟨⟨by simp [ht.unsealed], ht.unclosed⟩, fun _ _ => ?_⟩
  obtain ⟨begun, lost, sealed, closed⟩ := t
  obtain ⟨rfl, rfl⟩ := ht
  exact h

theorem keepsParts_cons {p : Part} (hmay : may attempts t (.wire p.request))
    (hopen : ∀ reply, (moved t (.wire p.request) reply).IsOpen)
    (hdone : ∀ reply, p.fault? reply = none →
      KeepsParts attempts parts Q (moved t (.wire p.request) reply))
    (hfault : ∀ reply e, p.fault? reply = some e → Q (.error e) (moved t (.wire p.request) reply)) :
    KeepsParts attempts (p :: parts) Q t := by
  unfold KeepsParts
  rw [Sql.concluded_sendAll_cons]
  refine ⟨hmay, fun reply _ => ?_⟩
  dsimp only
  cases h : p.fault? reply with
  | none => exact hdone reply h
  | some e => exact asks_rollback (k := fun _ => Q (.error e)) (hopen reply) (hfault reply e h)

theorem isVersionConflict_entryFault (entry : Entry) (e : DatabaseError) :
    (Sql.entryFault entry e).isVersionConflict = false := by
  unfold Sql.entryFault
  split
  · rfl
  · split <;> rfl

theorem keepsParts_finish (ht : t.IsOpen) (hwritten : Q (.ok ()) { t with sealed := some (.ok ()) })
    (hfailed : ∀ e, Q (.error (Sql.storeError e))
      { t with sealed := some (.error e), closed := true }) :
    KeepsParts attempts [.finish] Q t := by
  unfold KeepsParts
  rw [Sql.concluded_sendAll_cons]
  refine ⟨ht.unsealed, fun reply _ => ?_⟩
  cases reply with
  | ok _ => exact hwritten
  | error e => exact ⟨⟨nofun, ht.unclosed⟩, fun _ _ => hfailed e⟩

theorem keepsParts_statement {p : Part} {sql : String} {values : List Sql.Value}
    (hp : p.request = .statement sql values) (hsql : Sql.writesSlot sql = false) (ht : t.IsOpen)
    (hfault : ∀ reply e, p.fault? reply = some e → Q (.error e) t)
    (hrest : KeepsParts attempts parts Q t) : KeepsParts attempts (p :: parts) Q t := by
  have hsame : ∀ reply, moved t (.wire p.request) reply = t := by
    rw [hp]
    exact fun reply => moved_statement sql values reply hsql
  have hmay : may attempts t (.wire p.request) := by
    rw [hp]
    exact ht.unsealed
  refine keepsParts_cons hmay (fun reply => ?_) (fun reply _ => ?_) fun reply e h => ?_
  · exact (hsame reply).symm ▸ ht
  · exact (hsame reply).symm ▸ hrest
  · exact (hsame reply).symm ▸ hfault reply e h

theorem keepsParts_entry (entry : Entry) (ht : t.IsOpen)
    (hfault : ∀ e : StoreError, e.isVersionConflict = false → Q (.error e) t)
    (hrest : KeepsParts attempts parts Q t) : KeepsParts attempts (.entry entry :: parts) Q t := by
  refine keepsParts_statement rfl (by decide +kernel) ht (fun reply e h => ?_) hrest
  cases reply with
  | ok _ => exact absurd h (by simp [Part.fault?])
  | error error =>
      rw [← Option.some.inj h]
      exact hfault _ (isVersionConflict_entryFault entry error)

theorem keepsParts_messages (messages : List Outbox.Message) (ht : t.IsOpen)
    (hfault : ∀ e : StoreError, e.isVersionConflict = false → Q (.error e) t)
    (hrest : KeepsParts attempts parts Q t) :
    KeepsParts attempts (messages.map .message ++ parts) Q t := by
  induction messages with
  | nil => exact hrest
  | cons m messages ih =>
      refine keepsParts_statement rfl (by decide +kernel) ht (fun reply e h => ?_) ih
      cases reply with
      | ok _ => exact absurd h (by simp [Part.fault?])
      | error error =>
          rw [← Option.some.inj h]
          exact hfault _ rfl

theorem moved_slot (slot : Slot) (expected : Int64)
    (reply : Wire.Reply (Part.slot slot expected).request) :
    moved t (.wire (Part.slot slot expected).request) reply =
      match reply with
      | .ok outcome => if outcome.affected = 0 then { t with lost := t.lost + 1 } else t
      | .error _ => t := by
  have hsql : Sql.writesSlot
      (if expected = 0 then Sql.Statement.insertSlot else Sql.Statement.updateSlot) = true := by
    split <;> simp [Sql.writesSlot]
  show { t with
    lost := t.lost + if Turn.seesMoved ⟨.wire (.statement _ _), reply⟩ then 1 else 0 } = _
  cases reply with
  | ok outcome =>
      simp only [Turn.seesMoved, hsql, Bool.true_and, decide_eq_true_eq]
      split <;> rfl
  | error e => rfl

theorem keepsParts_slot (slot : Slot) (expected : Int64) (ht : t.IsOpen)
    (hmoved : Q (.error (.versionConflict slot.account slot.currency.code expected))
      { t with lost := t.lost + 1 })
    (hfault : ∀ e : StoreError, e.isVersionConflict = false → Q (.error e) t)
    (hrest : KeepsParts attempts parts Q t) :
    KeepsParts attempts (.slot slot expected :: parts) Q t := by
  refine keepsParts_cons ht.unsealed (fun reply => ?_) (fun reply h => ?_) fun reply e h => ?_
  all_goals rw [moved_slot]
  · cases reply with
    | ok outcome =>
        dsimp only
        split
        · exact ⟨ht.unsealed, ht.unclosed⟩
        · exact ht
    | error _ => exact ht
  · cases reply with
    | ok outcome =>
        have hwritten : outcome.affected ≠ 0 := by
          intro hmoved
          simp [Part.fault?, hmoved] at h
        dsimp only
        rw [if_neg hwritten]
        exact hrest
    | error _ => exact absurd h (by simp [Part.fault?])
  · cases reply with
    | ok outcome =>
        simp only [Part.fault?, Option.ite_none_right_eq_some, Option.some.injEq] at h
        obtain ⟨haffected, rfl⟩ := h
        dsimp only
        rw [if_pos haffected]
        exact hmoved
    | error error =>
        rw [← Option.some.inj h]
        exact hfault _ rfl

/-- How a change set is settled over a connection: it is written, or seen to have lost the race, or
refused. -/
theorem keeps_commit (c : ChangeSet) (ht : t.IsOpen)
    (hmoved : ∀ account currency version, Q (.error (.versionConflict account currency version))
      { t with lost := t.lost + 1 })
    (hfault : ∀ e : StoreError, e.isVersionConflict = false → Q (.error e) t)
    (hwritten : Q (.ok ()) { t with sealed := some (.ok ()) })
    (hfailed : ∀ e, Q (.error (Sql.storeError e))
      { t with sealed := some (.error e), closed := true }) :
    (Link.ask (.commit c)).wp (conduct attempts).asks Q t := by
  rw [wp_ask]
  show (Sql.commit c).wp _ Q t
  rw [Sql.commit_eq]
  refine keepsParts_cons (p := .start) ht.unsealed (fun _ => ht) (fun _ _ => ?_) fun reply e h => ?_
  · show KeepsParts attempts _ Q t
    refine keepsParts_slot _ _ ht (hmoved ..) hfault ?_
    have hrest : KeepsParts attempts (c.outbox.map .message ++ [.finish]) Q t :=
      keepsParts_messages _ ht hfault (keepsParts_finish ht hwritten hfailed)
    cases hentry : c.entry with
    | none => exact hrest
    | some entry => exact keepsParts_entry entry ht hfault hrest
  · cases reply with
    | ok _ => exact absurd h (by simp [Part.fault?])
    | error error =>
        rw [← Option.some.inj h]
        exact hfault _ rfl

/-! ## Requests of calls -/

theorem Mirrors.begin (h : Mirrors s t) :
    Mirrors { s with begun := s.begun + 1, found := none, loaded := none }
      { t with begun := t.begun + 1 } where
  begun := congrArg (· + 1) h.begun
  lost := h.lost
  unclosed := h.unclosed
  written := h.written
  failed := h.failed

theorem Mirrors.learn (h : Mirrors s t) (q : Store.Request) (a : q.Answer) :
    Mirrors (s.learn q a) t := by
  cases q <;> exact ⟨h.begun, h.lost, h.unclosed, h.written, h.failed⟩

theorem Mirrors.lose (h : Mirrors s t) : Mirrors { s with lost := s.lost + 1, loaded := none }
    { t with lost := t.lost + 1 } where
  begun := h.begun
  lost := congrArg (· + 1) h.lost
  unclosed := h.unclosed
  written := h.written
  failed := h.failed

theorem Mirrors.refuse (h : Mirrors s t) (ht : t.IsOpen) (e : StoreError) :
    Mirrors { s with loaded := none, verdict := some (.error e) } t where
  begun := h.begun
  lost := h.lost
  unclosed := h.unclosed
  written := by simp [ht.unsealed]
  failed := by simp [ht.unsealed]

theorem Mirrors.write (h : Mirrors s t) (ht : t.IsOpen) :
    Mirrors { s with loaded := none, verdict := some (.ok ()) }
      { t with sealed := some (.ok ()) } where
  begun := h.begun
  lost := h.lost
  unclosed _ := ht.unclosed
  written := by simp
  failed := by simp

theorem Mirrors.fail (h : Mirrors s t) (e : DatabaseError) :
    Mirrors { s with loaded := none, verdict := some (.error (Sql.storeError e)) }
      { t with sealed := some (.error e), closed := true } where
  begun := h.begun
  lost := h.lost
  unclosed := by simp
  written := by simp
  failed e' h' := ⟨rfl, by rw [Except.error.inj (Option.some.inj h')]⟩

theorem Mirrors.isOpen_of_replays (h : Mirrors s t)
    (hs : s.verdict = none ∨ ∃ text, s.verdict = some (.error (.duplicateKey text))) :
    t.IsOpen := by
  refine h.isOpen (fun text he => ?_) fun he => ?_ <;>
    obtain hnone | ⟨_, hkey⟩ := hs <;> simp_all

theorem keeps_yields_bind {α : Type} {f : Bool → Program Link α} {Q : α → Connection → Prop}
    (ht : t.IsOpen) (h : ∀ stop, (f stop).wp (conduct attempts).asks Q t) :
    (Link.yields >>= f).wp (conduct attempts).asks Q t :=
  ⟨ht.unsealed, fun stop _ => h stop⟩

theorem keeps_plan {q : Store.Request} (hq : q.isLookup = true) (ht : t.IsOpen)
    {Q : Option q.Reply → Connection → Prop} (hnone : Q none t)
    (hsome : ∀ reply, Sql.IsCandid reply → Q (some reply) t) :
    (Link.serve (.plan q)).wp (conduct attempts).asks Q t := by
  refine keeps_yields_bind ht fun stop => ?_
  cases stop with
  | true => exact hnone
  | false =>
      refine (congrFun (Program.wp_bind (Link.ask q) _ Q) t).mpr
        (keeps_lookup hq ht fun reply hreply => keeps_yields_bind ht fun stop => ?_)
      cases stop with
      | true => exact hnone
      | false => exact hsome reply hreply

/-- What `Effort.may` let a call ask is answered within the rules for the connection. -/
theorem keeps_serve {call : Call} {request : World.Request} (h : Mirrors s t)
    (hmay : Effort.may call s request) :
    (conduct call.policy.attempts).Keeps (Link.serve request) (fun reply t' =>
      World.IsCandid request reply ∧ Mirrors (Effort.moved s request reply) t') t := by
  have hunsettled : s.verdict = none → ∀ e, t.sealed ≠ some (.error e) := by
    intro hs e he
    simp [(h.isOpen_of_replays (.inl hs)).unsealed] at he
  cases request with
  | stopping =>
      obtain ⟨hs, hbegun, hlost⟩ := hmay
      have ht := h.isOpen_of_replays (.inl hs)
      rw [← h.begun, ← h.lost] at hbegun
      exact ⟨⟨ht.unsealed, hbegun, h.lost ▸ hlost⟩, fun _ _ => ⟨trivial, h.begin⟩⟩
  | clock | freshId | jitter | pause =>
      exact ⟨hunsettled hmay, fun _ _ => ⟨trivial, h⟩⟩
  | log line =>
      refine ⟨fun e he => ?_, fun _ _ => ⟨trivial, h⟩⟩
      obtain ⟨_, hkey⟩ := hmay _ (h.failed e he).2
      cases hkey
  | plan q =>
      have hq : q.isLookup = true := by
        cases q <;> first | rfl | exact hmay.2.elim
      refine keeps_plan hq (h.isOpen_of_replays (.inl hmay.1.unsettled)) ⟨trivial, h⟩
        fun reply hreply => ?_
      cases reply with
      | error e => exact ⟨fun _ => hreply e rfl, h⟩
      | ok a => exact ⟨trivial, h.learn q a⟩
  | store q =>
      cases q with
      | commit c =>
          have ht := h.isOpen_of_replays (.inl hmay.1.unsettled)
          refine keeps_commit c ht (fun _ _ _ => ⟨nofun, h.lose⟩) (fun e he => ⟨nofun, ?_⟩)
            ⟨trivial, h.write ht⟩ fun e => ⟨nofun, h.fail e⟩
          simp only [Effort.moved, he]
          exact h.refuse ht e
      | findByKey key =>
          refine keeps_lookup rfl (h.isOpen_of_replays (.inr hmay)) fun reply hreply => ?_
          cases reply with
          | error e => exact ⟨fun _ => hreply e rfl, h⟩
          | ok found => exact ⟨trivial, h⟩
      | _ => exact hmay.elim
  | _ => exact hmay.elim

/-- A call keeps the rules for the connection when it is put `through` it. -/
theorem keeps_execute (call : Call) :
    (conduct call.policy.attempts).Keeps (call.execute.run.through Link.serve)
      (fun answer t => ∃ s, Mirrors s t ∧
        Effort.Closes Answer.status call.policy.attempts answer s) {} :=
  call.tries_execute.through (fun _ _ _ h => keeps_serve h)
    { begun := rfl, lost := rfl, unclosed _ := rfl, written := by simp, failed := by simp }

/-! ## Conversations -/

variable {turns more : List (Turn Link)} {x : Turn Link}

theorem begun_moved :
    (moved t x.request x.reply).begun = t.begun + if x.begins then 1 else 0 := by
  obtain ⟨request, reply⟩ := x
  cases request with
  | wire request =>
      cases request <;> rfl
  | yields => rfl
  | world request => cases request <;> rfl

theorem lost_moved :
    (moved t x.request x.reply).lost = t.lost + if x.seesMoved then 1 else 0 := by
  obtain ⟨request, reply⟩ := x
  cases request with
  | wire request =>
      cases request <;> rfl
  | yields => rfl
  | world request => cases request <;> rfl

theorem sealed_moved (h : x.seals = false) : (moved t x.request x.reply).sealed = t.sealed := by
  obtain ⟨request, reply⟩ := x
  cases request with
  | wire request =>
      cases request with
      | commit => exact absurd h (by simp [Turn.seals])
      | _ => rfl
  | yields => rfl
  | world request => cases request <;> rfl

theorem exists_of_begins (h : x.begins = true) : ∃ stop, x = ⟨.world .stopping, stop⟩ := by
  obtain ⟨request, reply⟩ := x
  cases request with
  | world request =>
      cases request with
      | stopping => exact ⟨reply, rfl⟩
      | _ => exact absurd h (by simp [Turn.begins])
  | _ => exact absurd h (by simp [Turn.begins])

theorem exists_of_seals (h : x.seals = true) : ∃ r, x = ⟨.wire .commit, r⟩ := by
  obtain ⟨request, reply⟩ := x
  cases request with
  | wire request =>
      cases request with
      | commit => exact ⟨reply, rfl⟩
      | _ => exact absurd h (by simp [Turn.seals])
  | _ => exact absurd h (by simp [Turn.seals])

theorem counts_after (attempts : Nat) (turns : List (Turn Link)) :
    ((conduct attempts).after {} turns).begun = turns.countP Turn.begins ∧
      ((conduct attempts).after {} turns).lost = turns.countP Turn.seesMoved := by
  induction turns using List.reverseRecOn with
  | nil => exact ⟨rfl, rfl⟩
  | append_singleton turns x ih =>
      rw [Conduct.after_concat, List.countP_append, List.countP_append, List.countP_singleton,
        List.countP_singleton, ← ih.1, ← ih.2]
      exact ⟨begun_moved, lost_moved⟩

/-- When an attempt begins, every attempt before it has lost its race. -/
theorem counts_of_begins {stop : Bool}
    (h : (conduct attempts).Allows {} (turns ++ ⟨.world .stopping, stop⟩ :: more)) :
    turns.countP Turn.begins = turns.countP Turn.seesMoved ∧
      turns.countP Turn.seesMoved < attempts := by
  obtain ⟨-, hbegun, hlost⟩ := h turns ⟨.world .stopping, stop⟩
    ((List.prefix_append_right_inj turns).mpr ((List.prefix_cons_inj _).mpr List.nil_prefix))
  rw [(counts_after attempts turns).1, (counts_after attempts turns).2] at hbegun
  rw [(counts_after attempts turns).2] at hlost
  exact ⟨hbegun, hlost⟩

theorem countP_begins_le (h : (conduct attempts).Allows {} turns) :
    turns.countP Turn.begins ≤ attempts := by
  induction turns using List.reverseRecOn with
  | nil => exact Nat.zero_le _
  | append_singleton turns x ih =>
      rw [List.countP_append, List.countP_singleton]
      cases hbegins : x.begins with
      | false => exact ih (h.earlier (List.prefix_append ..))
      | true =>
          obtain ⟨_, rfl⟩ := exists_of_begins hbegins
          obtain ⟨hcount, hlost⟩ := counts_of_begins h
          rw [hcount]
          exact hlost

/-- The state knows the one COMMIT of the conversation in `sealed`, if there is one. -/
theorem sealed_after (h : (conduct attempts).Allows {} turns) :
    turns.countP Turn.seals = (if ((conduct attempts).after {} turns).sealed.isSome then 1 else 0) ∧
      ∀ r, ((conduct attempts).after {} turns).sealed = some r ↔ ⟨.wire .commit, r⟩ ∈ turns := by
  induction turns using List.reverseRecOn with
  | nil => simp [Conduct.after]
  | append_singleton turns x ih =>
      obtain ⟨hbefore, hmay⟩ := Conduct.allows_concat_iff.mp h
      obtain ⟨hcount, hmem⟩ := ih hbefore
      rw [Conduct.after_concat, List.countP_append, List.countP_singleton, hcount]
      cases hseals : x.seals with
      | false =>
          have hsame : ((conduct attempts).moved ((conduct attempts).after {} turns) x.request
              x.reply).sealed = ((conduct attempts).after {} turns).sealed := sealed_moved hseals
          rw [hsame]
          refine ⟨rfl, fun r => ?_⟩
          rw [hmem, List.mem_append, List.mem_singleton]
          exact (or_iff_left fun hx => by simp [← hx, Turn.seals] at hseals).symm
      | true =>
          obtain ⟨r, rfl⟩ := exists_of_seals hseals
          have hnone : ((conduct attempts).after {} turns).sealed = none := hmay
          refine ⟨by rw [hnone]; rfl, fun r' => ?_⟩
          have hfresh : ⟨.wire .commit, r'⟩ ∉ turns := fun hr' =>
            absurd (hnone.symm.trans ((hmem r').mpr hr')) (by simp)
          show some r = some r' ↔ _
          simp [hfresh, eq_comm]

theorem unclosed_moved (ht : t.sealed = none → t.closed = false)
    (h : (moved t x.request x.reply).sealed = none) :
    (moved t x.request x.reply).closed = false := by
  obtain ⟨request, reply⟩ := x
  cases request with
  | wire request =>
      cases request with
      | commit => exact absurd h (by simp [moved])
      | rollback =>
          have hnone : t.sealed = none := h
          simp [moved, hnone]
      | _ => exact ht h
  | yields => exact ht h
  | world request => cases request <;> exact ht h

theorem unclosed_after (turns : List (Turn Link))
    (h : ((conduct attempts).after {} turns).sealed = none) :
    ((conduct attempts).after {} turns).closed = false := by
  induction turns using List.reverseRecOn with
  | nil => rfl
  | append_singleton turns x ih =>
      rw [Conduct.after_concat] at h ⊢
      exact unclosed_moved ih h

/-- After a COMMIT that failed nothing is allowed but the rollback, and that only once. -/
theorem eq_rollback_of_may {request : Link.Request} {e : DatabaseError}
    (hsealed : t.sealed = some (.error e)) (h : may attempts t request) :
    request = .wire .rollback ∧ t.closed = false := by
  cases request with
  | wire request =>
      cases request with
      | rollback => exact ⟨rfl, h.2⟩
      | script => exact h.elim
      | _ => exact absurd (hsealed.symm.trans h) (by simp)
  | yields => exact absurd (hsealed.symm.trans h) (by simp)
  | world request =>
      cases request with
      | stopping => exact absurd (hsealed.symm.trans h.1) (by simp)
      | _ => exact absurd hsealed (h e)

/-- What has been rolled back after a COMMIT that failed has got there by nothing else. -/
theorem eq_rollback_of_failed {e : DatabaseError} (hsealed : t.sealed = some (.error e))
    (hclosed : t.closed = false) (hlater : ((conduct attempts).after t more).closed = true)
    (h : (conduct attempts).Allows t more) : more = [⟨.wire .rollback, ()⟩] := by
  cases more with
  | nil => exact absurd (hclosed.symm.trans hlater) (by simp)
  | cons x rest =>
      obtain ⟨request, reply⟩ := x
      obtain ⟨rfl, -⟩ := eq_rollback_of_may hsealed
        (h [] ⟨request, reply⟩ ((List.prefix_cons_inj _).mpr List.nil_prefix))
      cases rest with
      | nil => rfl
      | cons y rest =>
          have hagain := h [⟨.wire .rollback, reply⟩] y
            ((List.prefix_cons_inj _).mpr ((List.prefix_cons_inj _).mpr List.nil_prefix))
          obtain ⟨-, hopen⟩ :=
            eq_rollback_of_may (t := { t with closed := t.sealed.isSome }) hsealed hagain
          simp [hsealed] at hopen

theorem eq_rollback_of_commit {e : DatabaseError}
    (h : (conduct attempts).Allows {} (turns ++ ⟨.wire .commit, .error e⟩ :: more))
    (hclosed : ((conduct attempts).after {}
      (turns ++ ⟨.wire .commit, .error e⟩ :: more)).closed = true) :
    more = [⟨.wire .rollback, ()⟩] := by
  rw [List.append_cons] at h hclosed
  obtain ⟨-, hmay⟩ := Conduct.allows_concat_iff.mp (h.earlier (List.prefix_append ..))
  have hlater := h.later
  rw [Conduct.after_append, Conduct.after_concat] at hclosed
  rw [Conduct.after_concat] at hlater
  exact eq_rollback_of_failed
    (t := { (conduct attempts).after {} turns with sealed := some (.error e) }) rfl
    (unclosed_after turns hmay) hclosed hlater

end Connection

/-- How a call that talks to a database goes: turns are told apart by `begins`, `seesMoved` and
`seals`. -/
structure CommitsOnce (call : Call) (turns : List (Turn Link))
    (answer : Except LedgerError Answer) : Prop where
  /-- There is one COMMIT at most. -/
  once : turns.countP Turn.seals ≤ 1
  /-- Success is answered if and only if it is acknowledged, but for what is there already. -/
  landed : (∃ a, answer = .ok a ∧ a.status ≠ .alreadyProcessed) ↔
    ⟨.wire .commit, .ok ()⟩ ∈ turns
  /-- After one that failed there is only the rollback, and the store is said to have failed. -/
  unsure : ∀ before e after, turns = before ++ ⟨.wire .commit, .error e⟩ :: after →
    after = [⟨.wire .rollback, ()⟩] ∧ answer = .error (.store (Sql.storeError e))
  /-- There are no more attempts than the policy allows. -/
  patient : turns.countP Turn.begins ≤ max 1 call.policy.maxAttempts
  /-- Between two of them it is seen that another writer has moved the slot. -/
  again : ∀ before stop between stop' after,
    turns = before ++ ⟨.world .stopping, stop⟩ :: (between ++ ⟨.world .stopping, stop'⟩ :: after) →
    ∃ x ∈ between, x.seesMoved

/-- A call commits once at most, and its answer tells what has become of that. -/
theorem Call.commits_once (call : Call)
    (reply : List (Turn Link) → (request : Link.Request) → Link.Reply request) :
    CommitsOnce call ((call.execute.run.through Link.serve).converse reply []).1
      ((call.execute.run.through Link.serve).converse reply []).2 := by
  obtain ⟨turns, hturns, hconverse⟩ :=
    Program.converses_converse reply (call.execute.run.through Link.serve) []
  obtain ⟨hallows, s, hmirrors, hcloses⟩ :=
    (Connection.keeps_execute call).converses hconverse fun _ _ => trivial
  obtain ⟨hcount, hmem⟩ := Connection.sealed_after hallows
  rw [hturns, List.nil_append]
  refine ⟨?_, ?_, fun before e after hsplit => ?_, Connection.countP_begins_le hallows,
    fun before stop between stop' after hsplit => ?_⟩
  · rw [hcount]
    split <;> decide
  · rw [← hmem, hmirrors.written, hcloses.written]
  · have hsealed := (hmem (.error e)).mpr (hsplit ▸ List.mem_append_right _ List.mem_cons_self)
    obtain ⟨hclosed, hverdict⟩ := hmirrors.failed e hsealed
    refine ⟨?_, hcloses.unsure e.message hverdict⟩
    subst hsplit
    exact Connection.eq_rollback_of_commit hallows hclosed
  · -- the attempts and the races lost are in step when either attempt begins
    subst hsplit
    obtain ⟨hfirst, -⟩ := Connection.counts_of_begins hallows
    rw [List.append_cons, ← List.append_assoc] at hallows
    obtain ⟨hsecond, -⟩ := Connection.counts_of_begins hallows
    have hrest : [⟨.world .stopping, stop⟩].countP Turn.begins = 1 ∧
        [⟨.world .stopping, stop⟩].countP Turn.seesMoved = 0 := ⟨rfl, rfl⟩
    rw [List.countP_append, List.countP_append, List.countP_append, List.countP_append, hfirst,
      hrest.1, hrest.2] at hsecond
    exact List.countP_pos_iff.mp (by omega)

/-- A database on which another writer moves the slot before the first attempt is through, and whose
COMMIT fails. -/
def Link.moody (past : List (Turn Link)) : (request : Link.Request) → Link.Reply request
  | .wire .start | .wire (.script _) => .ok ()
  | .wire (.statement sql _) =>
    .ok { affected := if Sql.writesSlot sql && past.all (fun t => !t.seesMoved) then 0 else 1 }
  | .wire .commit => .error (.server "08006" "connection lost" none)
  | .wire .rollback => ()
  | .yields => false
  | .world _ => default

example :
    let call : Call := { command := .post (.credit .nil "MAD" 100 "in") }
    let (turns, answer) := (call.execute.run.through Link.serve).converse Link.moody []
    turns.countP Turn.begins = 2 ∧ turns.countP Turn.seesMoved = 1 ∧
      turns.countP Turn.seals = 1 ∧
      answer = .error (.store (Sql.storeError (.server "08006" "connection lost" none))) := by
  decide +kernel

end BalanceLedger
