/-
# `Proofs.Scope` — what a call has to do with

A command names an account, or the entry that it voids, and perhaps a key: `account?`,
`target?` and `key?`.  Nothing else in the store is any business of the call that
executes it: it loads slots of its account, looks up that entry and the void of it, and
who holds that key; and what it asks to be written is a slot of the account with an
entry on it, under that key and as the void of that entry.  The rules are
`Command.scope`, and `Covers` is the part about change sets.

A void does not name the account that it is about; it is told when the entry has been
found.  So the rules speak of own accounts, a predicate, and what is to be expected of
the store is that the entry which a void names is on one of them.  Everything else that
is expected says only that something is found where it has been looked for.

`Call.keeps_scope` is the result, for every call and whatever it is told.  The proofs go
along the text of the operations once more; they are shorter than those about progress,
because no state is kept from one request to the next.
`Store.Memory.Indexed.hears_reply` is the other half: a store with right tables replies
as is to be expected.
-/
import BalanceLedger.Proofs.Procedure

namespace BalanceLedger

open Store (ChangeSet Memory)
open Time (Instant)

/-! ## What commands name -/

namespace Command

def target? : Command → Option Uuid
  | .void c => some c.target
  | .post _ | .adjust _ | .earmark .. => none

/-- The key that a command posts under. -/
def key? : Command → Option IdempotencyKey
  | .post c => c.key.bind fun text => (IdempotencyKey.parse text).toOption
  | .void _ | .adjust _ | .earmark .. => none

/-- The account that a command is for; a `.void` is for that of the entry it names, which has to be
looked up. -/
def account? (find : Uuid → Option Entry) : Command → Option Uuid
  | .post c => some c.account
  | .void c => (find c.target).map Entry.account
  | .adjust c => some c.account
  | .earmark _ c => some c.account

/-! ## The rules -/

/-- A change set is about own accounts, and bears no marks but those that the command names. -/
structure Covers (own : Uuid → Prop) (command : Command) (c : ChangeSet) : Prop where
  slot : own c.slot.account
  entry : ∀ e, c.entry = some e → own e.account
  key : ∀ e key, c.entry = some e → e.key = some key → command.key? = some key
  target : ∀ e t, c.entry = some e → e.target = some t → command.target? = some t

/-- What may be asked of the store. -/
def mayAsk (own : Uuid → Prop) (command : Command) : Store.Request → Prop
  | .loadSlot account _ => own account
  | .findEntry id | .findVoidOf id => command.target? = some id
  | .findByKey key => command.key? = some key
  | .commit c => command.Covers own c
  | _ => False

/-- What a call may ask: a `.plan` only looks things up. -/
def may (own : Uuid → Prop) (command : Command) : World.Request → Prop
  | .store q => command.mayAsk own q
  | .plan q => q.isLookup = true ∧ command.mayAsk own q
  | _ => True

/-- What is found is what has been looked for, and an entry is on an own account. -/
def finds (own : Uuid → Prop) : (q : Store.Request) → q.Answer → Prop
  | .loadSlot account _, found => ∀ slot, found = some slot → slot.account = account
  | .findEntry id, found => ∀ e, found = some e → e.id = id ∧ own e.account
  | _, _ => True

/-- The replies that are to be expected: a key is refused only to an entry that bears it. -/
def hears (own : Uuid → Prop) : (request : World.Request) → World.Reply request → Prop
  | .plan q, some (.ok found) => finds own q found
  | .store (.commit c), .error (.duplicateKey text) =>
    ∃ e key, c.entry = some e ∧ e.key = some key ∧ text = key.text
  | _, _ => True

/-- The rules for a call that executes a command, made of `may` and `hears`. -/
def scope (own : Uuid → Prop) (command : Command) : Conduct World Unit where
  may _ := command.may own
  hears := hears own
  moved _ _ _ := ()

section

variable {α β : Type} {own : Uuid → Prop} {command : Command} {origin : Origin}
  {Q : Except LedgerError β → Unit → Prop}

theorem wp_call_bind {request : World.Request} {f : World.Reply request → Operation β}
    (hmay : command.may own request)
    (h : ∀ reply, (f reply).run.wp (command.scope own).asks Q ()) :
    ((liftM (Program.call (I := World) request) : Operation _) >>= f).run.wp
      (command.scope own).asks Q () := by
  rw [Operation.wp_lift_bind]
  exact ⟨hmay, fun reply _ => h reply⟩

theorem wp_read_bind {q : Store.Request} {f : q.Answer → Operation β}
    (hq : q.isLookup = true) (hmay : command.mayAsk own q) (herror : ∀ e, Q (.error e) ())
    (h : ∀ found, finds own q found → (f found).run.wp (command.scope own).asks Q ()) :
    (Operation.read q >>= f).run.wp (command.scope own).asks Q () := by
  refine ⟨⟨hq, hmay⟩, fun reply hreply => ?_⟩
  match reply, hreply with
  | none, _ => exact herror _
  | some (.error e), _ => exact herror _
  | some (.ok found), hfinds => exact h found hfinds

theorem wp_stage {events : List Event} {Q : List Outbox.Message → Unit → Prop}
    (h : ∀ messages, Q messages ()) :
    (World.stage origin events).wp (command.scope own).asks Q () := by
  induction events generalizing Q with
  | nil => exact h []
  | cons event events ih =>
      refine ⟨trivial, fun id _ => ⟨trivial, fun now _ => ?_⟩⟩
      exact (congrFun (Program.wp_map _ _ Q) _).mpr (ih fun messages => h _)

theorem wp_stage_bind {events : List Event} {f : List Outbox.Message → Operation β}
    (h : ∀ messages, (f messages).run.wp (command.scope own).asks Q ()) :
    ((liftM (World.stage origin events) : Operation _) >>= f).run.wp
      (command.scope own).asks Q () := by
  rw [Operation.wp_lift_bind]
  exact wp_stage h

theorem wp_commit {c : ChangeSet} {Q : Except StoreError Unit → Unit → Prop}
    (hcovers : command.Covers own c)
    (h : ∀ verdict, hears own (.store (.commit c)) verdict → Q verdict ()) :
    (World.store (.commit c)).wp (command.scope own).asks Q () :=
  ⟨hcovers, h⟩

theorem wp_commit_bind {c : ChangeSet} {f : Except StoreError Unit → Operation β}
    (hcovers : command.Covers own c)
    (h : ∀ verdict, hears own (.store (.commit c)) verdict →
      (f verdict).run.wp (command.scope own).asks Q ()) :
    ((liftM (World.store (.commit c)) : Operation _) >>= f).run.wp
      (command.scope own).asks Q () := by
  rw [Operation.wp_lift_bind]
  exact wp_commit hcovers h

theorem keeps_planning_bind {plan : Operation α} {f : α → Operation β}
    (h : plan.run.wp (command.scope own).asks
      (Operation.Then (command.scope own).asks f fun _ _ => True) ()) :
    (command.scope own).Keeps (Operation.planning plan >>= f).run (fun _ _ => True) () := by
  rw [Conduct.Keeps, Operation.wp_bind]
  refine ⟨trivial, fun stop _ => ?_⟩
  cases stop with
  | false => exact h
  | true => trivial

theorem keeps_retrying {policy : RetryPolicy} {name : String} {once : Operation β}
    (h : (command.scope own).Keeps once.run (fun _ _ => True) ()) :
    (command.scope own).Keeps (Operation.retrying policy name once).run (fun _ _ => True) () := by
  refine Operation.wp_retrying Conduct.mono_asks (fun attempt t (_ : True) => ?_)
    (fun line t _ => ⟨trivial, fun _ _ => trivial⟩) (fun t _ => ?_) (fun _ _ _ => trivial) trivial
  · -- a pause draws its random part, says how long it is, and waits
    exact ⟨trivial, fun _ _ => ⟨trivial, fun _ _ => ⟨trivial, fun _ _ => trivial⟩⟩⟩
  · refine Program.wp_mono Conduct.mono_asks (fun r u _ => ?_) _ t h
    cases r with
    | ok _ => trivial
    | error e =>
        show if e.isVersionConflict then True else True
        split <;> trivial

end

end Command

/-! ## Postings -/

namespace Posting

variable {own : Uuid → Prop} {command : Command} {p : Posting} {origin : Origin}

theorem key?_of_ofCommand {c : PostCommand} (h : ofCommand c = .ok p) {key : IdempotencyKey}
    (hkey : p.draft.key = some key) : (Command.post c).key? = some key := by
  obtain ⟨amount, -, h⟩ := exists_of_bind_ok h
  obtain ⟨currency, -, h⟩ := exists_of_bind_ok h
  obtain ⟨key', hmap, h⟩ := exists_of_bind_ok h
  dsimp only at h
  split at h
  · exact absurd h (by simp [throw, throwThe, MonadExceptOf.throw, bind, Except.bind])
  · obtain rfl := Except.ok.inj h
    obtain rfl : key' = some key := hkey
    show c.key.bind _ = some key
    cases htext : c.key with
    | none =>
        rw [htext] at hmap
        exact absurd (Except.ok.inj hmap) (by simp)
    | some text =>
        rw [htext, Option.mapM_some] at hmap
        cases hparse : IdempotencyKey.parse text with
        | error e =>
            rw [hparse] at hmap
            exact absurd hmap (by simp [Functor.map, Except.map])
        | ok key' =>
            rw [hparse] at hmap
            rw [← Except.ok.inj hmap, Option.bind_some, hparse]
            rfl

theorem scoped_replay (winner : Entry) {Q : PostingResult → Unit → Prop} (h : ∀ r, Q r ()) :
    (p.replay winner).wp (command.scope own).asks Q () := by
  unfold replay
  cases p.agrees winner with
  | true => exact h _
  | false => exact ⟨trivial, fun _ _ => h _⟩

theorem scoped_earlier_bind {β : Type} {f : Option Entry → Operation β}
    {Q : Except LedgerError β → Unit → Prop}
    (hkey : ∀ key, p.draft.key = some key → command.key? = some key)
    (herror : ∀ e, Q (.error e) ())
    (h : ∀ found, (f found).run.wp (command.scope own).asks Q ()) :
    (p.earlier >>= f).run.wp (command.scope own).asks Q () := by
  unfold earlier
  cases hdraft : p.draft.key with
  | none => exact h none
  | some key => exact Command.wp_read_bind rfl (hkey key hdraft) herror fun found _ => h found

theorem covers (hown : own p.account)
    (hkey : ∀ key, p.draft.key = some key → command.key? = some key) {stored : Option Slot}
    (hstored : ∀ slot, stored = some slot → slot.account = p.account) {now later : Instant}
    {q : Slot × BalanceUpdated}
    (hmove : (stored.getD (.opened p.account p.currency now)).move p.draft.side p.draft.amount now =
      .ok q) {id : Uuid} {e : Entry} (hpost : Entry.post q.1 p.draft id later = .ok e)
    {expected : Int64} {outbox : List Outbox.Message} :
    command.Covers own { slot := q.1, expected, entry := some e, outbox } := by
  have haccount : q.1.account = p.account := by
    refine (congrArg Prod.fst (Slot.move_ok hmove).1.key).trans ?_
    cases stored with
    | none => rfl
    | some slot => exact hstored slot rfl
  obtain rfl := Entry.post_ok hpost
  constructor
  case slot => exact haccount ▸ hown
  case entry => exact fun e he => Option.some.inj he ▸ haccount ▸ hown
  case key => exact fun e key he hk => hkey key (by rwa [← Option.some.inj he] at hk)
  case target =>
    intro e t he ht
    rw [← Option.some.inj he] at ht
    exact absurd ht (by simp)

theorem scoped_plan {Q : Except LedgerError PostingPlan → Unit → Prop} (hown : own p.account)
    (hkey : ∀ key, p.draft.key = some key → command.key? = some key)
    (herror : ∀ e, Q (.error e) ()) (hheld : ∀ winner, Q (.ok (.replay winner)) ())
    (hplanned : ∀ c r, command.Covers own c → Q (.ok (.commit c r)) ()) :
    (p.plan origin).run.wp (command.scope own).asks Q () := by
  refine scoped_earlier_bind hkey herror fun found => ?_
  cases found with
  | some winner => exact hheld winner
  | none =>
      refine Command.wp_read_bind rfl hown herror fun stored hstored => ?_
      refine Command.wp_call_bind trivial fun now =>
        Operation.wp_lawful_bind (fun q hmove => ?_) fun e _ => herror _
      refine Command.wp_call_bind trivial fun id => Command.wp_call_bind trivial fun later =>
        Operation.wp_lawful_bind (fun e hpost => ?_) fun e _ => herror _
      exact Command.wp_stage_bind fun outbox => hplanned _ _ (covers hown hkey hstored hmove hpost)

theorem scoped_once (hown : own p.account)
    (hkey : ∀ key, p.draft.key = some key → command.key? = some key) :
    (command.scope own).Keeps (p.once origin).run (fun _ _ => True) () := by
  have hreplay : ∀ winner, (liftM (p.replay winner) : Operation PostingResult).run.wp
      (command.scope own).asks (fun _ _ => True) () := by
    intro winner
    rw [Operation.wp_lift]
    exact scoped_replay winner fun _ => trivial
  refine Command.keeps_planning_bind (scoped_plan hown hkey (fun _ => trivial) hreplay ?_)
  intro c r hcovers
  refine Command.wp_commit_bind hcovers fun verdict hverdict => ?_
  match verdict, hverdict with
  | .ok (), _ => exact Command.wp_call_bind trivial fun _ => trivial
  | .error (.duplicateKey text), hverdict =>
      -- the key that is looked up again is the one that the command names
      have hnamed : ∀ key, IdempotencyKey.parse text = .ok key → command.key? = some key := by
        intro key hparse
        obtain ⟨e, key', he, hk, rfl⟩ := hverdict
        obtain rfl := Except.ok.inj (key'.parse_text.symm.trans hparse)
        exact hcovers.key e key' he hk
      dsimp only
      generalize IdempotencyKey.parse text = parsed at hnamed ⊢
      refine Operation.wp_lawful_bind (fun key hkey => ?_) fun _ _ => trivial
      refine Operation.wp_ask_bind ⟨hnamed key hkey, fun found _ => ?_⟩
      match found with
      | .error e => trivial
      | .ok none => trivial
      | .ok (some winner) => exact hreplay winner
  | .error (.versionConflict ..), _ | .error (.duplicateVoid _), _ | .error (.corrupt _), _
  | .error (.database _), _ | .error (.notClaimed _), _ => trivial

end Posting

/-! ## Voids -/

namespace VoidCommand

variable {own : Uuid → Prop} {c : VoidCommand} {origin : Origin}

theorem covers {target : Entry} (hid : target.id = c.target) (hown : own target.account)
    {slot : Slot} (hslot : slot.account = target.account) {amount : Amount} {now later : Instant}
    {q : Slot × BalanceUpdated} (hmove : slot.move target.side.opposite amount now = .ok q)
    {id : Uuid} {q' : Entry × EntryVoided} (hentry : target.void c.reason q.1 id later = .ok q')
    {expected : Int64} {outbox : List Outbox.Message} :
    (Command.void c).Covers own { slot := q.1, expected, entry := some q'.1, outbox } := by
  have haccount : q.1.account = target.account :=
    (congrArg Prod.fst (Slot.move_ok hmove).1.key).trans hslot
  obtain ⟨e, voided⟩ := q'
  obtain ⟨rfl, -⟩ := Entry.void_ok hentry
  constructor
  case slot => exact haccount ▸ hown
  case entry => exact fun e he => Option.some.inj he ▸ hown
  case key =>
    intro e key he hk
    rw [← Option.some.inj he] at hk
    exact absurd hk (by simp)
  case target =>
    intro e t he ht
    rw [← Option.some.inj he] at ht
    exact (congrArg some hid.symm).trans ht

theorem scoped_plan {Q : Except LedgerError VoidPlan → Unit → Prop}
    (herror : ∀ e, Q (.error e) ())
    (hplanned : ∀ plan : VoidPlan, (Command.void c).Covers own plan.changes → Q (.ok plan) ()) :
    (c.plan origin).run.wp ((Command.void c).scope own).asks Q () := by
  refine Command.wp_read_bind rfl rfl herror fun found hfound => ?_
  cases found with
  | none => exact herror _
  | some target =>
      obtain ⟨hid, hown⟩ := hfound target rfl
      dsimp only
      cases hvoid : target.isVoid with
      | true => exact herror _
      | false =>
          refine Command.wp_read_bind rfl (congrArg some hid.symm) herror fun voided _ => ?_
          cases voided with
          | some _ => exact herror _
          | none =>
              refine Command.wp_read_bind rfl hown herror fun stored hstored => ?_
              cases stored with
              | none => exact herror _
              | some slot =>
                  refine Operation.wp_money_bind (fun amount _ => ?_) fun e _ => herror _
                  refine Command.wp_call_bind trivial fun now =>
                    Operation.wp_lawful_bind (fun q hmove => ?_) fun e _ => herror _
                  refine Command.wp_call_bind trivial fun id =>
                    Command.wp_call_bind trivial fun later =>
                      Operation.wp_lawful_bind (fun q' hentry => ?_) fun e _ => herror _
                  exact Command.wp_stage_bind fun outbox =>
                    hplanned _ (covers hid hown (hstored slot rfl) hmove hentry)

theorem scoped_once :
    ((Command.void c).scope own).Keeps (c.once origin).run (fun _ _ => True) () := by
  refine Command.keeps_planning_bind (scoped_plan (fun _ => trivial) ?_)
  intro plan hcovers
  refine Command.wp_commit_bind hcovers fun verdict _ => ?_
  match verdict with
  | .ok () => exact Command.wp_call_bind trivial fun _ => trivial
  | .error (.duplicateVoid _) | .error (.versionConflict ..) | .error (.duplicateKey _)
  | .error (.corrupt _) | .error (.database _) | .error (.notClaimed _) => trivial

end VoidCommand

/-! ## Reservations -/

namespace Earmark

variable {own : Uuid → Prop} {command : Command} {k : Earmark} {account : Uuid}
  {currency : Currency} {amount : Amount} {origin : Origin}

theorem scoped_plan {Q : Except LedgerError (ChangeSet × ReservationResult) → Unit → Prop}
    (hown : own account) (herror : ∀ e, Q (.error e) ())
    (hplanned : ∀ c r, command.Covers own c → Q (.ok (c, r)) ()) :
    (k.plan account currency amount origin).run.wp (command.scope own).asks Q () := by
  refine Command.wp_read_bind rfl hown herror fun stored hstored => ?_
  cases stored with
  | none => exact herror _
  | some slot =>
      refine Command.wp_call_bind trivial fun now =>
        Operation.wp_lawful_bind (fun q hchange => ?_) fun _ _ => herror _
      refine Command.wp_stage_bind fun outbox => hplanned _ _ ?_
      have haccount : q.1.account = account :=
        (congrArg Prod.fst (change_keeps hchange).1.key).trans (hstored slot rfl)
      exact ⟨haccount ▸ hown, fun e he => absurd he (by simp), fun e _ he => absurd he (by simp),
        fun e _ he => absurd he (by simp)⟩

theorem scoped_once (hown : own account) :
    (command.scope own).Keeps (k.once account currency amount origin).run (fun _ _ => True) () := by
  refine Command.keeps_planning_bind (scoped_plan hown (fun _ => trivial) ?_)
  intro c r hcovers
  refine Operation.wp_ask_bind (Command.wp_commit hcovers fun verdict _ => ?_)
  cases verdict with
  | ok _ => exact Command.wp_call_bind trivial fun _ => trivial
  | error e => trivial

end Earmark

/-! ## Calls -/

/-- Whatever a call is told, it has to do with nothing but its account, its key and the entry that
it voids, if the account is an own one. -/
theorem Call.keeps_scope (call : Call) (find : Uuid → Option Entry) {own : Uuid → Prop}
    (hown : ∀ account, call.command.account? find = some account → own account) :
    (call.command.scope own).Keeps call.execute.run (fun _ _ => True) () := by
  obtain ⟨command, policy, origin⟩ := call
  -- the answer is handed on
  have hreturn : ∀ {α : Type} {o : Operation α} {f : α → Answer},
      (command.scope own).Keeps o.run (fun _ _ => True) () →
      (command.scope own).Keeps (o >>= fun a => return f a).run (fun _ _ => True) () := by
    intro α o f h
    rw [Conduct.Keeps, Operation.wp_bind]
    refine Program.wp_mono Conduct.mono_asks (fun r t _ => ?_) _ () h
    cases r <;> trivial
  cases command with
  | post c =>
      refine hreturn (Operation.wp_lawful_bind (fun p hp => ?_) fun _ _ => trivial)
      obtain ⟨-, currency, -, hslot⟩ := Posting.ofCommand_ok hp
      have haccount : p.account = c.account := congrArg Prod.fst hslot
      exact Command.keeps_retrying (Posting.scoped_once (haccount ▸ hown c.account rfl)
        fun _ => Posting.key?_of_ofCommand hp)
  | void c =>
      refine hreturn ?_
      unfold VoidCommand.execute
      dsimp only
      split
      · trivial
      · exact Command.keeps_retrying VoidCommand.scoped_once
  | adjust c =>
      refine hreturn (Command.wp_call_bind trivial fun transaction => ?_)
      refine Operation.wp_lawful_bind (fun p hp => ?_) fun _ _ => trivial
      obtain ⟨hkey, -, currency, -, hslot⟩ := AdjustCommand.toPosting_ok hp
      have haccount : p.account = c.account := congrArg Prod.fst hslot
      have hposted : ((Command.adjust c).scope own).Keeps (p.apply policy origin).run
          (fun _ _ => True) () :=
        Command.keeps_retrying (Posting.scoped_once (haccount ▸ hown c.account rfl)
          fun key hk => absurd (hkey.symm.trans hk) (by simp))
      rw [Operation.wp_bind]
      refine Program.wp_mono Conduct.mono_asks (fun r t _ => ?_) _ () hposted
      cases r with
      | ok r => exact Command.wp_call_bind trivial fun _ => trivial
      | error e => trivial
  | earmark k c =>
      refine hreturn ?_
      unfold ReserveCommand.execute
      -- how the currency is read is kept out of the way of unification
      generalize Currency.parse c.currency = parsed
      refine Operation.wp_money_bind (fun amount _ => ?_) fun _ _ => trivial
      refine Operation.wp_money_bind (fun currency _ => ?_) fun _ _ => trivial
      exact Command.keeps_retrying (Earmark.scoped_once (hown c.account rfl))

/-! ## Stores -/

theorem Command.covers_of_accepted {m : Memory} {own : Uuid → Prop} {command : Command}
    {request : World.Request} {c : ChangeSet} (hmay : command.may own request)
    (h : m.accepted? request = some c) : command.Covers own c := by
  obtain ⟨hchanges, -⟩ := Option.filter_eq_some_iff.mp h
  cases request with
  | store q =>
      cases q with
      | commit c' =>
          obtain rfl := Option.some.inj hchanges
          exact hmay
      | _ => exact absurd hchanges (by simp [World.Request.changes?])
  | _ => exact absurd hchanges (by simp [World.Request.changes?])

/-- A store that is `Indexed` replies as is to be expected, if an entry that a command names is on
an own account. -/
theorem Store.Memory.Indexed.hears_reply {m : Memory} (hm : m.Indexed) {own : Uuid → Prop}
    {command : Command}
    (hown : ∀ e, e ∈ m.entries → command.target? = some e.id → own e.account)
    {request : World.Request} (hmay : command.may own request) (w : Moment) (stopping : Bool) :
    (command.scope own).hears request (w.reply stopping m request).1 := by
  show Command.hears own request _
  cases request with
  | store q =>
      cases q with
      | commit c =>
          show Command.hears own (.store (.commit c)) (m.answer w.now (.commit c)).1
          cases hf : m.fault? c with
          | none => rw [Memory.answer_commit_accepted hf]; trivial
          | some f =>
              rw [Memory.answer_commit_refused hf]
              rcases Memory.fault?_eq_some hf with rfl | ⟨e, key, he, hk, -, rfl⟩ |
                ⟨_, _, -, -, -, rfl⟩
              · trivial
              · exact ⟨e, key, he, hk, rfl⟩
              · trivial
      | _ => trivial
  | plan q =>
      obtain ⟨hlookup, hmay⟩ := hmay
      simp only [Moment.reply]
      split
      · trivial
      · cases q with
        | loadSlot a currency =>
            intro slot hslot
            exact congrArg Prod.fst (hm.slot_key _ slot hslot)
        | findEntry id =>
            intro e he
            obtain ⟨hmem, rfl⟩ := hm.entry?_eq_some_iff.mp he
            exact ⟨rfl, hown e hmem hmay⟩
        | findByKey | findVoidOf => trivial
        | _ => exact absurd hlookup (by simp [Store.Request.isLookup])
  | _ => trivial

end BalanceLedger
