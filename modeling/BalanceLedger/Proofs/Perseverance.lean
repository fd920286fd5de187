/-
# `Proofs.Perseverance` — how often a call tries

A call tries as often as it loses the race, and no more often than its policy allows.
Every attempt reads the slot of the command afresh and asks the store to write that slot
on top of what it has read, once; and only if the store answers that another writer has
moved the slot is there another attempt.  Any other reply to the change set settles the
matter.  If the store fails, nothing is known of what it has done, so the call says that
the store has failed and asks nothing more, not even the log.

`Effort` counts the attempts that have begun and the races that have been lost, and
`Effort.conduct` are the rules that go by it.  The answer has to be right for these
counts, by `Closes`.  In particular a lost race is never an answer: a call that loses
one tries again, and the error for having tried in vain comes when every attempt that
the policy allows has lost.

These rules are kept whatever the call is told, as long as a store tells of a lost race
only when it is asked to write, which is `World.IsCandid`.  `tries_execute` says so of
all calls.  So they hold on a store in memory among others, where conflicts are counted
against the commits of rivals, and over a connection to a database, where a lookup can
fail in ways that a store in memory does not know.
-/
import BalanceLedger.Proofs.Procedure

namespace BalanceLedger

open Store (ChangeSet Memory)
open Time (Instant)

def Slot.named? (account : Uuid) (code : String) : Option Slot.Key :=
  (Currency.parse code).toOption.map fun currency => (account, currency)

theorem Slot.named?_of_parse {account : Uuid} {code : String} {currency : Currency}
    (h : Currency.parse code = .ok currency) : named? account code = some (account, currency) := by
  rw [named?, h]
  rfl

/-- The slot of a command; a `.void` finds it by the entry that it voids. -/
def Command.slotBy? (find : Uuid → Option Entry) : Command → Option Slot.Key
  | .post c => Slot.named? c.account c.currency
  | .adjust c => Slot.named? c.account c.currency
  | .earmark _ c => Slot.named? c.account c.currency
  | .void c => (find c.target).map Entry.slotKey

/-- Who looks something up is not told that a race is lost. -/
def World.IsCandid : (request : World.Request) → World.Reply request → Prop
  | .store q, .error e | .plan q, some (.error e) => q.isLookup = true → e.isVersionConflict = false
  | _, _ => True

/-- The error ends an attempt, and the call with it. -/
structure LedgerError.IsFinal (e : LedgerError) : Prop where
  race : e.isVersionConflict = false
  patience : ∀ n, e ≠ .exhausted n

/-- What a store in memory replies is candid, as `World.IsCandid` asks: no lookup fails there. -/
theorem World.IsGiven.isCandid {request : World.Request} {reply : World.Reply request}
    (h : World.IsGiven request reply) : World.IsCandid request reply := by
  have hlookup : ∀ {q : Store.Request} {m : Memory} {now : Instant} {e : StoreError},
      .error e = (m.answer now q).1 → q.isLookup = true → e.isVersionConflict = false := by
    intro q m now e he hq
    obtain ⟨a, ha⟩ := Call.exists_ok_of_isLookup hq m now
    exact absurd (he.trans ha) (by simp)
  match request, reply, h with
  | .store _, .error _, ⟨_, _, he⟩ => exact hlookup he
  | .plan _, some (.error _), ⟨_, _, he⟩ => exact hlookup he
  | .store _, .ok _, _ | .plan _, none, _ | .plan _, some (.ok _), _ => trivial
  | .stopping, _, _ | .clock, _, _ | .freshId, _, _ | .jitter _, _, _ | .pause _, _, _
  | .timer, _, _ | .waitUntil _, _, _ | .publish _, _, _ | .log _, _, _ => trivial

namespace Turn

/-- Does an attempt begin with the turn?  Every attempt asks first whether shutdown has come, and
asks so only once. -/
def isAttempt : Turn World → Bool
  | ⟨.stopping, _⟩ => true
  | _ => false

def isConflict : Turn World → Bool
  | ⟨.store (.commit _), .error e⟩ => e.isVersionConflict
  | _ => false

end Turn

/-- What a call has done and heard so far. -/
structure Effort where
  /-- The attempts it has begun. -/
  begun : Nat := 0
  /-- The races it has lost. -/
  lost : Nat := 0
  /-- The entry that this attempt has found. -/
  found : Option Entry := none
  /-- The slot that this attempt has read, until it asks for it to be written. -/
  loaded : Option (Slot.Key × Option Slot) := none
  /-- What the store has said of a change set, other than that a race is lost. -/
  verdict : Option (Except StoreError Unit) := none

namespace Effort

/-! ## The rules -/

/-- An attempt is under way. -/
structure Trying (s : Effort) : Prop where
  unsettled : s.verdict = none
  current : s.begun = s.lost + 1

/-- Any attempt so far has lost the race. -/
structure Waiting (lost : Nat) (s : Effort) : Prop where
  unsettled : s.verdict = none
  begun : s.begun = lost
  lost : s.lost = lost

def Asks (s : Effort) (command : Command) : Store.Request → Prop
  | .loadSlot account currency => command.slotBy? (fun _ => s.found) = some (account, currency)
  | .findEntry id => ∃ c, command = .void c ∧ id = c.target
  | .findByKey _ | .findVoidOf _ => True
  | _ => False

/-- The change set is made for the slot of the command, on top of what has been read of it:
`expected` is the version of what was `loaded`. -/
def Bases (s : Effort) (command : Command) (c : ChangeSet) : Prop :=
  ∃ key stored, s.loaded = some (key, stored) ∧ command.slotBy? (fun _ => s.found) = some key ∧
    c.slot.key = (stored.map Slot.key).getD key ∧ c.expected = Slot.versionRead stored

/-- What a call may ask. -/
def may (call : Call) (s : Effort) : World.Request → Prop
  | .stopping => s.verdict = none ∧ s.begun = s.lost ∧ s.lost < call.policy.attempts
  | .plan q => s.Trying ∧ s.Asks call.command q
  | .store (.commit c) => s.Trying ∧ s.Bases call.command c
  | .store (.findByKey _) => ∃ text, s.verdict = some (.error (.duplicateKey text))
  | .log _ => ∀ e, s.verdict = some (.error e) → ∃ text, e = .duplicateKey text
  | .clock | .freshId | .jitter _ | .pause _ => s.verdict = none
  | _ => False

def learn (s : Effort) : (q : Store.Request) → q.Answer → Effort
  | .findEntry _, found => { s with found }
  | .loadSlot account currency, stored => { s with loaded := some ((account, currency), stored) }
  | _, _ => s

/-- What is known after a reply.  A `.commit` is a lost race if `isVersionConflict` says so, and
else it is the verdict. -/
def moved (s : Effort) : (request : World.Request) → World.Reply request → Effort
  | .stopping, _ => { s with begun := s.begun + 1, found := none, loaded := none }
  | .plan q, some (.ok answer) => s.learn q answer
  | .store (.commit _), .ok () => { s with loaded := none, verdict := some (.ok ()) }
  | .store (.commit _), .error e =>
    if e.isVersionConflict then { s with lost := s.lost + 1, loaded := none }
    else { s with loaded := none, verdict := some (.error e) }
  | _, _ => s

/-- The rules for a call. -/
def conduct (call : Call) : Conduct World Effort where
  may := may call
  hears := World.IsCandid
  moved := moved

/-- The answer is right for what the call has done and heard. -/
structure Closes {β : Type} (status : β → PostingStatus) (attempts : Nat)
    (r : Except LedgerError β) (s : Effort) : Prop where
  written : s.verdict = some (.ok ()) ↔ ∃ b, r = .ok b ∧ status b ≠ .alreadyProcessed
  /-- What is refused is answered only if its key is in use. -/
  replayed : ∀ e b, s.verdict = some (.error e) → r = .ok b → ∃ text, e = .duplicateKey text
  /-- Of a failure nothing is known but that it is one. -/
  unsure : ∀ text, s.verdict = some (.error (.database text)) →
    r = .error (.store (.database text))
  exhausted : ∀ n, r = .error (.exhausted n) → n = attempts ∧ s.lost = attempts
  /-- A lost race is a reason to try again and not an answer. -/
  settled : ∀ e, r = .error e → e.isVersionConflict = false

section

variable {call : Call} {α β : Type} {s : Effort} {status : β → PostingStatus} {attempts : Nat}
  {Q : Except LedgerError β → Effort → Prop}

theorem Waiting.trying {lost : Nat} (hs : s.Waiting lost) :
    ({ s with begun := s.begun + 1, found := none, loaded := none } : Effort).Trying :=
  ⟨hs.unsettled, by rw [hs.begun, hs.lost]⟩

theorem Trying.learn (hs : s.Trying) (q : Store.Request) (a : q.Answer) : (s.learn q a).Trying := by
  cases q <;> exact ⟨hs.unsettled, hs.current⟩

/-! ## Answers -/

/-- An error that `IsFinal` is a right answer where nothing has been written, and where a failure of
the store is told as what it is. -/
theorem closes_final {e : LedgerError} (he : e.IsFinal) (hwritten : s.verdict ≠ some (.ok ()))
    (hfailure : ∀ text, s.verdict = some (.error (.database text)) → e = .store (.database text)) :
    Closes status attempts (.error e) s where
  written := iff_of_false hwritten (by simp)
  replayed := by simp
  unsure text h := congrArg Except.error (hfailure text h)
  exhausted n h := absurd (Except.error.inj h) (he.patience n)
  settled _ h := Except.error.inj h ▸ he.race

theorem closes_error {e : LedgerError} (hs : s.verdict = none) (he : e.IsFinal) :
    Closes status attempts (.error e) s :=
  closes_final he (by simp [hs]) (by simp [hs])

theorem closes_exhausted (hs : s.Waiting attempts) :
    Closes status attempts (.error (.exhausted attempts)) s where
  written := by simp [hs.unsettled]
  replayed := by simp
  unsure := by simp [hs.unsettled]
  exhausted n h := ⟨(LedgerError.exhausted.inj (Except.error.inj h)).symm, hs.lost⟩
  settled _ h := Except.error.inj h ▸ rfl

theorem closes_replay {b : β} (hs : ∀ e, s.verdict = some e → ∃ text, e = .error (.duplicateKey text))
    (hb : status b = .alreadyProcessed) : Closes status attempts (.ok b) s where
  written := by
    constructor
    · intro h
      obtain ⟨_, htext⟩ := hs _ h
      exact absurd htext (by simp)
    · rintro ⟨_, hb', hne⟩
      exact absurd (Except.ok.inj hb' ▸ hb) hne
  replayed e _ h _ := by
    obtain ⟨text, htext⟩ := hs _ h
    exact ⟨text, Except.error.inj htext⟩
  unsure text h := by
    obtain ⟨_, htext⟩ := hs _ h
    exact absurd htext (by simp)
  exhausted _ h := absurd h (by simp)
  settled _ h := absurd h (by simp)

theorem closes_written {b : β} (hs : s.verdict = some (.ok ())) (hb : status b ≠ .alreadyProcessed) :
    Closes status attempts (.ok b) s where
  written := ⟨fun _ => ⟨b, rfl, hb⟩, fun _ => hs⟩
  replayed := by simp [hs]
  unsure := by simp [hs]
  exhausted _ h := absurd h (by simp)
  settled _ h := absurd h (by simp)

theorem closes_refused {e : StoreError} {e' : LedgerError} (hs : s.verdict = some (.error e))
    (hfailure : ∀ text, e = .database text → e' = .store (.database text))
    (hfinal : e'.IsFinal) : Closes status attempts (.error e') s :=
  closes_final hfinal (by simp [hs]) fun text h =>
    hfailure text (Except.error.inj (Option.some.inj (hs.symm.trans h)))

theorem Closes.map {α : Type} {status' : α → PostingStatus} {f : α → β} {r : Except LedgerError α}
    (h : Closes status' attempts r s) (hf : ∀ a, status (f a) = status' a) :
    Closes status attempts (r.map f) s := by
  cases r with
  | error e =>
      refine ⟨?_, by simp [Except.map], fun text hs => ?_,
        fun n hn => h.exhausted n (congrArg _ (Except.error.inj hn)),
        fun e' he' => h.settled e' (congrArg _ (Except.error.inj he'))⟩
      · rw [h.written]
        simp [Except.map]
      · exact congrArg _ (Except.error.inj (h.unsure text hs))
  | ok a =>
      refine ⟨?_, fun e _ he _ => h.replayed e a he rfl,
        fun text hs => absurd (h.unsure text hs) (by simp),
        fun n hn => absurd hn (by simp [Except.map]),
        fun e' he' => absurd he' (by simp [Except.map])⟩
      rw [h.written]
      simp [Except.map, hf]

/-! ## Parts of operations -/

theorem mono_asks : Program.MonoAsks (conduct call).asks :=
  Conduct.mono_asks

theorem wp_clock_bind {f : Instant → Operation β} (hs : s.verdict = none)
    (h : ∀ now, (f now).run.wp (conduct call).asks Q s) :
    ((liftM World.clock : Operation Instant) >>= f).run.wp (conduct call).asks Q s := by
  rw [Operation.wp_lift_bind]
  exact ⟨hs, fun now _ => h now⟩

theorem wp_freshId_bind {f : Uuid → Operation β} (hs : s.verdict = none)
    (h : ∀ id, (f id).run.wp (conduct call).asks Q s) :
    ((liftM World.freshId : Operation Uuid) >>= f).run.wp (conduct call).asks Q s := by
  rw [Operation.wp_lift_bind]
  exact ⟨hs, fun id _ => h id⟩

theorem wp_log_bind {level : Log.Level} {text : String} {fields : List (String × Json)}
    {f : Unit → Operation β} (hs : ∀ e, s.verdict = some (.error e) → ∃ text, e = .duplicateKey text)
    (h : (f ()).run.wp (conduct call).asks Q s) :
    ((liftM (World.log level text fields) : Operation Unit) >>= f).run.wp
      (conduct call).asks Q s := by
  rw [Operation.wp_lift_bind]
  exact ⟨hs, fun _ _ => h⟩

theorem wp_stage {Q : List Outbox.Message → Effort → Prop} {origin : Origin}
    {events : List Event} (hs : s.verdict = none) (h : ∀ messages, Q messages s) :
    (World.stage origin events).wp (conduct call).asks Q s := by
  induction events generalizing Q with
  | nil => exact h []
  | cons event events ih =>
      refine ⟨hs, fun id _ => ⟨hs, fun now _ => ?_⟩⟩
      exact (congrFun (Program.wp_map _ _ Q) _).mpr (ih fun messages => h _)

theorem wp_stage_bind {origin : Origin} {events : List Event}
    {f : List Outbox.Message → Operation β} (hs : s.verdict = none)
    (h : ∀ messages, (f messages).run.wp (conduct call).asks Q s) :
    ((liftM (World.stage origin events) : Operation _) >>= f).run.wp (conduct call).asks Q s := by
  rw [Operation.wp_lift_bind]
  exact wp_stage hs h

theorem wp_read_bind {q : Store.Request} {f : q.Answer → Operation β} (hq : q.isLookup = true)
    (hs : s.Trying) (hasks : s.Asks call.command q)
    (herror : ∀ e : LedgerError, e.IsFinal → Q (.error e) s)
    (h : ∀ a, (f a).run.wp (conduct call).asks Q (s.learn q a)) :
    (Operation.read q >>= f).run.wp (conduct call).asks Q s := by
  refine ⟨⟨hs, hasks⟩, fun reply hcandid => ?_⟩
  match reply with
  | none => exact herror .cancelled ⟨rfl, nofun⟩
  | some (.error e) => exact herror (.store e) ⟨hcandid hq, nofun⟩
  | some (.ok a) => exact h a

theorem wp_planning_bind {plan : Operation α} {f : α → Operation β} {lost : Nat}
    (hs : s.Waiting lost) (hlost : lost < call.policy.attempts)
    (hcancelled : ∀ t, t.Trying → Q (.error .cancelled) t)
    (h : ∀ t, t.Trying → t.lost = lost →
      plan.run.wp (conduct call).asks (Operation.Then (conduct call).asks f Q) t) :
    (Operation.planning plan >>= f).run.wp (conduct call).asks Q s := by
  rw [Operation.wp_bind]
  refine ⟨⟨hs.unsettled, hs.begun.trans hs.lost.symm, hs.lost ▸ hlost⟩, fun stop _ => ?_⟩
  cases stop with
  | false => exact h _ hs.trying hs.lost
  | true => exact hcancelled _ hs.trying

theorem attempted_final {e : LedgerError} {again : Effort → Prop} (he : e.IsFinal)
    (hs : s.Trying) : Operation.Attempted again (Closes status attempts) (.error e) s :=
  Operation.attempted_error he.race (closes_error hs.unsettled he)

theorem wp_commit {c : ChangeSet} {Q : Except StoreError Unit → Effort → Prop} {lost : Nat}
    (hs : s.Trying) (hlost : s.lost = lost) (hbases : s.Bases call.command c)
    (hwritten : ∀ t, t.verdict = some (.ok ()) → Q (.ok ()) t)
    (hmoved : ∀ account currency version t, t.Waiting (lost + 1) →
      Q (.error (.versionConflict account currency version)) t)
    (hrefused : ∀ e t, e.isVersionConflict = false → t.verdict = some (.error e) →
      Q (.error e) t) :
    (World.store (.commit c)).wp (conduct call).asks Q s := by
  refine ⟨⟨hs, hbases⟩, fun reply _ => ?_⟩
  cases reply with
  | ok _ => exact hwritten _ rfl
  | error e =>
      cases e with
      | versionConflict =>
          rw [← hlost] at hmoved
          exact hmoved _ _ _ _ ⟨hs.unsettled, hs.current, rfl⟩
      | _ => exact hrefused _ _ rfl rfl

theorem wp_retrying (call : Call) {name : String} {once : Operation β}
    (honce : ∀ lost t, lost < call.policy.attempts → t.Waiting lost →
      once.run.wp (conduct call).asks
        (Operation.Attempted (Waiting (lost + 1)) (Closes status call.policy.attempts)) t)
    (hs : s.Waiting 0) :
    (Operation.retrying call.policy name once).run.wp (conduct call).asks
      (Closes status call.policy.attempts) s := by
  have hopen : ∀ lost t, Waiting lost t → ∀ e, t.verdict = some (.error e) →
      ∃ text, e = .duplicateKey text := fun lost t ht e he =>
    absurd (ht.unsettled.symm.trans he) (by simp)
  refine Operation.wp_retrying_counted mono_asks Waiting (fun lost attempt t ht => ?_)
    (fun lost line t ht => ⟨hopen lost t ht, fun _ _ => ht⟩) honce
    (fun t => closes_exhausted) hs
  -- a pause draws its random part, says how long it is, and waits
  exact ⟨ht.unsettled, fun _ _ => ⟨hopen lost t ht, fun _ _ => ⟨ht.unsettled, fun _ _ => ht⟩⟩⟩

theorem wp_return {o : Operation α} {f : α → β} (status' : α → PostingStatus)
    (h : o.run.wp (conduct call).asks (Closes status' attempts) s)
    (hf : ∀ a, status (f a) = status' a) :
    (o >>= fun a => return f a).run.wp (conduct call).asks (Closes status attempts) s := by
  rw [Operation.wp_bind]
  refine Program.wp_mono mono_asks (fun r t hr => ?_) _ s h
  have hmap := hr.map hf
  cases r with
  | ok a => exact hmap
  | error e => exact hmap

end

end Effort

open Effort (conduct Closes Waiting)

/-! ## Postings -/

namespace Posting

variable {p : Posting} {call : Call} {origin : Origin} {s : Effort}

theorem tries_replay {winner : Entry} {Q : PostingResult → Effort → Prop}
    (hs : ∀ e, s.verdict = some (.error e) → ∃ text, e = .duplicateKey text)
    (h : Q (replayed winner) s) : (p.replay winner).wp (conduct call).asks Q s := by
  unfold replay
  cases p.agrees winner with
  | true => exact h
  | false => exact ⟨hs, fun _ _ => h⟩

theorem tries_earlier_bind {β : Type} {f : Option Entry → Operation β}
    {Q : Except LedgerError β → Effort → Prop} (hs : s.Trying)
    (herror : ∀ e : LedgerError, e.IsFinal → Q (.error e) s)
    (h : ∀ found, (f found).run.wp (conduct call).asks Q s) :
    (p.earlier >>= f).run.wp (conduct call).asks Q s := by
  unfold earlier
  cases p.draft.key with
  | none => exact h none
  | some key => exact Effort.wp_read_bind rfl hs trivial herror h

theorem tries_plan {Q : Except LedgerError PostingPlan → Effort → Prop} (hs : s.Trying)
    (hslot : ∀ find, call.command.slotBy? find = some p.slotKey)
    (herror : ∀ (e : LedgerError) t, e.IsFinal → t.Trying → Q (.error e) t)
    (hheld : ∀ winner, Q (.ok (.replay winner)) s)
    (hplanned : ∀ c r t, t.Trying → t.lost = s.lost → t.Bases call.command c →
      r.status = p.status → Q (.ok (.commit c r)) t) :
    (p.plan origin).run.wp (conduct call).asks Q s := by
  refine tries_earlier_bind hs (fun e he => herror e s he hs) fun found => ?_
  cases found with
  | some winner => exact hheld winner
  | none =>
      refine Effort.wp_read_bind rfl hs (hslot _) (fun e he => herror e s he hs) fun stored => ?_
      have ht := hs.learn (.loadSlot p.account p.currency) stored
      refine Effort.wp_clock_bind ht.unsettled fun now =>
        Operation.wp_lawful_bind (fun q hmove => ?_) fun e _ => herror _ _ ⟨rfl, nofun⟩ ht
      refine Effort.wp_freshId_bind ht.unsettled fun id =>
        Effort.wp_clock_bind ht.unsettled fun later =>
          Operation.wp_lawful_bind (fun e hpost => ?_) fun e _ => herror _ _ ⟨rfl, nofun⟩ ht
      refine Effort.wp_stage_bind ht.unsettled fun outbox => ?_
      refine hplanned _ _ _ ht rfl ⟨p.slotKey, stored, rfl, hslot _, ?_, ?_⟩ rfl
      · rw [(Slot.move_ok hmove).1.key]
        cases stored <;> rfl
      · exact Slot.version_getD_opened ..

theorem tries_once {lost : Nat} (hs : s.Waiting lost) (hlost : lost < call.policy.attempts)
    (hslot : ∀ find, call.command.slotBy? find = some p.slotKey)
    (hstatus : p.status ≠ .alreadyProcessed) :
    (p.once origin).run.wp (conduct call).asks
      (Operation.Attempted (Waiting (lost + 1))
        (Closes PostingResult.status call.policy.attempts)) s := by
  have hreplay : ∀ winner (t : Effort),
      (∀ e, t.verdict = some e → ∃ text, e = .error (.duplicateKey text)) →
      (liftM (p.replay winner) : Operation PostingResult).run.wp (conduct call).asks
        (Operation.Attempted (Waiting (lost + 1))
          (Closes PostingResult.status call.policy.attempts)) t := by
    intro winner t ht
    rw [Operation.wp_lift]
    refine tries_replay (fun e he => ?_) (Effort.closes_replay ht rfl)
    obtain ⟨text, htext⟩ := ht _ he
    exact ⟨text, Except.error.inj htext⟩
  refine Effort.wp_planning_bind hs hlost (fun _ => Effort.attempted_final ⟨rfl, nofun⟩)
    fun t ht hbegun => ?_
  refine tries_plan ht hslot (fun _ _ => Effort.attempted_final) ?_ ?_
  · exact fun winner => hreplay winner t fun e he => absurd (ht.unsettled.symm.trans he) (by simp)
  · intro c r u hu hsame hbases hr
    refine (congrFun (Operation.wp_lift_bind _ _ _) u).mpr
      (Effort.wp_commit hu (hsame.trans hbegun) hbases ?_ (fun _ _ _ _ hv => hv) ?_)
    · intro v hv
      exact Effort.wp_log_bind (by simp [hv]) (Effort.closes_written hv (hr ▸ hstatus))
    · intro e v he hv
      have hrefused : ∀ e' : LedgerError, e'.IsFinal →
          (∀ text, e = .database text → e' = .store (.database text)) →
          Operation.Attempted (Waiting (lost + 1))
            (Closes PostingResult.status call.policy.attempts) (.error e') v :=
        fun e' he' hfailure =>
          Operation.attempted_error he'.race (Effort.closes_refused hv hfailure he')
      cases e with
      | versionConflict => exact Bool.noConfusion he
      | duplicateKey text =>
          -- whoever has used the key is looked up; how it is read is kept out of unification
          dsimp only
          generalize IdempotencyKey.parse text = parsed
          refine Operation.wp_lawful_bind (fun key _ => ?_) fun e _ =>
            hrefused _ ⟨rfl, nofun⟩ nofun
          refine Operation.wp_ask_bind ⟨⟨text, hv⟩, fun reply hcandid => ?_⟩
          match reply with
          | .error e => exact hrefused (.store e) ⟨hcandid rfl, nofun⟩ nofun
          | .ok none => exact hrefused (.orphanKey key.text) ⟨rfl, nofun⟩ nofun
          | .ok (some winner) =>
              refine hreplay winner v fun e he => ⟨text, ?_⟩
              exact Option.some.inj (he.symm.trans hv)
      | _ => exact hrefused (.store _) ⟨he, nofun⟩ fun text h => h ▸ rfl

theorem tries_apply (call : Call) (hs : s.Waiting 0)
    (hslot : ∀ find, call.command.slotBy? find = some p.slotKey)
    (hstatus : p.status ≠ .alreadyProcessed) :
    (p.apply call.policy origin).run.wp (conduct call).asks
      (Closes PostingResult.status call.policy.attempts) s :=
  Effort.wp_retrying call (fun _ _ hlost ht => tries_once ht hlost hslot hstatus) hs

end Posting

/-! ## Voids -/

namespace VoidCommand

variable {c : VoidCommand} {call : Call} {origin : Origin} {s : Effort}

theorem tries_plan {Q : Except LedgerError VoidPlan → Effort → Prop} (hs : s.Trying)
    (hcall : call.command = .void c)
    (herror : ∀ (e : LedgerError) t, e.IsFinal → t.Trying → Q (.error e) t)
    (hplanned : ∀ plan t, t.Trying → t.lost = s.lost → t.Bases call.command plan.changes →
      plan.result.status = .voided → Q (.ok plan) t) :
    (c.plan origin).run.wp (conduct call).asks Q s := by
  refine Effort.wp_read_bind rfl hs ⟨c, hcall, rfl⟩ (fun e he => herror e s he hs) fun found => ?_
  have hfound := hs.learn (.findEntry c.target) found
  cases found with
  | none => exact herror _ _ ⟨rfl, nofun⟩ hfound
  | some target =>
      dsimp only
      cases hvoid : target.isVoid with
      | true => exact herror _ _ ⟨rfl, nofun⟩ hfound
      | false =>
          refine Effort.wp_read_bind rfl hfound trivial (fun e he => herror e _ he hfound)
            fun voided => ?_
          cases voided with
          | some _ => exact herror _ _ ⟨rfl, nofun⟩ hfound
          | none =>
              have hslot : call.command.slotBy? (fun _ => some target) = some target.slotKey := by
                rw [hcall]
                rfl
              refine Effort.wp_read_bind rfl hfound hslot (fun e he => herror e _ he hfound)
                fun stored => ?_
              have ht := hfound.learn (.loadSlot target.account target.currency) stored
              cases stored with
              | none => exact herror _ _ ⟨rfl, nofun⟩ ht
              | some slot =>
                  refine Operation.wp_money_bind (fun amount _ => ?_) fun e _ =>
                    herror _ _ ⟨rfl, nofun⟩ ht
                  refine Effort.wp_clock_bind ht.unsettled fun now =>
                    Operation.wp_lawful_bind (fun q hmove => ?_) fun e _ =>
                      herror _ _ ⟨rfl, nofun⟩ ht
                  refine Effort.wp_freshId_bind ht.unsettled fun id =>
                    Effort.wp_clock_bind ht.unsettled fun later =>
                      Operation.wp_lawful_bind (fun q _ => ?_) fun e _ =>
                        herror _ _ ⟨rfl, nofun⟩ ht
                  refine Effort.wp_stage_bind ht.unsettled fun outbox => ?_
                  exact hplanned _ _ ht rfl ⟨target.slotKey, some slot, rfl, hslot,
                    (Slot.move_ok hmove).1.key, rfl⟩ rfl

theorem tries_once {lost : Nat} (hs : s.Waiting lost) (hlost : lost < call.policy.attempts)
    (hcall : call.command = .void c) :
    (c.once origin).run.wp (conduct call).asks
      (Operation.Attempted (Waiting (lost + 1))
        (Closes VoidResult.status call.policy.attempts)) s := by
  refine Effort.wp_planning_bind hs hlost (fun _ => Effort.attempted_final ⟨rfl, nofun⟩)
    fun t ht hbegun => ?_
  refine tries_plan ht hcall (fun _ _ => Effort.attempted_final) fun plan u hu hsame hbases hr => ?_
  refine (congrFun (Operation.wp_lift_bind _ _ _) u).mpr
    (Effort.wp_commit hu (hsame.trans hbegun) hbases ?_ (fun _ _ _ _ hv => hv) ?_)
  · intro v hv
    exact Effort.wp_log_bind (by simp [hv]) (Effort.closes_written hv (by rw [hr]; simp))
  · intro e v he hv
    cases e with
    | versionConflict => exact Bool.noConfusion he
    | duplicateVoid id =>
        exact Operation.attempted_error rfl (Effort.closes_refused hv nofun ⟨rfl, nofun⟩)
    | _ =>
        exact Operation.attempted_error he
          (Effort.closes_refused hv (fun text h => h ▸ rfl) ⟨he, nofun⟩)

end VoidCommand

/-! ## Reservations -/

namespace Earmark

variable {k : Earmark} {account : Uuid} {currency : Currency} {amount : Amount} {call : Call}
  {origin : Origin} {s : Effort}

theorem tries_plan {Q : Except LedgerError (ChangeSet × ReservationResult) → Effort → Prop}
    (hs : s.Trying) (hslot : ∀ find, call.command.slotBy? find = some (account, currency))
    (herror : ∀ (e : LedgerError) t, e.IsFinal → t.Trying → Q (.error e) t)
    (hplanned : ∀ c r t, t.Trying → t.lost = s.lost → t.Bases call.command c →
      r.status = k.status → Q (.ok (c, r)) t) :
    (k.plan account currency amount origin).run.wp (conduct call).asks Q s := by
  refine Effort.wp_read_bind rfl hs (hslot _) (fun e he => herror e s he hs) fun stored => ?_
  have ht := hs.learn (.loadSlot account currency) stored
  cases stored with
  | none => exact herror _ _ ⟨by cases k <;> rfl, by cases k <;> nofun⟩ ht
  | some slot =>
      refine Effort.wp_clock_bind ht.unsettled fun now =>
        Operation.wp_lawful_bind (fun q hchange => ?_) fun e _ => herror _ _ ⟨rfl, nofun⟩ ht
      refine Effort.wp_stage_bind ht.unsettled fun outbox => ?_
      exact hplanned _ _ _ ht rfl ⟨(account, currency), some slot, rfl, hslot _,
        (change_keeps hchange).1.key, rfl⟩ rfl

theorem tries_once {lost : Nat} (hs : s.Waiting lost) (hlost : lost < call.policy.attempts)
    (hslot : ∀ find, call.command.slotBy? find = some (account, currency)) :
    (k.once account currency amount origin).run.wp (conduct call).asks
      (Operation.Attempted (Waiting (lost + 1))
        (Closes ReservationResult.status call.policy.attempts)) s := by
  refine Effort.wp_planning_bind hs hlost (fun _ => Effort.attempted_final ⟨rfl, nofun⟩)
    fun t ht hbegun => ?_
  refine tries_plan ht hslot (fun _ _ => Effort.attempted_final)
    fun c r u hu hsame hbases hr => ?_
  refine Operation.wp_ask_bind
    (Effort.wp_commit hu (hsame.trans hbegun) hbases ?_ ?_ ?_)
  · intro v hv
    refine Effort.wp_log_bind (by simp [hv]) (Effort.closes_written hv ?_)
    rw [hr]
    cases k <;> simp [status]
  · exact fun _ _ _ v hv => hv
  · intro e v he hv
    exact Operation.attempted_error he
      (Effort.closes_refused hv (fun text h => h ▸ rfl) ⟨he, nofun⟩)

end Earmark

/-! ## Calls -/

namespace Call

variable {policy : RetryPolicy} {origin : Origin} {s : Effort}

theorem tries_post (c : PostCommand) (hs : s.Waiting 0) :
    (execute ⟨.post c, policy, origin⟩).run.wp (Effort.conduct ⟨.post c, policy, origin⟩).asks
      (Closes Answer.status policy.attempts) s := by
  refine Effort.wp_return PostingResult.status ?_ fun _ => rfl
  refine Operation.wp_lawful_bind (fun p hp => ?_) fun e _ =>
    Effort.closes_error hs.unsettled ⟨rfl, nofun⟩
  obtain ⟨hstatus, currency, hparse, hkey⟩ := Posting.ofCommand_ok hp
  refine Posting.tries_apply ⟨.post c, policy, origin⟩ hs (fun find => ?_) (by rw [hstatus]; simp)
  rw [hkey]
  exact Slot.named?_of_parse hparse

theorem tries_adjust (c : AdjustCommand) (hs : s.Waiting 0) :
    (execute ⟨.adjust c, policy, origin⟩).run.wp (Effort.conduct ⟨.adjust c, policy, origin⟩).asks
      (Closes Answer.status policy.attempts) s := by
  refine Effort.wp_return PostingResult.status ?_ fun _ => rfl
  refine Effort.wp_freshId_bind hs.unsettled fun transaction =>
    Operation.wp_lawful_bind (fun p hp => ?_) fun e _ =>
      Effort.closes_error hs.unsettled ⟨rfl, nofun⟩
  obtain ⟨-, hstatus, currency, hparse, hkey⟩ := AdjustCommand.toPosting_ok hp
  have hslot : ∀ find, (Command.adjust c).slotBy? find = some p.slotKey := fun find => by
    rw [hkey]
    exact Slot.named?_of_parse hparse
  rw [Operation.wp_bind]
  refine Program.wp_mono Effort.mono_asks (fun r t hr => ?_) _ s
    (Posting.tries_apply ⟨.adjust c, policy, origin⟩ hs hslot (by rw [hstatus]; simp))
  cases r with
  | ok result => exact Effort.wp_log_bind (fun e he => hr.replayed e result he rfl) hr
  | error e => exact hr

theorem tries_void (c : VoidCommand) (hs : s.Waiting 0) :
    (execute ⟨.void c, policy, origin⟩).run.wp (Effort.conduct ⟨.void c, policy, origin⟩).asks
      (Closes Answer.status policy.attempts) s := by
  refine Effort.wp_return VoidResult.status ?_ fun _ => rfl
  unfold VoidCommand.execute
  dsimp only
  split
  · exact Effort.closes_error hs.unsettled ⟨rfl, nofun⟩
  · exact Effort.wp_retrying ⟨.void c, policy, origin⟩
      (fun _ _ hlost ht => VoidCommand.tries_once ht hlost rfl) hs

theorem tries_earmark (k : Earmark) (c : ReserveCommand) (hs : s.Waiting 0) :
    (execute ⟨.earmark k c, policy, origin⟩).run.wp
      (Effort.conduct ⟨.earmark k c, policy, origin⟩).asks
      (Closes Answer.status policy.attempts) s := by
  have hslot : ∀ currency, Currency.parse c.currency = .ok currency → ∀ find,
      (Command.earmark k c).slotBy? find = some (c.account, currency) :=
    fun currency hparse find => Slot.named?_of_parse hparse
  refine Effort.wp_return ReservationResult.status ?_ fun _ => rfl
  unfold ReserveCommand.execute
  -- how the currency is read is kept out of the way of unification
  generalize Currency.parse c.currency = parsed at hslot
  refine Operation.wp_money_bind (fun amount _ => ?_) fun e _ =>
    Effort.closes_error hs.unsettled ⟨rfl, nofun⟩
  refine Operation.wp_money_bind (fun currency hcurrency => ?_) fun e _ =>
    Effort.closes_error hs.unsettled ⟨rfl, nofun⟩
  exact Effort.wp_retrying ⟨.earmark k c, policy, origin⟩
    (fun _ _ hlost ht => Earmark.tries_once ht hlost (hslot currency hcurrency)) hs

/-- Every call keeps the rules, and its answer `Closes` what it has done and heard. -/
theorem tries_execute (call : Call) :
    (Effort.conduct call).Keeps call.execute.run (Closes Answer.status call.policy.attempts) {} := by
  have hs : Waiting 0 {} := ⟨rfl, rfl, rfl⟩
  obtain ⟨command, policy, origin⟩ := call
  cases command with
  | post c => exact tries_post c hs
  | void c => exact tries_void c hs
  | adjust c => exact tries_adjust c hs
  | earmark k c => exact tries_earmark k c hs

end Call

/-! ## Conversations -/

namespace Effort

variable {call : Call} {s : Effort} {turns : List (Turn World)} {t : Turn World}

theorem begun_moved :
    (moved s t.request t.reply).begun = s.begun + if t.isAttempt then 1 else 0 := by
  obtain ⟨request, reply⟩ := t
  cases request with
  | stopping => rfl
  | plan q =>
      match reply with
      | none | some (.error _) => rfl
      | some (.ok a) => cases q <;> rfl
  | store q =>
      cases q with
      | commit c =>
          cases reply with
          | ok _ => rfl
          | error e => cases e <;> rfl
      | _ => rfl
  | _ => rfl

theorem lost_moved :
    (moved s t.request t.reply).lost = s.lost + if t.isConflict then 1 else 0 := by
  obtain ⟨request, reply⟩ := t
  cases request with
  | plan q =>
      match reply with
      | none | some (.error _) => rfl
      | some (.ok a) => cases q <;> rfl
  | store q =>
      cases q with
      | commit c =>
          cases reply with
          | ok _ => rfl
          | error e => cases e <;> rfl
      | _ => rfl
  | _ => rfl

/-- The attempts and the races that are lost are those of the conversation: `isAttempt` and
`isConflict` tell its turns apart. -/
theorem counts_after (call : Call) (turns : List (Turn World)) :
    ((conduct call).after {} turns).begun = turns.countP Turn.isAttempt ∧
      ((conduct call).after {} turns).lost = turns.countP Turn.isConflict := by
  induction turns using List.reverseRecOn with
  | nil => exact ⟨rfl, rfl⟩
  | append_singleton turns t ih =>
      rw [Conduct.after_concat, List.countP_append, List.countP_append, List.countP_singleton,
        List.countP_singleton, ← ih.1, ← ih.2]
      exact ⟨begun_moved, lost_moved⟩

/-- No more attempts are made than the policy allows. -/
theorem begun_le (h : (conduct call).Allows {} turns) :
    ((conduct call).after {} turns).begun ≤ call.policy.attempts := by
  induction turns using List.reverseRecOn with
  | nil => exact Nat.zero_le _
  | append_singleton turns t ih =>
      obtain ⟨hbefore, hmay⟩ := Conduct.allows_concat_iff.mp h
      rw [Conduct.after_concat]
      show (moved _ t.request t.reply).begun ≤ _
      rw [begun_moved]
      cases hattempt : t.isAttempt with
      | false => exact ih hbefore
      | true =>
          obtain ⟨request, reply⟩ := t
          cases request with
          | stopping =>
              obtain ⟨-, hbegun, hlost⟩ := hmay
              rw [hbegun]
              exact hlost
          | _ => simp [Turn.isAttempt] at hattempt

end Effort

end BalanceLedger
