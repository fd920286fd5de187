/-
# `Proofs.Procedure` — how a call goes about its business

A call plans, asks the store to write, and reports.  While it plans it may look things
up, draw identifiers and wait; it may ask for one thing to be written, and what is to be
written is announced by messages that bear what it has drawn for them.  If the race is
lost it goes back to planning.  Otherwise the store has decided, and nothing is left to
the call but to write to the log, and, where a key was refused, to look up who holds it;
it has only so many requests left for that, and what it answers is what the store has
decided.

These are rules of conduct.  `Progress` is what they go by, with the `Stage` that the
call has come to, and `conduct` puts `may` and `moved` together.  What is answered in
the end is up to the kind of the operation, so it is a parameter, `Manner`, and
`Manner.Closes` says that an answer is right for a stage.

The rules are kept whatever the call is told, so they hold on every store and also among
others, however late shutdown comes.  `keeps_execute` says so for all calls.  Its proof
goes along the text of each operation: the parts that operations are made of come first,
from `wp_clock_bind` to `wp_commit`, and then there are `keeps_plan` and `keeps_once`
for each kind, with `wp_retrying` over them.

That the requests which are left are counted is what makes a report end.  A rule that
only forbade a second commit would let a call ask about its key for ever.
-/
import BalanceLedger.Proofs.Calls
import BalanceLedger.Proofs.Transcript

namespace BalanceLedger

open Store (ChangeSet Memory)
open Time (Instant)

def Answer.status : Answer → PostingStatus
  | .posting r => r.status
  | .void r => r.status
  | .reservation r => r.status

/-- Does the request look up one thing? -/
def Store.Request.isLookup : Store.Request → Bool
  | .loadSlot .. | .findEntry _ | .findByKey _ | .findVoidOf _ => true
  | _ => false

namespace Call

/-! ## The rules -/

/-- How far a call has come with the store. -/
inductive Stage where
  | planning
  /-- The store has taken a change set or refused it for good, and the call has so many requests
  left. -/
  | reporting (changes : ChangeSet) (verdict : Except StoreError Unit) (left : Nat)

def Stage.spend : Stage → Stage
  | planning => planning
  | reporting changes verdict left => reporting changes verdict (left - 1)

structure Progress where
  stage : Stage := .planning
  /-- The identifiers it has drawn since it last asked for something to be written, the last one
  first. -/
  fresh : List Uuid := []

/-- The messages bear what has been `drawn` for them. -/
def Progress.Stages (s : Progress) (origin : Origin) (messages : List Outbox.Message) : Prop :=
  ∃ events ids, World.Staged origin events ids messages ∧ ids.reverse <+: s.fresh

/-- What a call may ask. -/
def may (origin : Origin) (s : Progress) : World.Request → Prop
  | .store (.commit c) => s.stage = .planning ∧ s.Stages origin c.outbox
  | .store (.findByKey _) => ∃ c text left,
      s.stage = .reporting c (.error (.duplicateKey text)) (left + 1)
  | .store _ => False
  | .plan q => s.stage = .planning ∧ q.isLookup = true
  | .log _ => s.stage = .planning ∨ ∃ c verdict left, s.stage = .reporting c verdict (left + 1)
  | .stopping | .clock | .freshId | .jitter _ | .pause _ => s.stage = .planning
  | .timer | .waitUntil _ | .publish _ => False

/-- What a call goes by after a reply. -/
def moved (s : Progress) : (request : World.Request) → World.Reply request → Progress
  | .store (.commit c), .ok () => { stage := .reporting c (.ok ()) 3 }
  | .store (.commit c), .error e =>
    if e.isVersionConflict then {} else { stage := .reporting c (.error e) 3 }
  | .store (.findByKey _), _ => { s with stage := s.stage.spend }
  | .log _, _ => { s with stage := s.stage.spend }
  | .freshId, id => { s with fresh := id :: s.fresh }
  | _, _ => s

/-- The rules for calls of an origin. -/
def conduct (origin : Origin) : Conduct World Progress where
  may := may origin
  hears := World.IsGiven
  moved := moved

/-- How an operation answers: for what has been written, for what has been refused, and if nothing
has been asked for. -/
structure Manner (β : Type) where
  written : ChangeSet → β → Prop
  refused : StoreError → Except LedgerError β → Prop
  idle : β → Prop

/-- The answer is right for how far the operation has come, and `spare` requests are left. -/
def Manner.Closes {β : Type} (M : Manner β) (spare : Nat) (r : Except LedgerError β)
    (s : Progress) : Prop :=
  match s.stage with
  | .planning => ∀ b, r = .ok b → M.idle b
  | .reporting c (.ok ()) left => spare ≤ left ∧ ∃ b, r = .ok b ∧ M.written c b
  | .reporting _ (.error e) left => spare ≤ left ∧ M.refused e r

section

variable {origin : Origin} {α β : Type} {s : Progress} {M : Manner β} {spare : Nat}
  {Q : Except LedgerError β → Progress → Prop}

abbrev IsPlanning (s : Progress) : Prop :=
  s.stage = .planning

namespace Manner

theorem closes_planning {r : Except LedgerError β} (hs : s.stage = .planning)
    (h : ∀ b, r = .ok b → M.idle b) : M.Closes spare r s := by
  unfold Closes
  rw [hs]
  exact h

theorem closes_error {e : LedgerError} (hs : s.stage = .planning) :
    M.Closes spare (.error e) s :=
  closes_planning hs fun _ h => absurd h (by simp)

theorem closes_written {c : ChangeSet} {left : Nat} {b : β}
    (hs : s.stage = .reporting c (.ok ()) left) (hspare : spare ≤ left) (h : M.written c b) :
    M.Closes spare (.ok b) s := by
  unfold Closes
  rw [hs]
  exact ⟨hspare, b, rfl, h⟩

theorem closes_refused {c : ChangeSet} {e : StoreError} {left : Nat} {r : Except LedgerError β}
    (hs : s.stage = .reporting c (.error e) left) (hspare : spare ≤ left) (h : M.refused e r) :
    M.Closes spare r s := by
  unfold Closes
  rw [hs]
  exact ⟨hspare, h⟩

end Manner

/-! ## Parts of operations -/

theorem mono_asks : Program.MonoAsks (conduct origin).asks :=
  Conduct.mono_asks

theorem attempted_planning {e : LedgerError} (hs : s.stage = .planning) (h : Q (.error e) s) :
    Operation.Attempted IsPlanning Q (.error e) s := by
  show if e.isVersionConflict then IsPlanning s else Q (.error e) s
  split
  · exact hs
  · exact h

theorem wp_clock_bind {f : Instant → Operation β} (hs : s.stage = .planning)
    (h : ∀ now, (f now).run.wp (conduct origin).asks Q s) :
    ((liftM World.clock : Operation Instant) >>= f).run.wp (conduct origin).asks Q s := by
  rw [Operation.wp_lift_bind]
  exact ⟨hs, fun now _ => h now⟩

theorem wp_freshId_bind {f : Uuid → Operation β} (hs : s.stage = .planning)
    (h : ∀ id t, t.stage = .planning → (f id).run.wp (conduct origin).asks Q t) :
    ((liftM World.freshId : Operation Uuid) >>= f).run.wp (conduct origin).asks Q s := by
  rw [Operation.wp_lift_bind]
  exact ⟨hs, fun id _ => h id _ hs⟩

theorem asks_log_planning {line : Log.Line} {k : Unit → Progress → Prop}
    (hs : s.stage = .planning) (h : ∀ t, t.stage = .planning → k () t) :
    (conduct origin).asks (.log line) k s := by
  refine ⟨.inl hs, fun _ _ => h _ ?_⟩
  show s.stage.spend = .planning
  rw [hs]
  rfl

theorem asks_log_reporting {line : Log.Line} {k : Unit → Progress → Prop} {c : ChangeSet}
    {verdict : Except StoreError Unit} {left : Nat}
    (hs : s.stage = .reporting c verdict (left + 1))
    (h : ∀ t, t.stage = .reporting c verdict left → k () t) :
    (conduct origin).asks (.log line) k s := by
  refine ⟨.inr ⟨c, verdict, left, hs⟩, fun _ _ => h _ ?_⟩
  show s.stage.spend = .reporting c verdict left
  rw [hs]
  rfl

theorem wp_log_bind {level : Log.Level} {text : String} {fields : List (String × Json)}
    {f : Unit → Operation β} {c : ChangeSet} {verdict : Except StoreError Unit} {left : Nat}
    (hs : s.stage = .reporting c verdict (left + 1))
    (h : ∀ t, t.stage = .reporting c verdict left → (f ()).run.wp (conduct origin).asks Q t) :
    ((liftM (World.log level text fields) : Operation Unit) >>= f).run.wp
      (conduct origin).asks Q s := by
  rw [Operation.wp_lift_bind]
  exact asks_log_reporting hs h

theorem wp_planning_bind {plan : Operation α} {f : α → Operation β} (hs : s.stage = .planning)
    (hcancelled : Q (.error .cancelled) s)
    (h : plan.run.wp (conduct origin).asks (Operation.Then (conduct origin).asks f Q) s) :
    (Operation.planning plan >>= f).run.wp (conduct origin).asks Q s := by
  rw [Operation.wp_bind]
  refine ⟨hs, fun stop _ => ?_⟩
  cases stop with
  | false => exact h
  | true => exact hcancelled

theorem exists_ok_of_isLookup {q : Store.Request} (hq : q.isLookup = true) (m : Memory)
    (now : Instant) : ∃ a, (m.answer now q).1 = .ok a := by
  cases q with
  | loadSlot | findEntry | findByKey | findVoidOf => exact ⟨_, rfl⟩
  | _ => exact absurd hq (by simp [Store.Request.isLookup])

theorem wp_read_bind {q : Store.Request} {f : q.Answer → Operation β} (hq : q.isLookup = true)
    (hs : s.stage = .planning) (hcancelled : Q (.error .cancelled) s)
    (h : ∀ a, (f a).run.wp (conduct origin).asks Q s) :
    (Operation.read q >>= f).run.wp (conduct origin).asks Q s := by
  refine ⟨⟨hs, hq⟩, fun reply hgiven => ?_⟩
  cases reply with
  | none => exact hcancelled
  | some r =>
      obtain ⟨m, now, rfl⟩ := hgiven
      obtain ⟨a, ha⟩ := exists_ok_of_isLookup hq m now
      rw [ha]
      exact h a

theorem wp_stage {Q : List Outbox.Message → Progress → Prop} {events : List Event} :
    ∀ {s : Progress}, s.stage = .planning →
      (∀ ids messages, World.Staged origin events ids messages →
        Q messages { s with fresh := ids.reverse ++ s.fresh }) →
      (World.stage origin events).wp (conduct origin).asks Q s := by
  induction events generalizing Q with
  | nil =>
      intro s _ h
      exact h [] [] .nil
  | cons event events ih =>
      intro s hs h
      refine ⟨hs, fun id _ => ⟨hs, fun now _ => ?_⟩⟩
      refine (congrFun (Program.wp_map _ _ Q) _).mpr
        (ih (by exact hs) fun ids messages hstaged => ?_)
      have hall := h (id :: ids) _ (.cons event id now hstaged)
      rwa [List.reverse_cons, List.append_assoc] at hall

theorem wp_stage_bind {events : List Event} {f : List Outbox.Message → Operation β}
    (hs : s.stage = .planning)
    (h : ∀ t messages, t.stage = .planning → t.Stages origin messages →
      (f messages).run.wp (conduct origin).asks Q t) :
    ((liftM (World.stage origin events) : Operation _) >>= f).run.wp (conduct origin).asks Q s := by
  rw [Operation.wp_lift_bind]
  exact wp_stage hs fun ids messages hstaged =>
    h _ messages hs ⟨events, ids, hstaged, List.prefix_append ..⟩

theorem wp_commit {c : ChangeSet} {Q : Except StoreError Unit → Progress → Prop}
    (hs : s.stage = .planning) (hstages : s.Stages origin c.outbox)
    (htaken : Q (.ok ()) { stage := .reporting c (.ok ()) 3 })
    (hlost : ∀ e t, e.isVersionConflict = true → t.stage = .planning → Q (.error e) t)
    (hkey : ∀ e key, c.entry = some e → e.key = some key → Q (.error (.duplicateKey key.text))
      { stage := .reporting c (.error (.duplicateKey key.text)) 3 })
    (hvoid : ∀ e target, c.entry = some e → e.target = some target →
      Q (.error (.duplicateVoid target))
        { stage := .reporting c (.error (.duplicateVoid target)) 3 }) :
    (World.store (.commit c)).wp (conduct origin).asks Q s := by
  refine ⟨⟨hs, hstages⟩, fun reply hgiven => ?_⟩
  obtain ⟨m, now, rfl⟩ := hgiven
  cases hfault : m.fault? c with
  | none =>
      rw [Memory.answer_commit_accepted hfault]
      exact htaken
  | some f =>
      rw [Memory.answer_commit_refused hfault]
      rcases Memory.fault?_eq_some hfault with rfl | ⟨e, key, he, hk, -, rfl⟩ |
        ⟨e, target, he, ht, -, rfl⟩
      · exact hlost _ _ rfl rfl
      · exact hkey e key he hk
      · exact hvoid e target he ht

theorem wp_retrying {policy : RetryPolicy} {name : String} {once : Operation β}
    (honce : ∀ t, t.stage = .planning →
      once.run.wp (conduct origin).asks (Operation.Attempted IsPlanning Q) t)
    (hexhausted : ∀ n t, t.stage = .planning → Q (.error (.exhausted n)) t)
    (hs : s.stage = .planning) :
    (Operation.retrying policy name once).run.wp (conduct origin).asks Q s := by
  have hlog : ∀ line t, IsPlanning t → (conduct origin).asks (.log line) (fun _ => IsPlanning) t :=
    fun line t ht => asks_log_planning ht fun _ h => h
  refine Operation.wp_retrying mono_asks (fun attempt t ht => ?_) hlog honce hexhausted hs
  -- a pause draws its random part, says how long it is, and waits
  refine ⟨ht, fun extra _ => ?_⟩
  exact mono_asks _ _ _ t (fun _ u hu => ⟨hu, fun _ _ => hu⟩) (hlog _ t ht)

theorem Manner.Closes.map {α : Type} {N : Manner α} {f : α → β} {r : Except LedgerError α}
    (h : N.Closes spare r s) (hwritten : ∀ c a, N.written c a → M.written c (f a))
    (hrefused : ∀ e r, N.refused e r → M.refused e (r.map f))
    (hidle : ∀ a, N.idle a → M.idle (f a)) : M.Closes spare (r.map f) s := by
  unfold Manner.Closes at h ⊢
  split at h
  · intro b hb
    cases r with
    | error e => exact absurd hb (by simp [Except.map])
    | ok a =>
        obtain rfl := Except.ok.inj hb
        exact hidle a (h a rfl)
  · rename_i c left _
    obtain ⟨hspare, a, rfl, ha⟩ := h
    exact ⟨hspare, f a, rfl, hwritten c a ha⟩
  · exact ⟨h.1, hrefused _ _ h.2⟩

theorem Manner.Closes.of_le {r : Except LedgerError β} {less : Nat} (h : M.Closes spare r s)
    (hle : less ≤ spare) : M.Closes less r s := by
  unfold Manner.Closes at h ⊢
  split at h
  · exact h
  · exact ⟨hle.trans h.1, h.2⟩
  · exact ⟨hle.trans h.1, h.2⟩

theorem Manner.Closes.asks_log {r : Except LedgerError β} (h : M.Closes (spare + 1) r s)
    (line : Log.Line) : (conduct origin).asks (.log line) (fun _ => M.Closes spare r) s := by
  unfold Manner.Closes at h
  split at h
  · rename_i hs
    exact asks_log_planning hs fun t ht => closes_planning ht h
  · rename_i c left hs
    obtain ⟨hspare, b, rfl, hb⟩ := h
    obtain ⟨left, rfl⟩ := Nat.exists_eq_add_of_lt hspare
    exact asks_log_reporting hs fun t ht => closes_written ht (Nat.le_add_right ..) hb
  · rename_i c e left hs
    obtain ⟨left, rfl⟩ := Nat.exists_eq_add_of_lt h.1
    exact asks_log_reporting hs fun t ht => closes_refused ht (Nat.le_add_right ..) h.2

theorem wp_return {o : Operation α} {f : α → β} {P : Except LedgerError α → Progress → Prop}
    {R : Except LedgerError β → Progress → Prop} (h : o.run.wp (conduct origin).asks P s)
    (hf : ∀ r t, P r t → R (r.map f) t) :
    (o >>= fun a => return f a).run.wp (conduct origin).asks R s := by
  rw [Operation.wp_bind]
  refine Program.wp_mono mono_asks (fun r t hr => ?_) _ s h
  have hmap := hf r t hr
  cases r with
  | ok a => exact hmap
  | error e => exact hmap

end

end Call

open Call (conduct Manner Progress)

/-! ## Postings -/

namespace Posting

variable {p : Posting} {origin : Origin} {s : Progress}

/-- How a posting answers.  If its key is refused, somebody else has used it meanwhile, and the
answer is `replayed`. -/
def manner (p : Posting) : Manner PostingResult where
  written c r := ∃ e, c.entry = some e ∧ r = p.written e
  refused e r := ∃ key, p.draft.key = some key ∧ e = .duplicateKey key.text ∧
    ((∃ winner, r = .ok (replayed winner)) ∨ r = .error (.orphanKey key.text))
  idle r := ∃ winner, r = replayed winner

theorem keeps_replay {winner : Entry} {Q : PostingResult → Progress → Prop}
    (h : Q (replayed winner) s)
    (hlog : ∀ line, (conduct origin).asks (.log line) (fun _ => Q (replayed winner)) s) :
    (p.replay winner).wp (conduct origin).asks Q s := by
  unfold replay
  cases p.agrees winner with
  | true => exact h
  | false => exact hlog _

theorem keeps_earlier_bind {β : Type} {f : Option Entry → Operation β}
    {Q : Except LedgerError β → Progress → Prop} (hs : s.stage = .planning)
    (hcancelled : Q (.error .cancelled) s)
    (hfree : (f none).run.wp (conduct origin).asks Q s)
    (hheld : ∀ winner, (f (some winner)).run.wp (conduct origin).asks Q s) :
    (p.earlier >>= f).run.wp (conduct origin).asks Q s := by
  unfold earlier
  cases p.draft.key with
  | none => exact hfree
  | some key =>
      refine Call.wp_read_bind rfl hs hcancelled fun found => ?_
      cases found with
      | none => exact hfree
      | some winner => exact hheld winner

theorem keeps_plan {Q : Except LedgerError PostingPlan → Progress → Prop}
    (hs : s.stage = .planning) (herror : ∀ e t, t.stage = .planning → Q (.error e) t)
    (hheld : ∀ winner t, t.stage = .planning → Q (.ok (.replay winner)) t)
    (hplanned : ∀ c e t, t.stage = .planning → t.Stages origin c.outbox → c.entry = some e →
      e.key = p.draft.key → e.target = none → Q (.ok (.commit c (p.written e))) t) :
    (p.plan origin).run.wp (conduct origin).asks Q s := by
  refine keeps_earlier_bind hs (herror _ s hs) ?_ fun winner => hheld winner s hs
  refine Call.wp_read_bind rfl hs (herror _ s hs) fun stored => ?_
  refine Call.wp_clock_bind hs fun now => Operation.wp_lawful_bind (fun q _ => ?_)
    fun e _ => herror _ s hs
  refine Call.wp_freshId_bind hs fun id t ht => Call.wp_clock_bind ht fun later =>
    Operation.wp_lawful_bind (fun e hpost => ?_) fun e _ => herror _ t ht
  refine Call.wp_stage_bind ht fun u outbox hu hstages => ?_
  obtain rfl : e.id = id := by rw [Entry.post_ok hpost]
  exact hplanned _ e u hu hstages rfl (by rw [Entry.post_ok hpost]) (by rw [Entry.post_ok hpost])

theorem keeps_once (hs : s.stage = .planning) :
    (p.once origin).run.wp (conduct origin).asks
      (Operation.Attempted Call.IsPlanning (p.manner.Closes 1)) s := by
  have herror : ∀ e t, t.stage = .planning →
      Operation.Attempted Call.IsPlanning (p.manner.Closes 1) (.error e) t :=
    fun e t ht => Call.attempted_planning ht (Manner.closes_error ht)
  have hreplay : ∀ winner t, t.stage = .planning →
      p.manner.Closes 1 (.ok (replayed winner)) t := fun winner t ht =>
    Manner.closes_planning ht fun b hb => ⟨winner, (Except.ok.inj hb).symm⟩
  refine Call.wp_planning_bind hs (herror _ s hs) (keeps_plan hs herror ?_ ?_)
  · intro winner t ht
    exact (congrFun (Operation.wp_lift _ _) t).mpr (keeps_replay (hreplay winner t ht)
      fun line => Call.asks_log_planning ht (hreplay winner))
  · intro c e t ht hstages hentry hkey htarget
    refine (congrFun (Operation.wp_lift_bind _ _ _) t).mpr (Call.wp_commit ht hstages ?_ ?_ ?_ ?_)
    · exact Call.wp_log_bind rfl fun u hu => Manner.closes_written hu (by decide) ⟨e, hentry, rfl⟩
    · intro f u hf hu
      cases f with
      | versionConflict => exact hu
      | _ => simp [StoreError.isVersionConflict] at hf
    · -- whoever has used the key is looked up
      intro e' key he' hkey'
      obtain rfl := Option.some.inj (hentry.symm.trans he')
      have hheld := hkey.symm.trans hkey'
      dsimp only
      rw [key.parse_text]
      refine ⟨⟨c, key.text, 2, rfl⟩, fun reply hgiven => ?_⟩
      obtain ⟨m, now, rfl⟩ := hgiven
      cases hfound : m.entryByKey? key with
      | none =>
          simp only [Memory.answer, hfound]
          exact Operation.attempted_error rfl
            (Manner.closes_refused rfl (by decide) ⟨key, hheld, rfl, .inr rfl⟩)
      | some winner =>
          simp only [Memory.answer, hfound]
          have hclosed : ∀ left u,
              u.stage = .reporting c (.error (.duplicateKey key.text)) (left + 1) →
              Operation.Attempted Call.IsPlanning (p.manner.Closes 1) (.ok (replayed winner)) u :=
            fun left u hu =>
              Manner.closes_refused hu (by omega) ⟨key, hheld, rfl, .inl ⟨winner, rfl⟩⟩
          exact (congrFun (Operation.wp_lift _ _) _).mpr (keeps_replay (hclosed 1 _ rfl)
            fun line => Call.asks_log_reporting rfl (hclosed 0))
    · intro e' target he' htarget'
      obtain rfl := Option.some.inj (hentry.symm.trans he')
      exact absurd (htarget'.symm.trans htarget) (by simp)

theorem keeps_apply {policy : RetryPolicy} (hs : s.stage = .planning) :
    (p.apply policy origin).run.wp (conduct origin).asks (p.manner.Closes 1) s :=
  Call.wp_retrying (fun _ => keeps_once) (fun _ _ => Manner.closes_error) hs

end Posting

/-! ## Voids -/

namespace VoidCommand

variable {c : VoidCommand} {origin : Origin} {s : Progress}

def manner : Manner VoidResult where
  written c r := ∃ e target, c.entry = some e ∧ e.target = some target.id ∧ r = written target e
  refused e r := ∃ id, e = .duplicateVoid id ∧ r = .error (.domain (.alreadyVoided id))
  idle _ := False

theorem keeps_plan {Q : Except LedgerError VoidPlan → Progress → Prop}
    (hs : s.stage = .planning) (herror : ∀ e t, t.stage = .planning → Q (.error e) t)
    (hplanned : ∀ target changes e t, t.stage = .planning → t.Stages origin changes.outbox →
      changes.entry = some e → e.key = none → e.target = some target.id →
      Q (.ok { target, changes, result := written target e }) t) :
    (c.plan origin).run.wp (conduct origin).asks Q s := by
  refine Call.wp_read_bind rfl hs (herror _ s hs) fun found => ?_
  cases found with
  | none => exact herror _ s hs
  | some target =>
      dsimp only
      cases hvoid : target.isVoid with
      | true => exact herror _ s hs
      | false =>
          refine Call.wp_read_bind rfl hs (herror _ s hs) fun voided => ?_
          cases voided with
          | some _ => exact herror _ s hs
          | none =>
              refine Call.wp_read_bind rfl hs (herror _ s hs) fun stored => ?_
              cases stored with
              | none => exact herror _ s hs
              | some slot =>
                  refine Operation.wp_money_bind (fun amount _ => ?_) fun e _ => herror _ s hs
                  refine Call.wp_clock_bind hs fun now => Operation.wp_lawful_bind (fun q _ => ?_)
                    fun e _ => herror _ s hs
                  refine Call.wp_freshId_bind hs fun id t ht => Call.wp_clock_bind ht fun later =>
                    Operation.wp_lawful_bind (fun q hentry => ?_) fun e _ => herror _ t ht
                  obtain ⟨e, u⟩ := q
                  refine Call.wp_stage_bind ht fun v outbox hv hstages => ?_
                  have he := (Entry.void_ok hentry).1
                  obtain rfl : e.id = id := by rw [he]
                  exact hplanned target _ e v hv hstages rfl (by rw [he]) (by rw [he])

theorem keeps_once (hs : s.stage = .planning) :
    (c.once origin).run.wp (conduct origin).asks
      (Operation.Attempted Call.IsPlanning (manner.Closes 0)) s := by
  have herror : ∀ e t, t.stage = .planning →
      Operation.Attempted Call.IsPlanning (manner.Closes 0) (.error e) t :=
    fun e t ht => Call.attempted_planning ht (Manner.closes_error ht)
  refine Call.wp_planning_bind hs (herror _ s hs) (keeps_plan hs herror ?_)
  intro target changes e t ht hstages hentry hkey htarget
  refine (congrFun (Operation.wp_lift_bind _ _ _) t).mpr (Call.wp_commit ht hstages ?_ ?_ ?_ ?_)
  · exact Call.wp_log_bind rfl fun u hu =>
      Manner.closes_written hu (by decide) ⟨e, target, hentry, htarget, rfl⟩
  · intro f u hf hu
    cases f with
    | versionConflict => exact hu
    | _ => simp [StoreError.isVersionConflict] at hf
  · intro e' key he' hkey'
    obtain rfl := Option.some.inj (hentry.symm.trans he')
    exact absurd (hkey'.symm.trans hkey) (by simp)
  · intro e' target' _ _
    exact Operation.attempted_error rfl (Manner.closes_refused rfl (by decide) ⟨target', rfl, rfl⟩)

end VoidCommand

/-! ## Reservations -/

namespace Earmark

variable {k : Earmark} {account : Uuid} {currency : Currency} {amount : Amount} {origin : Origin}
  {s : Progress}

def manner (k : Earmark) : Manner ReservationResult where
  written c r := c.entry = none ∧ r = k.result c.slot
  refused _ _ := False
  idle _ := False

theorem keeps_plan {Q : Except LedgerError (ChangeSet × ReservationResult) → Progress → Prop}
    (hs : s.stage = .planning) (herror : ∀ e t, t.stage = .planning → Q (.error e) t)
    (hplanned : ∀ c t, t.stage = .planning → t.Stages origin c.outbox → c.entry = none →
      Q (.ok (c, k.result c.slot)) t) :
    (k.plan account currency amount origin).run.wp (conduct origin).asks Q s := by
  refine Call.wp_read_bind rfl hs (herror _ s hs) fun stored => ?_
  cases stored with
  | none => exact herror _ s hs
  | some slot =>
      refine Call.wp_clock_bind hs fun now => Operation.wp_lawful_bind (fun q _ => ?_)
        fun e _ => herror _ s hs
      refine Call.wp_stage_bind hs fun t outbox ht hstages => ?_
      exact hplanned { slot := q.1, expected := slot.version, entry := none, outbox } t ht hstages
        rfl

theorem keeps_once (hs : s.stage = .planning) :
    (k.once account currency amount origin).run.wp (conduct origin).asks
      (Operation.Attempted Call.IsPlanning (k.manner.Closes 0)) s := by
  have herror : ∀ e t, t.stage = .planning →
      Operation.Attempted Call.IsPlanning (k.manner.Closes 0) (.error e) t :=
    fun e t ht => Call.attempted_planning ht (Manner.closes_error ht)
  refine Call.wp_planning_bind hs (herror _ s hs) (keeps_plan hs herror ?_)
  intro c t ht hstages hentry
  refine Operation.wp_ask_bind (Call.wp_commit ht hstages ?_ ?_ ?_ ?_)
  · exact Call.wp_log_bind rfl fun u hu => Manner.closes_written hu (by decide) ⟨hentry, rfl⟩
  · intro f u hf hu
    cases f with
    | versionConflict => exact hu
    | _ => simp [StoreError.isVersionConflict] at hf
  · exact fun e _ he => absurd (hentry.symm.trans he) (by simp)
  · exact fun e _ he => absurd (hentry.symm.trans he) (by simp)

end Earmark

/-! ## Calls -/

/-- What a command answers when its change set is refused. -/
inductive Command.Relays : Command → StoreError → Except LedgerError Answer → Prop
  /-- The entry that has used the key meanwhile. -/
  | replayed (c : PostCommand) (key : IdempotencyKey) (winner : Entry) :
      Relays (.post c) (.duplicateKey key.text) (.ok (.posting (Posting.replayed winner)))
  | orphan (c : PostCommand) (key : IdempotencyKey) :
      Relays (.post c) (.duplicateKey key.text) (.error (.orphanKey key.text))
  | voided (c : VoidCommand) (id : Uuid) :
      Relays (.void c) (.duplicateVoid id) (.error (.domain (.alreadyVoided id)))

namespace Call

/-- How a call answers, by the `Manner` of its operation. -/
def manner (call : Call) : Manner Answer where
  written c a := call.report c = some a
  refused := call.command.Relays
  idle a := a.status = .alreadyProcessed

section

variable {policy : RetryPolicy} {origin : Origin} {s : Progress}

theorem keeps_post (c : PostCommand) (hs : s.stage = .planning) :
    (execute ⟨.post c, policy, origin⟩).run.wp (conduct origin).asks
      ((manner ⟨.post c, policy, origin⟩).Closes 0) s := by
  show Program.wp _ (c.execute policy origin >>= fun r => return Answer.posting r).run _ s
  rw [Operation.wp_bind]
  refine Operation.wp_lawful_bind (fun p hp => ?_) fun e _ => Manner.closes_error hs
  rw [← Operation.wp_bind]
  refine wp_return (Posting.keeps_apply hs) fun r t h => (h.of_le (Nat.zero_le 1)).map ?_ ?_ ?_
  · rintro c' _ ⟨e, he, rfl⟩
    simp only [manner, report, he, Posting.written, (Posting.ofCommand_ok hp).1]
  · rintro _ _ ⟨key, -, rfl, ⟨winner, rfl⟩ | rfl⟩
    · exact .replayed c key winner
    · exact .orphan c key
  · rintro _ ⟨winner, rfl⟩
    rfl

theorem keeps_adjust (c : AdjustCommand) (hs : s.stage = .planning) :
    (execute ⟨.adjust c, policy, origin⟩).run.wp (conduct origin).asks
      ((manner ⟨.adjust c, policy, origin⟩).Closes 0) s := by
  -- an adjustment has no key, so its change set is not refused
  have hadjusted : ∀ transaction p, c.toPosting transaction = .ok p → ∀ spare r t,
      p.manner.Closes spare r t →
      (manner ⟨.adjust c, policy, origin⟩).Closes spare (r.map Answer.posting) t := by
    intro transaction p hp spare r t h
    obtain ⟨hkey, hstatus, -⟩ := AdjustCommand.toPosting_ok hp
    refine h.map ?_ ?_ ?_
    · rintro c' _ ⟨e, he, rfl⟩
      simp only [manner, report, he, Posting.written, hstatus]
    · rintro _ _ ⟨key, hheld, -⟩
      exact absurd (hkey.symm.trans hheld) (by simp)
    · rintro _ ⟨winner, rfl⟩
      rfl
  show Program.wp _ (c.execute policy origin >>= fun r => return Answer.posting r).run _ s
  rw [Operation.wp_bind]
  refine wp_freshId_bind hs fun transaction t ht => Operation.wp_lawful_bind (fun p hp => ?_)
    fun e _ => Manner.closes_error ht
  rw [Operation.wp_bind]
  refine Program.wp_mono mono_asks (fun r u hr => ?_) _ t (Posting.keeps_apply ht)
  have hclosed := hadjusted transaction p hp 1 r u hr
  cases r with
  | ok result => exact hclosed.asks_log _
  | error e => exact hclosed.of_le (Nat.zero_le 1)

theorem keeps_void (c : VoidCommand) (hs : s.stage = .planning) :
    (execute ⟨.void c, policy, origin⟩).run.wp (conduct origin).asks
      ((manner ⟨.void c, policy, origin⟩).Closes 0) s := by
  have hexecute : (c.execute policy origin).run.wp (conduct origin).asks
      (VoidCommand.manner.Closes 0) s := by
    unfold VoidCommand.execute
    dsimp only
    split
    · exact Manner.closes_error hs
    · exact wp_retrying (fun _ => VoidCommand.keeps_once) (fun _ _ => Manner.closes_error) hs
  refine wp_return hexecute fun r t h => h.map ?_ ?_ ?_
  · rintro c' _ ⟨e, target, he, htarget, rfl⟩
    simp only [manner, report, he, htarget, VoidCommand.written, Option.map_some]
  · rintro _ _ ⟨id, rfl, rfl⟩
    exact .voided c id
  · exact fun _ h => h.elim

theorem keeps_earmark (k : Earmark) (c : ReserveCommand) (hs : s.stage = .planning) :
    (execute ⟨.earmark k c, policy, origin⟩).run.wp (conduct origin).asks
      ((manner ⟨.earmark k c, policy, origin⟩).Closes 0) s := by
  have hexecute : (c.execute k policy origin).run.wp (conduct origin).asks
      (k.manner.Closes 0) s := by
    unfold ReserveCommand.execute
    -- how the currency is read is kept out of the way of unification
    generalize Currency.parse c.currency = parsed
    refine Operation.wp_money_bind (fun amount _ => ?_) fun e _ => Manner.closes_error hs
    refine Operation.wp_money_bind (fun currency _ => ?_) fun e _ => Manner.closes_error hs
    exact wp_retrying (fun _ => Earmark.keeps_once) (fun _ _ => Manner.closes_error) hs
  refine wp_return hexecute fun r t h => h.map ?_ ?_ ?_
  · rintro c' _ ⟨he, rfl⟩
    simp only [manner, report, he]
  · exact fun _ _ h => h.elim
  · exact fun _ h => h.elim

end

/-- Every call keeps the rules of its `conduct`. -/
theorem keeps_execute (call : Call) :
    (conduct call.origin).Keeps call.execute.run (call.manner.Closes 0) {} := by
  obtain ⟨command, policy, origin⟩ := call
  cases command with
  | post c => exact keeps_post c rfl
  | void c => exact keeps_void c rfl
  | adjust c => exact keeps_adjust c rfl
  | earmark k c => exact keeps_earmark k c rfl

end Call

end BalanceLedger
