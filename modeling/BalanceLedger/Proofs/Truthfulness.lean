/-
# `Proofs.Truthfulness` — an answer says what has been done

A caller goes by the answer.  So a call that reports an effect must have committed it,
once, and a call that reports a failure, or that somebody else was faster, must have
committed nothing; otherwise the caller would post twice, or not at all.  Shutdown makes
this delicate: it can come at any moment, and it is answered with an error.

What settles it is that shutdown is heeded in planning only.  A change set that the
store is asked to write is carried through, and from there on the rules leave a call
nothing but to report the verdict, in a few requests that shutdown cannot hold up;
`Carried` says what that comes to.  A call that finds shutdown when it starts gets no
further than to check its command, and `GivenUp` says so.  It has rules of its own,
`stopped`.

`answers_truthful` is about every store and every list of steps.  It needs no invariant
of the store, since the rules of a call are kept on any: `progress` is how far the
dialogue of a call has brought it, `commits_eq` says that what is written there is what
stands in the journal, and `closes_answer` that the answer fits.  What is left is to see
that a call which reports comes to its end, whoever else goes on, by counting its
requests down (`answers_of_reporting`).
-/
import BalanceLedger.Proofs.Procedure

namespace BalanceLedger

open Store (ChangeSet Memory)

namespace Call

variable {origin : Origin} {s : Progress} {turns : List (Turn World)} {t : Turn World}

/-! ## What has been written -/

def Stage.written : Stage → List ChangeSet
  | .reporting c (.ok ()) _ => [c]
  | _ => []

theorem Stage.written_spend (stage : Stage) : stage.spend.written = stage.written := by
  match stage with
  | .planning => rfl
  | .reporting _ (.ok ()) _ => rfl
  | .reporting _ (.error _) _ => rfl

theorem written_moved (h : may origin s t.request) :
    (moved s t.request t.reply).stage.written = s.stage.written ++ t.made?.toList := by
  obtain ⟨request, reply⟩ := t
  cases request with
  | store q =>
      cases q with
      | commit c =>
          obtain ⟨hs, -⟩ := h
          rw [hs]
          match reply with
          | .ok () => rfl
          | .error e =>
              show Stage.written (Progress.stage (if e.isVersionConflict then {} else
                { stage := .reporting c (.error e) 3 })) = []
              split <;> rfl
      | findByKey key => exact (Stage.written_spend _).trans (List.append_nil _).symm
      | _ => exact h.elim
  | log line => exact (Stage.written_spend _).trans (List.append_nil _).symm
  | _ => exact (List.append_nil _).symm

theorem written_after (h : (conduct origin).Allows s turns) :
    ((conduct origin).after s turns).stage.written =
      s.stage.written ++ turns.filterMap Turn.made? := by
  induction turns using List.reverseRecOn with
  | nil => simp
  | append_singleton turns t ih =>
      obtain ⟨hbefore, hmay⟩ := Conduct.allows_concat_iff.mp h
      have hmoved := written_moved hmay
      rw [Conduct.after_concat, List.filterMap_append]
      refine hmoved.trans ?_
      rw [ih hbefore, List.append_assoc]
      cases hmade : t.made? <;> simp [hmade]

/-! ## Reporting -/

variable {c : ChangeSet} {verdict : Except StoreError Unit} {left : Nat}

theorem reporting_moved (h : may origin s t.request) (hs : s.stage = .reporting c verdict left) :
    ∃ left', left = left' + 1 ∧
      (moved s t.request t.reply).stage = .reporting c verdict left' := by
  obtain ⟨request, reply⟩ := t
  have hspend : ∀ c' verdict' left', s.stage = .reporting c' verdict' (left' + 1) →
      ∃ left', left = left' + 1 ∧ s.stage.spend = .reporting c verdict left' := by
    intro c' verdict' left' h
    obtain ⟨rfl, rfl, rfl⟩ := Stage.reporting.inj (hs.symm.trans h)
    exact ⟨left', rfl, by rw [h]; rfl⟩
  have hplanning : s.stage ≠ .planning := fun h => by rw [hs] at h; cases h
  cases request with
  | store q =>
      cases q with
      | commit c => exact absurd h.1 hplanning
      | findByKey key =>
          obtain ⟨c', text, left', h⟩ := h
          exact hspend _ _ _ h
      | _ => exact h.elim
  | plan q => exact absurd h.1 hplanning
  | log line =>
      rcases h with h | ⟨c', verdict', left', h⟩
      · exact absurd h hplanning
      · exact hspend _ _ _ h
  | stopping | clock | freshId | jitter | pause => exact absurd h hplanning
  | timer | waitUntil | publish => exact h.elim

theorem reporting_after (h : (conduct origin).Allows s turns)
    (hs : s.stage = .reporting c verdict left) :
    ∃ left', left = left' + turns.length ∧
      ((conduct origin).after s turns).stage = .reporting c verdict left' := by
  induction turns using List.reverseRecOn with
  | nil => exact ⟨left, rfl, hs⟩
  | append_singleton turns t ih =>
      obtain ⟨hbefore, hmay⟩ := Conduct.allows_concat_iff.mp h
      obtain ⟨left', rfl, hafter⟩ := ih hbefore
      obtain ⟨left'', rfl, hmoved⟩ := reporting_moved hmay hafter
      refine ⟨left'', ?_, ?_⟩
      · rw [List.length_append, List.length_singleton]
        omega
      · rw [Conduct.after_concat]
        exact hmoved

theorem ne_freshId_of_reporting {request : World.Request} (h : may origin s request)
    (hs : s.stage = .reporting c verdict left) : request ≠ .freshId := by
  rintro rfl
  exact absurd (hs.symm.trans h) (by simp)

/-! ## Answers -/

theorem report_status {call : Call} {a : Answer} (h : call.report c = some a) :
    a.status ≠ .alreadyProcessed := by
  obtain ⟨command, policy, origin⟩ := call
  cases command with
  | post | adjust =>
      cases he : c.entry with
      | none => exact absurd h (by simp [report, he])
      | some e =>
          simp only [report, he] at h
          obtain rfl := Option.some.inj h
          simp [Answer.status]
  | void =>
      cases he : c.entry with
      | none => exact absurd h (by simp [report, he])
      | some e =>
          simp only [report, he] at h
          obtain ⟨target, -, rfl⟩ := Option.map_eq_some_iff.mp h
          simp [Answer.status]
  | earmark k =>
      cases he : c.entry with
      | some e => exact absurd h (by simp [report, he])
      | none =>
          simp only [report, he] at h
          obtain rfl := Option.some.inj h
          cases k <;> simp [Answer.status, Earmark.result, Earmark.status]

theorem Relays.status {command : Command} {e : StoreError} {a : Answer}
    (h : command.Relays e (.ok a)) : a.status = .alreadyProcessed := by
  cases h
  rfl

end Call

/-! ## Stopped calls -/

theorem AdjustCommand.check_toPosting (c : AdjustCommand) (t t' : Uuid) :
    ((c.toPosting t).map fun _ => ()) = (c.toPosting t').map fun _ => () := by
  unfold toPosting
  -- only what decides is looked at
  generalize Currency.parse c.currency = currency
  generalize Text.isBlankText c.reason = blank
  by_cases hzero : c.amount = 0
  · simp only [hzero, if_true]
    rfl
  simp only [hzero, if_false]
  cases blank with
  | true => rfl
  | false =>
      cases Word.checkedAbs c.amount with
      | none => rfl
      | some size =>
          dsimp only
          generalize Amount.ofInt64 size = amount
          cases currency with
          | error e => rfl
          | ok currency => cases amount <;> rfl

/-- What can be said of a command without asking anybody. -/
def Command.check : Command → Except DomainError Unit
  | .post c => (Posting.ofCommand c).map fun _ => ()
  | .void c => if Text.isBlankText c.reason then .error (.required "void reason") else .ok ()
  | .adjust c => (c.toPosting .nil).map fun _ => ()
  | .earmark _ c =>
    match Amount.ofInt64 c.amount, Currency.parse c.currency with
    | .error e, _ => .error (.ofMoney e)
    | .ok _, .error e => .error (.ofMoney e)
    | .ok _, .ok _ => .ok ()

def Command.givenUp (c : Command) : LedgerError :=
  match c.check with
  | .error e => .domain e
  | .ok () => .cancelled

namespace Call

def stopped : Conduct World Nat where
  may n request := n < 2 ∧ (request = .freshId ∨ request = .stopping)
  hears := World.IsLate
  moved n _ _ := n + 1

section

variable {policy : RetryPolicy} {origin : Origin} {β : Type}
  {Q : Except LedgerError β → Nat → Prop}

theorem wp_retrying_stopped {name : String} {α : Type} {plan : Operation α}
    {f : α → Operation β} {n : Nat} (hn : n < 2) (h : Q (.error .cancelled) (n + 1)) :
    (Operation.retrying policy name (Operation.planning plan >>= f)).run.wp stopped.asks Q n := by
  have honce : (Operation.planning plan >>= f).run.wp stopped.asks
      (Operation.Attempted (fun _ => False) Q) n := by
    rw [Operation.wp_bind]
    refine ⟨⟨hn, .inr rfl⟩, fun reply hlate => ?_⟩
    obtain rfl : reply = true := hlate
    have hcancelled : Operation.Attempted (fun _ => False) Q (.error .cancelled) (n + 1) :=
      Operation.attempted_error rfl h
    exact hcancelled
  unfold Operation.retrying
  cases policy.attempts - 1 with
  | zero => exact Operation.wp_attempt Conduct.mono_asks honce fun _ h => h.elim
  | succ left => exact Operation.wp_attempt Conduct.mono_asks honce fun _ h => h.elim

/-- A call that finds shutdown when it starts checks its command, and gives up: it keeps the rules
`stopped`. -/
theorem keeps_stopped (call : Call) :
    stopped.Keeps call.execute.run (fun answer _ => answer = .error call.command.givenUp) 0 := by
  obtain ⟨command, policy, origin⟩ := call
  have hcancelled : ∀ {γ : Type}, command.check = .ok () →
      (.error .cancelled : Except LedgerError γ) = .error command.givenUp := fun h => by
    rw [Command.givenUp, h]
  have hinvalid : ∀ {γ : Type} {e : DomainError}, command.check = .error e →
      (.error (.domain e) : Except LedgerError γ) = .error command.givenUp := fun h => by
    rw [Command.givenUp, h]
  cases command with
  | post c =>
      show Program.wp _ (c.execute policy origin >>= fun r => return Answer.posting r).run _ 0
      rw [Operation.wp_bind]
      refine Operation.wp_lawful_bind (fun p hp => ?_) fun e he => hinvalid ?_
      · refine wp_retrying_stopped (by decide) (hcancelled ?_)
        simp [Command.check, hp, Except.map]
      · simp [Command.check, he, Except.map]
  | adjust c =>
      show Program.wp _ (c.execute policy origin >>= fun r => return Answer.posting r).run _ 0
      rw [Operation.wp_bind]
      unfold AdjustCommand.execute
      rw [Operation.wp_lift_bind]
      refine ⟨⟨by decide, .inl rfl⟩, fun transaction _ => ?_⟩
      have hcheck := c.check_toPosting .nil transaction
      refine Operation.wp_lawful_bind (fun p hp => ?_) fun e he => hinvalid ?_
      · rw [Operation.wp_bind]
        refine wp_retrying_stopped (Nat.lt_succ_self 1) (hcancelled ?_)
        rw [Command.check, hcheck, hp]
        rfl
      · rw [Command.check, hcheck, he]
        rfl
  | void c =>
      show Program.wp _ (c.execute policy origin >>= fun r => return Answer.void r).run _ 0
      rw [Operation.wp_bind]
      unfold VoidCommand.execute
      dsimp only
      split
      · rename_i hblank
        exact hinvalid (if_pos hblank)
      · rename_i hblank
        exact wp_retrying_stopped (by decide) (hcancelled (if_neg hblank))
  | earmark k c =>
      show Program.wp _ (c.execute k policy origin >>= fun r => return Answer.reservation r).run _ 0
      rw [Operation.wp_bind]
      unfold ReserveCommand.execute
      simp only [Command.check] at hcancelled hinvalid
      -- how the currency is read is kept out of the way of unification
      generalize Currency.parse c.currency = parsed at hcancelled hinvalid
      refine Operation.wp_money_bind (fun amount hamount => ?_) fun e he => hinvalid ?_
      · refine Operation.wp_money_bind (fun currency hcurrency => ?_) fun e he => hinvalid ?_
        · exact wp_retrying_stopped (by decide) (hcancelled (by rw [hamount, hcurrency]))
        · rw [hamount, he]
      · rw [he]

end

theorem stopped_allows {turns : List (Turn World)} (h : stopped.Allows 0 turns) :
    stopped.after 0 turns = turns.length ∧ turns.length ≤ 2 ∧
      ∀ t ∈ turns, t.request = .freshId ∨ t.request = .stopping := by
  induction turns using List.reverseRecOn with
  | nil => exact ⟨rfl, Nat.zero_le _, by simp⟩
  | append_singleton turns t ih =>
      obtain ⟨hbefore, hlt, hrequest⟩ := Conduct.allows_concat_iff.mp h
      obtain ⟨hafter, -, hall⟩ := ih hbefore
      rw [hafter] at hlt
      refine ⟨?_, ?_, fun u hu => ?_⟩
      · rw [Conduct.after_concat, List.length_append, hafter]
        rfl
      · rw [List.length_append, List.length_singleton]
        omega
      · rcases List.mem_append.mp hu with hu | hu
        · exact hall u hu
        · rw [List.mem_singleton.mp hu]
          exact hrequest

end Call

/-! ## Calls among others -/

namespace Traffic

open Interleaving

section

variable {base : Memory} {steps more : List (Step Call)} {place : Nat}
  {p : Party Call (Except LedgerError Answer)} {c : ChangeSet}
  {verdict : Except StoreError Unit} {left : Nat}

/-- How far the call at a place has come.  The origin of a call has no part in that. -/
def progress (base : Memory) (steps : List (Step Call)) (place : Nat) : Call.Progress :=
  (Call.conduct {}).after {} ((on base).dialogue steps place)

theorem follows (hp : ((on base).run steps : Traffic).parties[place]? = some p) :
    (Call.conduct p.task.origin).Allows {} ((on base).dialogue steps place) ∧
      (Call.conduct p.task.origin).Keeps p.rest (p.task.manner.Closes 0)
        (progress base steps place) :=
  keeps_run hp (Call.keeps_execute p.task) fun _ _ h => h

theorem commits_eq (hp : ((on base).run steps : Traffic).parties[place]? = some p) :
    ((on base).run steps : Traffic).commits place = (progress base steps place).stage.written := by
  rw [commits_run]
  exact (Call.written_after (follows hp).1).symm

/-- What a call answers is right for the `Stage` that it has come to. -/
theorem closes_answer (hp : ((on base).run steps : Traffic).parties[place]? = some p)
    {answer : Except LedgerError Answer} (ha : p.answer? = some answer) :
    p.task.manner.Closes 0 answer (progress base steps place) := by
  have hkeeps := (follows hp).2
  rwa [Party.rest_eq_done ha] at hkeeps

theorem reporting_run (hp : ((on base).run steps : Traffic).parties[place]? = some p)
    (hs : (progress base steps place).stage = .reporting c verdict left)
    (more : List (Step Call)) :
    ∃ left', (progress base (steps ++ more) place).stage = .reporting c verdict left' := by
  obtain ⟨q, hq, -⟩ := exists_goesOn_run hp more
  rw [← run_append] at hq
  have hallows := (follows hq).1
  rw [dialogue_append] at hallows
  obtain ⟨left', -, hafter⟩ := Call.reporting_after hallows.later hs
  refine ⟨left', ?_⟩
  rw [progress, dialogue_append, Conduct.after_append]
  exact hafter

theorem progress_act (hp : ((on base).run steps : Traffic).parties[place]? = some p)
    {request : World.Request}
    {next : World.Reply request → Program World (Except LedgerError Answer)} {w : Moment}
    (hrest : p.rest = .ask request next) (hdrawn : w.drawn request = []) :
    progress base (steps ++ [.act place w]) place =
      Call.moved (progress base steps place) request
        (w.reply p.stopping ((on base).run steps : Traffic).memory request).1 := by
  rw [progress, dialogue_concat,
    dialogue_singleton (act_of_drawn_eq_nil hp hrest hdrawn).1, if_pos rfl, Conduct.after_concat]
  rfl

/-- A call that reports answers when it has acted as often as it has requests left. -/
theorem answers_of_reporting (more : List (Step Call)) :
    ∀ {steps left p}, ((on base).run steps : Traffic).parties[place]? = some p →
      (progress base steps place).stage = .reporting c verdict left →
      left ≤ more.countP (Step.isAct place) →
      ∃ answer, ((on base).run (steps ++ more) : Traffic).answer? place = some answer := by
  induction more with
  | nil =>
      intro steps left p hp hs hleft
      obtain rfl : left = 0 := Nat.le_zero.mp hleft
      have hkeeps := (follows hp).2
      rw [List.append_nil, answer?_eq hp]
      unfold Party.answer?
      cases hrest : p.rest with
      | done answer => exact ⟨answer, rfl⟩
      | ask request next =>
          -- a call that asks has a request left
          rw [hrest] at hkeeps
          obtain ⟨_, hzero, -⟩ := Call.reporting_moved (t := ⟨request, default⟩) hkeeps.1 hs
          exact absurd hzero (by omega)
  | cons x more ih =>
      intro steps left p hp hs hleft
      rw [List.append_cons]
      obtain ⟨q, hq, hpq⟩ := exists_goesOn_step hp x
      rw [← run_concat] at hq
      cases hanswer : p.answer? with
      | some answer =>
          -- it has answered already
          obtain ⟨r, hr, hqr⟩ := exists_goesOn_run hq more
          rw [← run_append] at hr
          exact ⟨answer, (answer?_eq hr).trans (hqr.answer _ (hpq.answer _ hanswer))⟩
      | none =>
          cases hact : x.isAct place with
          | false =>
              refine @ih (steps ++ [x]) left q hq ?_ ?_
              · rw [progress, dialogue_concat, dialogue_singleton_of_not_isAct hact,
                  List.append_nil]
                exact hs
              · rwa [List.countP_cons_of_neg (by simp [hact])] at hleft
          | true =>
              obtain ⟨w, rfl⟩ : ∃ w, x = .act place w := by
                cases x with
                | act n w => exact ⟨w, by rw [of_decide_eq_true hact]⟩
                | _ => exact absurd hact (by simp [Step.isAct])
              have hkeeps := (follows hp).2
              unfold Party.answer? at hanswer
              split at hanswer
              · exact absurd hanswer (by simp)
              · rename_i request next hrest
                rw [hrest] at hkeeps
                have hdrawn : w.drawn request = [] := by
                  have hne := Call.ne_freshId_of_reporting hkeeps.1 hs
                  cases request <;> first | rfl | exact absurd rfl hne
                obtain ⟨left', rfl, hmoved⟩ := Call.reporting_moved
                  (t := ⟨request, (w.reply p.stopping _ request).1⟩) hkeeps.1 hs
                refine @ih (steps ++ [.act place w]) left' q hq ?_ ?_
                · rw [progress_act hp hrest hdrawn]
                  exact hmoved
                · rw [List.countP_cons_of_pos hact] at hleft
                  omega

end

/-! ## The truth -/

/-- The party at a place has asked the store to `.commit` a change set, and is answered at a moment.
Neither its signal nor anything else comes in between. -/
structure Carried (s : Traffic) (place : Nat) (call : Call) (c : ChangeSet) (w : Moment) :
    Prop where
  /-- What the store takes is in the journal for good, and it is what is answered, soon. -/
  taken : s.memory.fault? c = none → (s.act place w).journal = s.journal ++ [(place, c)] ∧
    ∀ more : List (Step Call), let t : Traffic := (s.act place w).run more
      t.commits place = [c] ∧
        (∀ answer, t.answer? place = some answer → ∃ a, call.report c = some a ∧ answer = .ok a) ∧
        (3 ≤ more.countP (Step.isAct place) → ∃ answer, t.answer? place = some answer)
  /-- What the store refuses leaves no trace, and unless the race was lost, that is what is
  answered, soon. -/
  refused : ∀ e, s.memory.fault? c = some e →
    (s.act place w).memory = s.memory ∧ (s.act place w).journal = s.journal ∧
      (e.isVersionConflict = false → ∀ more : List (Step Call),
        let t : Traffic := (s.act place w).run more
        t.commits place = [] ∧
          (∀ answer, t.answer? place = some answer → call.command.Relays e answer) ∧
          (3 ≤ more.countP (Step.isAct place) → ∃ answer, t.answer? place = some answer))

/-- The signal of the party at a place was raised before the party asked for anything. -/
structure GivenUp (s : Traffic) (place : Nat) (call : Call) (more : List (Step Call)) : Prop where
  /-- The store is asked for nothing. -/
  requests : ∀ t ∈ s.dialogue more place, t.request = .freshId ∨ t.request = .stopping
  silent : (s.run more).commits place = s.commits place
  answer : ∀ answer, (s.run more).answer? place = some answer →
    answer = .error call.command.givenUp
  /-- It answers when it has had two replies at the latest; until then it waits for one. -/
  answers : 2 ≤ (s.dialogue more place).length →
    ∃ answer, (s.run more).answer? place = some answer

/-- What the calls answer says what they have committed: `Carried` and `GivenUp` for the two ways in
which shutdown can come. -/
structure Truthful (s : Traffic) : Prop where
  once : ∀ place p, s.parties[place]? = some p → (s.commits place).length ≤ 1
  /-- An effect is reported: it has been committed, once. -/
  effect : ∀ place p a, s.parties[place]? = some p → p.answer? = some (.ok a) →
    a.status ≠ .alreadyProcessed → ∃ c, s.commits place = [c] ∧ p.task.report c = some a
  /-- It is reported that somebody else was faster: nothing has been committed. -/
  repeated : ∀ place p a, s.parties[place]? = some p → p.answer? = some (.ok a) →
    a.status = .alreadyProcessed → s.commits place = []
  /-- An error is reported: nothing has been committed. -/
  failed : ∀ place p e, s.parties[place]? = some p → p.answer? = some (.error e) →
    s.commits place = []
  carried : ∀ place p c next w, s.parties[place]? = some p →
    p.rest = .ask (.store (.commit c)) next → Carried s place p.task c w
  givenUp : ∀ place p more, s.parties[place]? = some p → p.stopping = true →
    p.rest = Task.program p.task → GivenUp s place p.task more

section

variable {base : Memory} {steps : List (Step Call)} {place : Nat}
  {p : Party Call (Except LedgerError Answer)} {c : ChangeSet}

theorem once (hp : ((on base).run steps : Traffic).parties[place]? = some p) :
    (((on base).run steps : Traffic).commits place).length ≤ 1 := by
  rw [commits_eq hp]
  match (progress base steps place).stage with
  | .planning => exact Nat.zero_le 1
  | .reporting _ (.ok ()) _ => exact Nat.le_refl 1
  | .reporting _ (.error _) _ => exact Nat.zero_le 1

theorem answer_cases (hp : ((on base).run steps : Traffic).parties[place]? = some p)
    {answer : Except LedgerError Answer} (ha : p.answer? = some answer) :
    (∃ c a, ((on base).run steps : Traffic).commits place = [c] ∧ p.task.report c = some a ∧
        answer = .ok a) ∨
      ((on base).run steps : Traffic).commits place = [] ∧
        ∀ a, answer = .ok a → a.status = .alreadyProcessed := by
  have hcloses := closes_answer hp ha
  rw [commits_eq hp]
  unfold Call.Manner.Closes at hcloses
  split at hcloses
  · rename_i hs
    rw [hs]
    exact .inr ⟨rfl, hcloses⟩
  · rename_i c _ hs
    obtain ⟨-, a, rfl, hreport⟩ := hcloses
    rw [hs]
    exact .inl ⟨c, a, rfl, hreport, rfl⟩
  · rename_i hs
    rw [hs]
    refine .inr ⟨rfl, ?_⟩
    rintro a rfl
    exact Call.Relays.status hcloses.2

/-- A call that reports a verdict has committed what the verdict says, and answers that, soon. -/
theorem reports {verdict : Except StoreError Unit} {left : Nat}
    (hp : ((on base).run steps : Traffic).parties[place]? = some p)
    (hs : (progress base steps place).stage = .reporting c verdict left)
    (more : List (Step Call)) :
    let t : Traffic := (on base).run (steps ++ more)
    t.commits place = (Call.Stage.reporting c verdict left).written ∧
      (∀ answer, t.answer? place = some answer →
        p.task.manner.Closes 0 answer { stage := .reporting c verdict left }) ∧
      (left ≤ more.countP (Step.isAct place) → ∃ answer, t.answer? place = some answer) := by
  intro t
  obtain ⟨q, hq, hpq⟩ := exists_goesOn_run hp more
  rw [← run_append] at hq
  obtain ⟨left', hafter⟩ := reporting_run hp hs more
  refine ⟨?_, fun answer ha => ?_, answers_of_reporting more hp hs⟩
  · rw [commits_eq hq, hafter]
    match verdict with
    | .ok () => rfl
    | .error _ => rfl
  · rw [answer?_eq hq] at ha
    have hcloses := closes_answer hq ha
    rw [hpq.task] at hcloses
    unfold Call.Manner.Closes at hcloses ⊢
    rw [hafter] at hcloses
    match verdict with
    | .ok () => exact ⟨Nat.zero_le _, hcloses.2⟩
    | .error _ => exact ⟨Nat.zero_le _, hcloses.2⟩

theorem act_run (steps : List (Step Call)) (place : Nat) (w : Moment) :
    ((on base).run steps : Traffic).act place w = (on base).run (steps ++ [.act place w]) := by
  rw [run_concat]
  rfl

theorem carried (hp : ((on base).run steps : Traffic).parties[place]? = some p)
    {next : World.Reply (.store (.commit c)) → Program World (Except LedgerError Answer)}
    (hrest : p.rest = .ask (.store (.commit c)) next) (w : Moment) :
    Carried ((on base).run steps) place p.task c w := by
  have hact := (act_of_drawn_eq_nil (w := w) hp hrest rfl).2
  have hprogress := progress_act (w := w) hp hrest rfl
  have hreply : w.reply p.stopping ((on base).run steps : Traffic).memory (.store (.commit c)) =
      ((on base).run steps : Traffic).memory.answer w.now (.commit c) := rfl
  rw [hreply] at hprogress
  obtain ⟨q, hq, hpq⟩ := exists_goesOn_step hp (.act place w)
  rw [← run_concat] at hq
  constructor
  · intro hfault
    rw [Memory.answer_commit_accepted hfault] at hprogress
    refine ⟨?_, fun more => ?_⟩
    · rw [hact]
      simp [answered, Memory.accepted?, World.Request.changes?, hfault]
    · have h := reports hq (congrArg Call.Progress.stage hprogress) more
      rw [act_run, ← run_append]
      refine ⟨h.1, fun answer ha => ?_, h.2.2⟩
      obtain ⟨-, a, rfl, hreport⟩ := h.2.1 answer ha
      exact ⟨a, hpq.task ▸ hreport, rfl⟩
  · intro e hfault
    rw [Memory.answer_commit_refused hfault] at hprogress
    refine ⟨?_, ?_, fun he more => ?_⟩
    · rw [hact]
      simp only [answered, hreply]
      rw [Memory.answer_commit_refused hfault]
    · rw [hact]
      simp [answered, Memory.accepted?, World.Request.changes?, hfault]
    · have hstage : (progress base (steps ++ [.act place w]) place).stage =
          .reporting c (.error e) 3 := by
        rw [hprogress]
        show Call.Progress.stage (if e.isVersionConflict then {} else
          { stage := .reporting c (.error e) 3 }) = _
        rw [he]
        rfl
      have h := reports hq hstage more
      rw [act_run, ← run_append]
      exact ⟨h.1, fun answer ha => hpq.task ▸ (h.2.1 answer ha).2, h.2.2⟩

theorem givenUp (hp : ((on base).run steps : Traffic).parties[place]? = some p)
    (hstopping : p.stopping = true) (hrest : p.rest = Task.program p.task)
    (more : List (Step Call)) : GivenUp ((on base).run steps) place p.task more := by
  obtain ⟨q, hq, -⟩ := exists_goesOn_run hp more
  have hears : p.Hears (((on base).run steps : Traffic).dialogue more place) q := by
    rcases hears_run hq with ⟨p', hp', hears⟩ | ⟨hnone, -⟩
    · obtain rfl := Option.some.inj (hp.symm.trans hp')
      exact hears
    · exact absurd (hp.symm.trans hnone) (by simp)
  have hkeeps := Call.keeps_stopped p.task
  obtain ⟨hallows, hrest'⟩ := hkeeps.converses (hrest ▸ hears.converse)
    fun t ht => isLate_of_mem_dialogue hp hstopping ht
  obtain ⟨hafter, hlength, hrequests⟩ := Call.stopped_allows hallows
  refine ⟨hrequests, ?_, fun answer ha => ?_, fun htwo => ?_⟩
  · -- a request for an identifier or for the signal commits nothing
    rw [commits_run, List.filterMap_eq_nil_iff.mpr, List.append_nil]
    rintro ⟨request, reply⟩ ht
    rcases hrequests _ ht with rfl | rfl <;> rfl
  · rw [answer?_eq hq] at ha
    rwa [Party.rest_eq_done ha] at hrest'
  · rw [answer?_eq hq]
    unfold Party.answer?
    cases hask : q.rest with
    | done answer => exact ⟨answer, rfl⟩
    | ask request next =>
        -- there is no third request
        rw [hask, hafter] at hrest'
        exact absurd hrest'.1.1 (by omega)

end

end Traffic

/-- Calls that run at the same time on any store, in any way, tell the truth. -/
theorem answers_truthful (base : Memory) (steps : List (Interleaving.Step Call)) :
    Traffic.Truthful ((Interleaving.on base).run steps) where
  once _ _ hp := Traffic.once hp
  effect place p a hp ha hstatus := by
    rcases Traffic.answer_cases hp ha with ⟨c, b, hc, hreport, heq⟩ | ⟨-, h⟩
    · obtain rfl := Except.ok.inj heq
      exact ⟨c, hc, hreport⟩
    · exact absurd (h a rfl) hstatus
  repeated place p a hp ha hstatus := by
    rcases Traffic.answer_cases hp ha with ⟨c, b, -, hreport, heq⟩ | ⟨h, -⟩
    · obtain rfl := Except.ok.inj heq
      exact absurd hstatus (Call.report_status hreport)
    · exact h
  failed place p e hp ha := by
    rcases Traffic.answer_cases hp ha with ⟨c, b, -, -, heq⟩ | ⟨h, -⟩
    · exact absurd heq (by simp)
    · exact h
  carried _ _ _ _ w hp hrest := Traffic.carried hp hrest w
  givenUp _ _ more hp hstopping hrest := Traffic.givenUp hp hstopping hrest more

/-- One credit, whose signal is raised when so many of its requests have been answered. -/
def stoppedCredit (answered : Nat) : List (Interleaving.Step Call) :=
  let acts := (List.range 12).map fun n =>
    .act 0 { now := .epoch, id := ⟨BitVec.ofNat 128 n⟩, yields := true }
  .start { command := .post (.credit .nil "MAD" 100 "in") } ::
    (acts.take answered ++ .stop 0 :: acts.drop answered)

/-- A signal that comes before the slot is read is heeded; one that comes while the credit is being
committed is not. -/
example : [1, 9].map (fun n =>
    let s : Traffic := (Interleaving.on .empty).run (stoppedCredit n)
    ((s.answer? 0).map Except.toBool, s.journal.length)) =
    [(some false, 0), (some true, 1)] := by
  decide +kernel

end BalanceLedger
