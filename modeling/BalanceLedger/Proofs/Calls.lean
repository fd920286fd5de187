/-
# `Proofs.Calls` — how calls end

What holds of each operation, put together for the calls that callers make.  `Commits`
is what a call owes the others when it commits: the change set writes the effect that
its command has on the store at that moment, and the call has written nothing before.
`Ends` is what it ensures when it returns: its answer is what it reports of the change
set that it has committed, or it has committed none and `Declines` for one of few
reasons.

Both together are the `charter` of calls, and `honoured` says that every call keeps its
terms.  There is one lemma for each kind of command, `wp_post`, `wp_adjust`, `wp_void`
and `wp_earmark`, and each of them only puts together what the modules about the
operations prove.

What a call owes says enough to make the same commit alone.  That is `alone_execute`: a
command that settles an effect on a store which accepts it commits this effect when it
has the store to itself.  It is the step from an interleaving to a serial run.
-/
import BalanceLedger.Proofs.Adequacy
import BalanceLedger.Proofs.Posting
import BalanceLedger.Proofs.Reservation
import BalanceLedger.Proofs.Voiding

namespace BalanceLedger

open Store (ChangeSet Memory)
open Time (Instant)

theorem AdjustCommand.toPosting_ok {c : AdjustCommand} {transaction : Uuid} {p : Posting}
    (h : c.toPosting transaction = .ok p) : p.draft.key = none ∧ p.status = .adjusted ∧
      ∃ currency, Currency.parse c.currency = .ok currency ∧ p.slotKey = (c.account, currency) := by
  unfold toPosting at h
  dsimp only at h
  split at h
  · exact absurd h (by simp [throw, throwThe, MonadExceptOf.throw, bind, Except.bind])
  split at h
  · exact absurd h (by simp [throw, throwThe, MonadExceptOf.throw, bind, Except.bind])
  split at h
  · obtain ⟨currency, hcurrency, h⟩ := exists_of_bind_ok h
    obtain ⟨amount, -, h⟩ := exists_of_bind_ok h
    obtain rfl := Except.ok.inj h
    exact ⟨rfl, rfl, currency, eq_ok_of_mapError_ok hcurrency, rfl⟩
  · exact absurd h (by simp [throw, throwThe, MonadExceptOf.throw])

theorem Posting.ofCommand_ok {c : PostCommand} {p : Posting} (h : ofCommand c = .ok p) :
    p.status = .posted ∧
      ∃ currency, Currency.parse c.currency = .ok currency ∧ p.slotKey = (c.account, currency) := by
  obtain ⟨amount, -, h⟩ := exists_of_bind_ok h
  obtain ⟨currency, hcurrency, h⟩ := exists_of_bind_ok h
  obtain ⟨key, -, h⟩ := exists_of_bind_ok h
  dsimp only at h
  split at h
  · exact absurd h (by simp [throw, throwThe, MonadExceptOf.throw, bind, Except.bind])
  · obtain rfl := Except.ok.inj h
    exact ⟨rfl, currency, eq_ok_of_mapError_ok hcurrency, rfl⟩

/-- A command has an effect on a slot that is stored, or missing, under a key, drawing identifiers
for it.  The log decides what a `.void` voids. -/
inductive Command.Settles (m : Memory) :
    Command → Slot.Key → Option Slot → List Uuid → Effect → Prop
  | post {c : PostCommand} {p : Posting} {stored : Option Slot} {now later : Instant} {id : Uuid}
      {x : Effect} : Posting.ofCommand c = .ok p → p.effect stored now later id = .ok x →
      Settles m (.post c) p.slotKey stored [id] x
  | adjust {c : AdjustCommand} {p : Posting} {stored : Option Slot} {now later : Instant}
      {transaction id : Uuid} {x : Effect} : c.toPosting transaction = .ok p →
      p.effect stored now later id = .ok x →
      Settles m (.adjust c) p.slotKey stored [transaction, id] x
  | void {c : VoidCommand} {target : Entry} {slot : Slot} {now later : Instant} {id : Uuid}
      {x : Effect} : Text.isBlankText c.reason = false → m.entry? c.target = some target →
      target.isVoid = false → c.effect target slot now later id = .ok x →
      Settles m (.void c) target.slotKey (some slot) [id] x
  | earmark {k : Earmark} {c : ReserveCommand} {amount : Amount} {currency : Currency}
      {slot : Slot} {now : Instant} {x : Effect} : Amount.ofInt64 c.amount = .ok amount →
      Currency.parse c.currency = .ok currency → k.effect slot amount now = .ok x →
      Settles m (.earmark k c) (c.account, currency) (some slot) [] x

namespace Call

/-- What is answered for a change set that a call has written. -/
def report (call : Call) (c : ChangeSet) : Option Answer :=
  match call.command, c.entry with
  | .post _, some e =>
    some (.posting { entry := e.id, status := .posted, balance := e.runningBalance })
  | .adjust _, some e =>
    some (.posting { entry := e.id, status := .adjusted, balance := e.runningBalance })
  | .void _, some e => e.target.map fun target =>
    .void { voidEntry := e.id, target, status := .voided, balance := e.runningBalance }
  | .earmark k _, none => some (.reservation (k.result c.slot))
  | _, _ => none

/-- A call commits a change set: it writes the effect of the command, on the slot as it was read
and with identifiers that name nothing yet. -/
structure Commits (base : Memory) (call : Call) (place : Nat) (v : View) (c : ChangeSet)
    (key : Slot.Key) (stored : Option Slot) (ids ids' : List Uuid) (x : Effect) : Prop where
  settles : call.command.Settles (base.after v.journal) key stored ids x
  written : x.Written call.origin stored ids' c
  keeps : x.Keeps stored key
  distinct : (ids ++ ids').Nodup
  drawn : ∀ id ∈ ids ++ ids', id ∈ v.drawn
  unused : ∀ id ∈ v.drawn, id ∉ (base.after v.journal).ids
  /-- It has committed nothing before. -/
  silent : ∀ p ∈ v.journal, p.1 ≠ place
  current : Memory.commitsOn key v.journal < Memory.versions →
    (base.after v.journal).slots.get? key = stored

/-- Why a call that has committed nothing answers what it answers. -/
inductive Declines (base : Memory) (since : Nat) (journal : List (Nat × ChangeSet)) :
    Command → Except LedgerError Answer → Prop
  /-- An entry holds the key. -/
  | held {c : PostCommand} {p : Posting} {j : List (Nat × ChangeSet)} {e : Entry} :
      Posting.ofCommand c = .ok p → since ≤ j.length → j <+: journal →
      p.IsHeldBy (base.after j) e →
      Declines base since journal (.post c) (.ok (.posting (Posting.replayed e)))
  /-- The key was free, and the slot that was read then refuses the posting. -/
  | refused {c : PostCommand} {p : Posting} {j j' : List (Nat × ChangeSet)} {e : DomainError} :
      Posting.ofCommand c = .ok p → since ≤ j.length → j <+: j' → j' <+: journal →
      p.IsFree (base.after j) → p.refusal? ((base.after j').slots.get? p.slotKey) = some e →
      Declines base since journal (.post c) (.error (.domain e))
  /-- The command is none. -/
  | invalid {c : PostCommand} {e : DomainError} : Posting.ofCommand c = .error e →
      Declines base since journal (.post c) (.error (.domain e))
  /-- The log bars the void. -/
  | barred {c : VoidCommand} {j : List (Nat × ChangeSet)} {e : DomainError} :
      Text.isBlankText c.reason = false → since ≤ j.length → j <+: journal →
      c.Barred (base.after j) e → Declines base since journal (.void c) (.error (.domain e))
  /-- The entry was open, and the slot that was read then refuses the void. -/
  | blocked {c : VoidCommand} {target : Entry} {j j' : List (Nat × ChangeSet)} {e : DomainError} :
      Text.isBlankText c.reason = false → since ≤ j.length → j <+: j' → j' <+: journal →
      c.IsOpen (base.after j) target →
      c.refusal? target ((base.after j').slots.get? target.slotKey) = some e →
      Declines base since journal (.void c) (.error (.domain e))
  /-- The void has no reason. -/
  | unreasoned {c : VoidCommand} : Text.isBlankText c.reason = true →
      Declines base since journal (.void c) (.error (.domain (.required "void reason")))
  /-- A business rule refuses a command that is neither a posting of a caller nor a void. -/
  | other {command : Command} {e : DomainError} : (∀ c, command ≠ .post c) →
      (∀ c, command ≠ .void c) → Declines base since journal command (.error (.domain e))
  | cancelled (command : Command) : Declines base since journal command (.error .cancelled)
  | exhausted (command : Command) (n : Nat) :
      Declines base since journal command (.error (.exhausted n))

/-- What a call ensures when it returns: `report` of what it has committed, or nothing is committed
and it `Declines`. -/
def Ends (base : Memory) (call : Call) (since place : Nat) (answer : Except LedgerError Answer)
    (v : View) : Prop :=
  (∃ c a, (place, c) ∈ v.journal ∧ call.report c = some a ∧ answer = .ok a) ∨
    (∀ p ∈ v.journal, p.1 ≠ place) ∧ Declines base since v.journal call.command answer

/-- What calls owe, which is `Commits`, and what they ensure, which is `Ends`. -/
def charter (base : Memory) : Charter Call (Except LedgerError Answer) where
  owes call _ place v c :=
    ∃ key stored ids ids' x, Commits base call place v c key stored ids ids' x
  ensures := Ends base

abbrev terms (base : Memory) (call : Call) (since place : Nat) : Terms :=
  (charter base).terms base call since place

variable {base : Memory} {call : Call} {since place : Nat}

theorem Declines.mono {journal more : List (Nat × ChangeSet)} {command : Command}
    {answer : Except LedgerError Answer} (h : Declines base since journal command answer)
    (hj : journal <+: more) : Declines base since more command answer := by
  cases h with
  | held hp hsince hpre hheld => exact .held hp hsince (hpre.trans hj) hheld
  | refused hp hsince hjj hpre hfree hrefusal =>
      exact .refused hp hsince hjj (hpre.trans hj) hfree hrefusal
  | invalid hp => exact .invalid hp
  | barred hreason hsince hpre hbarred => exact .barred hreason hsince (hpre.trans hj) hbarred
  | blocked hreason hsince hjj hpre hopen hrefusal =>
      exact .blocked hreason hsince hjj (hpre.trans hj) hopen hrefusal
  | unreasoned hreason => exact .unreasoned hreason
  | other hpost hvoid => exact .other hpost hvoid
  | cancelled => exact .cancelled _
  | exhausted => exact .exhausted _ _

theorem stable_ends : (call.terms base since place).Stable (Ends base call since place) := by
  intro answer v w hvw h
  obtain ⟨more, hw, hmore⟩ := hvw.others
  rcases h with ⟨c, a, hc, hreport⟩ | ⟨hsilent, hdeclines⟩
  · exact .inl ⟨c, a, hvw.grown.subset hc, hreport⟩
  · refine .inr ⟨fun p hp => ?_, hdeclines.mono hvw.grown⟩
    rw [hw] at hp
    rcases List.mem_append.mp hp with hp | hp
    · exact hsilent p hp
    · exact (hmore p hp).1

/-! ## Among others -/

variable {start w : View}

theorem Commits.of_commitment {key : Slot.Key} {stored : Option Slot} {x : Effect}
    {ids ids' : List Uuid} {c : ChangeSet}
    (h : (call.terms base since place).Commitment start w call.origin key stored x ids ids' c)
    (hs : call.command.Settles (base.after w.journal) key stored (start.drawn ++ ids) x) :
    Commits base call place w c key stored (start.drawn ++ ids) ids' x where
  settles := hs
  written := h.written
  keeps := h.keeps
  distinct := by
    rw [List.append_assoc]
    exact h.nodup
  drawn := by
    intro id hid
    rw [List.append_assoc] at hid
    rcases List.mem_append.mp hid with hid | hid
    · exact h.quiet.drawn.subset hid
    · exact h.mem_drawn hid
  unused := h.quiet.unused
  silent := h.quiet.silent
  current := h.current

theorem ends_of_report {c : ChangeSet} {a : Answer} (h : call.report c = some a) :
    Ends base call since place (.ok a) (w.push place c) :=
  .inl ⟨c, a, List.mem_append_right _ (List.mem_singleton.mpr rfl), h, rfl⟩

theorem wp_post {cmd : PostCommand} (hcall : call.command = .post cmd) (hbase : base.Indexed)
    (hdrawn : start.drawn = []) (hsince : start.journal.length = since)
    (hv : (call.terms base since place).Quiet start start) :
    (call.terms base since place).wp call.execute.run (Ends base call since place) start := by
  obtain ⟨command, policy, origin⟩ := call
  subst hcall
  refine Terms.wp_bind_run (Terms.wp_lawful_bind (fun p hp => ?_)
    fun e hp => .inr ⟨hv.silent, .invalid hp⟩)
  refine Terms.wp_retrying (fun w hw => Posting.wp_once hbase ?_ ?_ ?_ ?_ hw)
    (fun w n hw => .inr ⟨hw.silent, .exhausted _ n⟩) hv
  · intro w hw
    exact .inr ⟨hw.silent, .cancelled _⟩
  · intro w e hw hheld
    exact .inr ⟨hw.silent, .held hp (hsince ▸ hw.since.length_le) (List.prefix_refl _) hheld⟩
  · rintro w e hw ⟨j, j', hj, hjj, hpre, hfree, hrefusal⟩
    exact .inr ⟨hw.silent, .refused hp (hsince ▸ hj.length_le) hjj hpre hfree hrefusal⟩
  · intro w stored now later id x e ids c heffect hentry h
    refine ⟨⟨_, _, _, _, _, .of_commitment h ?_⟩, ends_of_report ?_⟩
    · rw [hdrawn]
      exact .post hp heffect
    · simp only [report, h.written.entry, hentry, Posting.written, (Posting.ofCommand_ok hp).1]

theorem wp_adjust {cmd : AdjustCommand} (hcall : call.command = .adjust cmd) (hbase : base.Indexed)
    (hdrawn : start.drawn = []) (hv : (call.terms base since place).Quiet start start) :
    (call.terms base since place).wp call.execute.run (Ends base call since place) start := by
  obtain ⟨command, policy, origin⟩ := call
  subst hcall
  refine Terms.wp_bind_run (Terms.wp_lift_bind (Terms.wp_freshId hv fun v t hv' _ ht => ?_))
  refine Terms.wp_lawful_bind (fun p hp => ?_) fun e hp =>
    .inr ⟨hv'.silent, .other (by simp) (by simp)⟩
  obtain ⟨hkey, hstatus, -⟩ := AdjustCommand.toPosting_ok hp
  refine Terms.wp_bind_run (Terms.wp_retrying
    (fun w hw => Posting.wp_once hbase ?_ ?_ ?_ ?_ hw)
    (fun w n hw => .inr ⟨hw.silent, .exhausted _ n⟩) hv'.restart)
  · intro w hw
    exact .inr ⟨hw.silent, .cancelled _⟩
  · rintro w e hw ⟨key, hheld, -⟩
    exact absurd (hheld.symm.trans hkey) (by simp)
  · intro w e hw _
    exact .inr ⟨hw.silent, .other (by simp) (by simp)⟩
  · intro w stored now later id x e ids c heffect hentry h
    refine ⟨⟨_, _, _, _, _, .of_commitment h ?_⟩, fun _ => ends_of_report ?_⟩
    · rw [ht, hdrawn]
      exact .adjust hp heffect
    · simp only [report, h.written.entry, hentry, Posting.written, hstatus]

theorem wp_void {cmd : VoidCommand} (hcall : call.command = .void cmd) (hbase : base.Indexed)
    (hdrawn : start.drawn = []) (hsince : start.journal.length = since)
    (hv : (call.terms base since place).Quiet start start) :
    (call.terms base since place).wp call.execute.run (Ends base call since place) start := by
  obtain ⟨command, policy, origin⟩ := call
  subst hcall
  refine Terms.wp_bind_run ?_
  unfold VoidCommand.execute
  dsimp only
  split
  · rename_i hreason
    exact .inr ⟨hv.silent, .unreasoned hreason⟩
  · rename_i hreason
    have hreason' : Text.isBlankText cmd.reason = false := by simpa using hreason
    refine Terms.wp_retrying (fun w hw => VoidCommand.wp_once hbase ?_ ?_ ?_ hw)
      (fun w n hw => .inr ⟨hw.silent, .exhausted _ n⟩) hv
    · intro w hw
      exact .inr ⟨hw.silent, .cancelled _⟩
    · rintro w e hw (⟨hj, hpre, hbarred⟩ | ⟨hj, hjj, hpre, hopen, hrefusal⟩)
      · exact .inr ⟨hw.silent, .barred hreason' (hsince ▸ hj.length_le) hpre hbarred⟩
      · exact .inr ⟨hw.silent, .blocked hreason' (hsince ▸ hj.length_le) hjj hpre hopen hrefusal⟩
    · intro w target slot now later id x e ids c hfound hvoid heffect hentry h
      obtain ⟨e', he', -, -, htarget⟩ := VoidCommand.effect_entry heffect
      obtain rfl := Option.some.inj (hentry.symm.trans he')
      refine ⟨⟨_, _, _, _, _, .of_commitment h ?_⟩, ends_of_report ?_⟩
      · rw [hdrawn]
        exact .void hreason' hfound hvoid heffect
      · simp only [report, h.written.entry, hentry, htarget, VoidCommand.written, Option.map_some]

theorem wp_earmark {k : Earmark} {cmd : ReserveCommand} (hcall : call.command = .earmark k cmd)
    (hbase : base.Indexed) (hdrawn : start.drawn = [])
    (hv : (call.terms base since place).Quiet start start) :
    (call.terms base since place).wp call.execute.run (Ends base call since place) start := by
  obtain ⟨command, policy, origin⟩ := call
  subst hcall
  have hother : ∀ w e, (terms base ⟨.earmark k cmd, policy, origin⟩ since place).Quiet start w →
      Ends base ⟨.earmark k cmd, policy, origin⟩ since place (.error (.domain e)) w :=
    fun w e hw => .inr ⟨hw.silent, .other (by simp) (by simp)⟩
  refine Terms.wp_bind_run ?_
  unfold ReserveCommand.execute
  dsimp only
  -- how the currency is read is kept out of the way of unification
  generalize hparsed : Currency.parse cmd.currency = parsed
  refine Terms.wp_money_bind (fun amount hamount => ?_) fun e _ => hother start _ hv
  refine Terms.wp_money_bind (fun currency hcurrency => ?_) fun e _ => hother start _ hv
  refine Terms.wp_retrying (fun w hw => Earmark.wp_once hbase ?_ hother ?_ hw)
    (fun w n hw => .inr ⟨hw.silent, .exhausted _ n⟩) hv
  · intro w hw
    exact .inr ⟨hw.silent, .cancelled _⟩
  · intro w slot now x ids c heffect h
    obtain ⟨_, _, -, rfl⟩ := Earmark.effect_ok heffect
    refine ⟨⟨_, _, _, _, _, .of_commitment h ?_⟩, ends_of_report ?_⟩
    · rw [hdrawn]
      exact .earmark hamount (hparsed.trans hcurrency) heffect
    · simp only [report, h.written.entry, h.written.slot]

theorem honoured (hbase : base.Indexed) : (charter base).Honoured base where
  start := by
    intro call place v horderly hdrawn hsilent
    have hv : (call.terms base v.journal.length place).Quiet v v := by
      refine ⟨horderly, hsilent, ?_, ?_, List.prefix_refl _, List.suffix_refl _⟩ <;> simp [hdrawn]
    cases hcall : call.command with
    | post cmd => exact wp_post hcall hbase hdrawn rfl hv
    | void cmd => exact wp_void hcall hbase hdrawn rfl hv
    | adjust cmd => exact wp_adjust hcall hbase hdrawn hv
    | earmark k cmd => exact wp_earmark hcall hbase hdrawn hv
  stable _ _ _ := stable_ends

/-! ## Alone -/

/-- What a call has an effect on and the store accepts, it commits when it runs `Alone`. -/
theorem alone_execute {m : Memory} {key : Slot.Key} {stored : Option Slot} {ids ids' : List Uuid}
    {x : Effect} {c : ChangeSet} (hs : call.command.Settles m key stored ids x)
    (hw : x.Written call.origin stored ids' c) (hslot : m.slots.get? key = stored)
    (haccepted : m.fault? c = none) (hnew : ∀ id ∈ ids ++ ids', id ∉ m.ids) :
    ∃ a, call.report c = some a ∧
      Alone call.execute.run m (ids ++ ids') (.ok a) (m.write c) := by
  obtain ⟨command, policy, origin⟩ := call
  have hwon : ∀ {β : Type} {r : β} (e : LedgerError), Except.ok r = .error e →
      e.isVersionConflict = false := fun e h => absurd h (by simp)
  cases hs with
  | post hp heffect =>
      rename_i cmd p now later id
      obtain ⟨e, hentry, -⟩ := Posting.effect_entry heffect
      rw [← hslot] at heffect hw
      have honce := Posting.alone_once heffect hentry hw haccepted hnew
      refine ⟨.posting (p.written e), ?_, ?_⟩
      · simp only [report, hw.entry, hentry, Posting.written, (Posting.ofCommand_ok hp).1]
      · exact .bind_last (.lawful_bind hp (.retrying honce hwon)) (.answer _)
  | adjust hp heffect =>
      rename_i cmd p now later transaction id
      obtain ⟨e, hentry, -⟩ := Posting.effect_entry heffect
      rw [← hslot] at heffect hw
      have honce := Posting.alone_once heffect hentry hw haccepted
        fun id' hid => hnew id' (List.mem_cons_of_mem _ hid)
      have happly : Alone (p.apply policy origin).run m (id :: ids') (.ok (p.written e))
          (m.write c) := .retrying honce hwon
      refine ⟨.posting (p.written e), ?_, ?_⟩
      · simp only [report, hw.entry, hentry, Posting.written, (AdjustCommand.toPosting_ok hp).2.1]
      · refine .bind_last (.freshId_bind (hnew _ (by simp)) (.lawful_bind hp ?_)) (.answer _)
        exact .bind_last happly (.bind_last (.lift (.log ..)) (.answer _))
  | void hreason hfound hvoid heffect =>
      rename_i cmd target slot now later id
      obtain ⟨e, hentry, -, -, htarget⟩ := VoidCommand.effect_entry heffect
      have honce := VoidCommand.alone_once hfound hvoid hslot heffect hentry hw haccepted hnew
      have hexecute : Alone (cmd.execute policy origin).run m (id :: ids')
          (.ok (VoidCommand.written target e)) (m.write c) := by
        unfold VoidCommand.execute
        rw [hreason]
        exact .retrying honce hwon
      refine ⟨.void (VoidCommand.written target e), ?_, .bind_last hexecute (.answer _)⟩
      simp only [report, hw.entry, hentry, htarget, VoidCommand.written, Option.map_some]
  | earmark hamount hcurrency heffect =>
      rename_i k cmd amount currency slot now
      have honce := Earmark.alone_once hslot heffect hw haccepted hnew
      obtain ⟨changed, _, -, rfl⟩ := Earmark.effect_ok heffect
      refine ⟨.reservation (k.result changed), ?_, .bind_last ?_ (.answer _)⟩
      · simp only [report, hw.entry, hw.slot]
      · exact .bind_first (.money_ok hamount)
          (.bind_first (.money_ok hcurrency) (.retrying honce hwon))

end Call

end BalanceLedger
