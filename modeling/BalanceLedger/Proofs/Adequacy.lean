/-
# `Proofs.Adequacy` — guarantees hold in every interleaving

If every task keeps its terms when it starts, then in every interleaving all terms are
kept.  The hypothesis is `Charter.Honoured`, and it is about one program at a time.  The
conclusion is `Charter.Upheld`, and it is about all parties and every list of steps: the
store is the first store after the journal, the journal is orderly, each commit in it
was due to the party that made it, and what a task ensures holds of the answer of every
party that has returned.

The induction is on the steps, one lemma for each kind (`upheld_start`, `upheld_stop`,
`upheld_act`), and `upheld_run` puts them together.  A step of one party is a step of
the others' surroundings, and it is one that their terms allow for, because what a party
owes when it commits is what the others rely on.  What was due is stated by `WasDue` as
of the journal at that time, since what the party goes by has moved on since.

With this the statements about interleavings are about journals only: `Upheld.ensures`
is where they get what a call has promised.
-/
import BalanceLedger.Proofs.Guarantee

namespace BalanceLedger

open Store (ChangeSet Memory)

/-- What the tasks of an interleaving owe when they commit and ensure when they return, given how
many commits came before them and their place. -/
structure Charter (τ α : Type) where
  owes : τ → (since place : Nat) → View → ChangeSet → Prop
  ensures : τ → (since place : Nat) → α → View → Prop

namespace Charter

variable {τ α : Type} [Task τ α] (C : Charter τ α) (base : Memory)

def terms (task : τ) (since place : Nat) : Terms :=
  { base, place, owes := C.owes task since place }

/-- Every task keeps its terms from its start on, and what it ensures stays so. -/
structure Honoured : Prop where
  start : ∀ task place (v : View), base.Orderly v.journal → v.drawn = [] →
    (∀ p ∈ v.journal, p.1 ≠ place) →
    (C.terms base task v.journal.length place).wp (Task.program task)
      (C.ensures task v.journal.length place) v
  stable : ∀ task since place, (C.terms base task since place).Stable (C.ensures task since place)

/-- A party that has started keeps its `terms`, from what it goes by now on. -/
structure Working (s : Interleaving τ α) (place : Nat) (p : Party τ α) : Prop where
  since_le : p.since ≤ s.journal.length
  keeps : (C.terms base p.task p.since place).wp p.rest (C.ensures p.task p.since place)
    ⟨s.journal, p.drawn⟩

/-- A commit was due to the party that made it, by what it went by then. -/
def WasDue (s : Interleaving τ α) (earlier : List (Nat × ChangeSet)) (place : Nat)
    (c : ChangeSet) : Prop :=
  ∃ p drawn, s.parties[place]? = some p ∧ p.since ≤ earlier.length ∧ drawn <:+ p.drawn ∧
    C.owes p.task p.since place ⟨earlier, drawn⟩ c

structure Upheld (s : Interleaving τ α) : Prop where
  memory : s.memory = base.after s.journal
  orderly : base.Orderly s.journal
  places : ∀ p ∈ s.journal, p.1 < s.parties.length
  apart : ∀ (i j : Nat) (p q : Party τ α), s.parties[i]? = some p → s.parties[j]? = some q →
    i ≠ j → ∀ id ∈ p.drawn, id ∉ q.drawn
  working : ∀ (place : Nat) (p : Party τ α), s.parties[place]? = some p →
    C.Working base s place p
  due : ∀ earlier place c, earlier ++ [(place, c)] <+: s.journal → C.WasDue s earlier place c

end Charter

namespace Terms

variable {T : Terms} {α : Type}

/-- What is asked at a `Moment` is answered so that the condition holds, and the store moves on with
the journal. -/
theorem asks_reply {request : World.Request} {k : World.Reply request → View → Prop} {v : View}
    (h : T.asks request k v) (ho : T.base.Orderly v.journal) (w : Moment) (stopping : Bool)
    (hfresh : ∀ id ∈ w.drawn request, id ∉ (T.memory v).ids ∧ id ∉ v.drawn) :
    let made := ((T.memory v).accepted? request).toList
    k (w.reply stopping (T.memory v) request).1
        ⟨v.journal ++ made.map fun c => (T.place, c), w.drawn request ++ v.drawn⟩ ∧
      (w.reply stopping (T.memory v) request).2 =
        T.base.after (v.journal ++ made.map fun c => (T.place, c)) ∧
      ∀ c ∈ made, T.Due v c := by
  have hv := Later.refl (T := T) ho
  cases request with
  | store q =>
      cases q with
      | commit c =>
          obtain ⟨hrefused, haccepted⟩ := h v hv
          cases hf : (T.memory v).fault? c with
          | some e =>
              have hmade : (T.memory v).accepted? (.store (.commit c)) = none := by
                simp [Memory.accepted?, World.Request.changes?, hf]
              have hreply : w.reply stopping (T.memory v) (.store (.commit c)) =
                  (.error e, T.memory v) := by
                simp [Moment.reply, Memory.answer_commit_refused hf]
              rw [hmade, hreply]
              refine ⟨by simpa [Moment.drawn] using hrefused e hf, by simp [memory], by simp⟩
          | none =>
              have hmade : (T.memory v).accepted? (.store (.commit c)) = some c := by
                simp [Memory.accepted?, World.Request.changes?, hf]
              have hreply : w.reply stopping (T.memory v) (.store (.commit c)) =
                  (.ok (), (T.memory v).write c) := by
                simp [Moment.reply, Memory.answer_commit_accepted hf]
              obtain ⟨hdue, hk⟩ := haccepted hf
              rw [hmade, hreply]
              refine ⟨by simpa [Moment.drawn, View.push] using hk, ?_, by simpa using hdue⟩
              simp [Memory.after_concat, memory]
      | _ =>
          refine ⟨?_, ?_, by simp [Memory.accepted?, World.Request.changes?]⟩
          · simpa [Memory.accepted?, World.Request.changes?, Moment.drawn, Moment.reply] using
              h.2 v hv w.now
          · simpa [Memory.accepted?, World.Request.changes?, Moment.reply, memory] using
              h.1 (T.memory v) w.now
  | plan q =>
      obtain ⟨hread, hk⟩ := h
      obtain ⟨hnone, hsome⟩ := hk v hv
      refine ⟨?_, ?_, by simp [Memory.accepted?, World.Request.changes?]⟩
      · simp only [Memory.accepted?, World.Request.changes?, Moment.drawn, Moment.reply]
        split
        · simpa using hnone
        · simpa using hsome w.now
      · simp only [Memory.accepted?, World.Request.changes?, Moment.reply]
        split
        · simp [memory]
        · simpa [memory] using hread (T.memory v) w.now
  | freshId =>
      obtain ⟨hm, hd⟩ := hfresh w.id (by simp [Moment.drawn])
      refine ⟨?_, by simp [Memory.accepted?, World.Request.changes?, Moment.reply, memory],
        by simp [Memory.accepted?, World.Request.changes?]⟩
      simpa [Memory.accepted?, World.Request.changes?, Moment.drawn, Moment.reply, View.draw]
        using h v hv w.id hm hd
  | _ =>
      refine ⟨?_, by simp [Memory.accepted?, World.Request.changes?, Moment.reply, memory],
        by simp [Memory.accepted?, World.Request.changes?]⟩
      simpa [Memory.accepted?, World.Request.changes?, Moment.drawn, Moment.reply] using h _

end Terms

namespace Charter

variable {τ α : Type} {C : Charter τ α} {base : Memory} {s : Interleaving τ α}

theorem upheld_on : C.Upheld base (Interleaving.on base) where
  memory := rfl
  orderly := Memory.orderly_nil
  places := by simp [Interleaving.on]
  apart := by simp [Interleaving.on]
  working := by simp [Interleaving.on]
  due := by
    intro earlier place c h
    exact absurd (List.prefix_nil.mp h) (by simp)

theorem Upheld.ensures {C : Charter τ α} (h : C.Upheld base s) {place : Nat} {p : Party τ α}
    {a : α} (hp : s.parties[place]? = some p) (ha : p.answer? = some a) :
    C.ensures p.task p.since place a ⟨s.journal, p.drawn⟩ := by
  have hkeeps := (h.working place p hp).keeps
  rwa [Party.rest_eq_done ha] at hkeeps

theorem WasDue.answered {earlier : List (Nat × ChangeSet)} {n place : Nat} {c : ChangeSet}
    (h : C.WasDue s earlier n c) {p : Party τ α} (hp : s.parties[place]? = some p) (w : Moment)
    (request : World.Request) (next : World.Reply request → Program World α) :
    C.WasDue (s.answered place p w request next) earlier n c := by
  obtain ⟨q, drawn, hq, hle, hsuffix, howes⟩ := h
  by_cases hn : place = n
  · subst hn
    obtain rfl := Option.some.inj (hp.symm.trans hq)
    have hlt := (List.getElem?_eq_some_iff.mp hp).1
    refine ⟨_, drawn, List.getElem?_set_self hlt, hle, ?_, howes⟩
    exact hsuffix.trans (List.suffix_append ..)
  · exact ⟨q, drawn, (List.getElem?_set_ne hn).trans hq, hle, hsuffix, howes⟩

/-- What a party draws stays apart from what the others have drawn. -/
theorem Upheld.apart_answered (h : C.Upheld base s) {place : Nat} {p : Party τ α}
    (hp : s.parties[place]? = some p) {w : Moment} {request : World.Request}
    {next : World.Reply request → Program World α}
    (hnew : ∀ id ∈ w.drawn request, ∀ q ∈ s.parties, id ∉ q.drawn) {i j : Nat} {q r : Party τ α}
    (hq : (s.answered place p w request next).parties[i]? = some q)
    (hr : (s.answered place p w request next).parties[j]? = some r) (hij : i ≠ j) :
    ∀ id ∈ q.drawn, id ∉ r.drawn := by
  intro id hidq hidr
  rcases Interleaving.getElem?_answered hq with ⟨rfl, rfl⟩ | ⟨-, hq'⟩
  · rcases Interleaving.getElem?_answered hr with ⟨rfl, -⟩ | ⟨-, hr'⟩
    · exact hij rfl
    · rcases List.mem_append.mp hidq with hid | hid
      · exact hnew id hid r (List.mem_of_getElem? hr') hidr
      · exact h.apart _ _ p r hp hr' hij id hid hidr
  · rcases Interleaving.getElem?_answered hr with ⟨rfl, rfl⟩ | ⟨-, hr'⟩
    · rcases List.mem_append.mp hidr with hid | hid
      · exact hnew id hid q (List.mem_of_getElem? hq') hidq
      · exact h.apart _ _ q p hq' hp hij id hidq hid
    · exact h.apart i j q r hq' hr' hij id hidq hidr

variable [Task τ α]

theorem upheld_start (hC : C.Honoured base) (h : C.Upheld base s) (task : τ) :
    C.Upheld base (s.step (.start task)) where
  memory := h.memory
  orderly := h.orderly
  places := by
    intro p hp
    have := h.places p hp
    simp only [Interleaving.step, List.length_append, List.length_singleton]
    omega
  apart := by
    intro i j p q hp hq hij id hid
    rcases Interleaving.getElem?_concat_cases hp with hp | ⟨-, rfl⟩
    · rcases Interleaving.getElem?_concat_cases hq with hq | ⟨-, rfl⟩
      · exact h.apart i j p q hp hq hij id hid
      · exact List.not_mem_nil
    · exact absurd hid List.not_mem_nil
  working := by
    intro place p hp
    rcases Interleaving.getElem?_concat_cases hp with hp | ⟨rfl, rfl⟩
    · exact ⟨(h.working place p hp).since_le, (h.working place p hp).keeps⟩
    · refine ⟨Nat.le_refl _, hC.start task _ ⟨s.journal, []⟩ h.orderly rfl fun p hp => ?_⟩
      exact Nat.ne_of_lt (h.places p hp)
  due := by
    intro earlier place c hpre
    obtain ⟨p, drawn, hp, hdue⟩ := h.due earlier place c hpre
    refine ⟨p, drawn, ?_, hdue⟩
    have hlt := (List.getElem?_eq_some_iff.mp hp).1
    simp only [Interleaving.step]
    rw [List.getElem?_append_left hlt, hp]

theorem upheld_stop (h : C.Upheld base s) (place : Nat) :
    C.Upheld base (s.step (.stop place)) where
  memory := h.memory
  orderly := h.orderly
  places := by simpa [Interleaving.step] using h.places
  apart := by
    intro i j p q hp hq hij
    obtain ⟨p', hp', -, -, hdp, -⟩ := Interleaving.getElem?_stop hp
    obtain ⟨q', hq', -, -, hdq, -⟩ := Interleaving.getElem?_stop hq
    rw [hdp, hdq]
    exact h.apart i j p' q' hp' hq' hij
  working := by
    intro n q hq
    obtain ⟨p, hp, htask, hsince, hdrawn, hrest⟩ := Interleaving.getElem?_stop hq
    obtain ⟨hle, hkeeps⟩ := h.working n p hp
    constructor
    · rw [hsince]
      exact hle
    · rw [htask, hsince, hdrawn, hrest]
      exact hkeeps
  due := by
    intro earlier n c hpre
    obtain ⟨p, drawn, hp, hsince, hdrawn, howes⟩ := h.due earlier n c hpre
    refine ⟨if place = n then { p with stopping := true } else p, drawn, ?_, ?_⟩
    · simp only [Interleaving.step, List.getElem?_modify, hp]
      rfl
    · split <;> exact ⟨hsince, hdrawn, howes⟩

theorem upheld_answered (hC : C.Honoured base) (h : C.Upheld base s) {place : Nat}
    {p : Party τ α} (hp : s.parties[place]? = some p) {w : Moment} {request : World.Request}
    {next : World.Reply request → Program World α} (hrest : p.rest = .ask request next)
    (hnew : ∀ id ∈ w.drawn request, id ∉ s.memory.ids ∧ ∀ q ∈ s.parties, id ∉ q.drawn) :
    C.Upheld base (s.answered place p w request next) := by
  have hlt := (List.getElem?_eq_some_iff.mp hp).1
  obtain ⟨hsince, hkeeps⟩ := h.working place p hp
  rw [hrest, Terms.wp] at hkeeps
  have hmem : (C.terms base p.task p.since place).memory ⟨s.journal, p.drawn⟩ = s.memory :=
    h.memory.symm
  obtain ⟨hnext, hstore, hdue⟩ := Terms.asks_reply hkeeps h.orderly w p.stopping (by
    intro id hid
    rw [hmem]
    exact ⟨(hnew id hid).1, (hnew id hid).2 p (List.mem_of_getElem? hp)⟩)
  rw [hmem] at hnext hstore hdue
  -- the journal grows by at most one commit, and that one was due to this party
  have horderly : base.Orderly (s.answered place p w request next).journal := by
    unfold Interleaving.answered
    cases hmade : s.memory.accepted? request with
    | none => simpa using h.orderly
    | some c =>
        exact Memory.orderly_concat_iff.mpr ⟨h.orderly, (hdue c (by simp [hmade])).admissible⟩
  have hgrown : s.journal.length ≤ (s.answered place p w request next).journal.length := by
    simp [Interleaving.answered]
  refine ⟨hstore, horderly, ?_, ?_, ?_, ?_⟩
  · intro q hq
    have hlen : (s.answered place p w request next).parties.length = s.parties.length :=
      List.length_set
    rw [hlen]
    rcases List.mem_append.mp hq with hq | hq
    · exact h.places q hq
    · obtain ⟨c, -, rfl⟩ := List.mem_map.mp hq
      exact hlt
  · intro i j q r hq hr hij
    exact h.apart_answered hp (fun id hid => (hnew id hid).2) hq hr hij
  · intro n q hq
    rcases Interleaving.getElem?_answered hq with ⟨rfl, rfl⟩ | ⟨hn, hq⟩
    · exact ⟨hsince.trans hgrown, hnext⟩
    · obtain ⟨hle, hkeeps'⟩ := h.working n q hq
      refine ⟨hle.trans hgrown, Terms.stable_wp (hC.stable q.task q.since n) q.rest _ _ ?_ hkeeps'⟩
      refine ⟨rfl, horderly, _, rfl, fun r hr => ?_⟩
      obtain ⟨c, hc, rfl⟩ := List.mem_map.mp hr
      exact ⟨hn.symm, fun e he => h.apart place n p q hp hq hn.symm e.id ((hdue c hc).own e he)⟩
  · intro earlier n c hpre
    unfold Interleaving.answered at hpre
    cases hmade : s.memory.accepted? request with
    | none =>
        rw [hmade] at hpre
        exact (h.due earlier n c (by simpa using hpre)).answered hp w request next
    | some c' =>
        rw [hmade] at hpre
        rcases List.prefix_concat_iff.mp hpre with heq | hpre
        · obtain ⟨rfl, hlast⟩ := List.append_inj' heq rfl
          obtain ⟨rfl, rfl⟩ := Prod.mk.inj (List.cons.inj hlast).1
          have howes := (hdue c (by simp [hmade])).owes
          have hnow : C.WasDue s s.journal n c :=
            ⟨p, p.drawn, hp, hsince, List.suffix_refl _, howes⟩
          exact hnow.answered hp w request next
        · exact (h.due earlier n c hpre).answered hp w request next

theorem upheld_act (hC : C.Honoured base) (h : C.Upheld base s) (place : Nat) (w : Moment) :
    C.Upheld base (s.act place w) := by
  rcases s.act_cases place w with heq | ⟨p, request, next, hp, hrest, hnew, heq⟩
  · rw [heq]
    exact h
  · rw [heq]
    exact upheld_answered hC h hp hrest hnew

theorem upheld_run (hC : C.Honoured base) (steps : List (Interleaving.Step τ)) :
    C.Upheld base ((Interleaving.on base).run steps) := by
  induction steps using List.reverseRecOn with
  | nil => exact upheld_on
  | append_singleton steps step ih =>
      have hstep : (Interleaving.on base).run (steps ++ [step]) =
          ((Interleaving.on base).run steps).step step := by
        simp [Interleaving.run]
      rw [hstep]
      cases step with
      | start task => exact upheld_start hC ih task
      | stop place => exact upheld_stop ih place
      | act place w => exact upheld_act hC ih place w

end Charter

end BalanceLedger
