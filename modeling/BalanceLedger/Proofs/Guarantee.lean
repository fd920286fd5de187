/-
# `Proofs.Guarantee` — what a program guarantees among others

A party does not see the steps of the others; between two of its own requests the
journal may have grown.  It can rely on this much, and `Terms.Later` says it: the
journal stays orderly, no commit of the others is made in its name, and no entry of
theirs bears an identifier that it has drawn.  In return it owes the others the same,
and what its terms add to that, each time it commits: `Terms.Due`.

`Terms.wp` says that a program, from what its party knows now, keeps these terms
whatever the surroundings answer and however the journal grows meanwhile, and that a
condition holds of its answer.  It is computed along the program, one rule of
`Terms.asks` for each kind of request, so an operation is proved by going through its
text.  By `wp_eq` it is the precondition of any other conduct, and the lemmas about
those serve here too.

The point is `stable_wp`.  A precondition that holds now still holds when the others
have gone on, if the condition at the end does, so nothing has to be said about the
steps of the others where a program is proved.  A plain precondition over the store
would not do: what has been read from the store is not there any more when it is used,
and only the journal tells what of it still holds.
-/
import BalanceLedger.Proofs.Conduct
import BalanceLedger.Proofs.Journal

namespace BalanceLedger

open Store (ChangeSet Memory)

/-- What a party goes by: the commits so far, and the identifiers it has drawn. -/
structure View where
  journal : List (Nat × ChangeSet)
  drawn : List Uuid

namespace View

def push (v : View) (place : Nat) (c : ChangeSet) : View :=
  { v with journal := v.journal ++ [(place, c)] }

def draw (v : View) (id : Uuid) : View :=
  { v with drawn := id :: v.drawn }

end View

/-- The terms on which a party works: the store at the beginning, the place of the party, and
what it owes the others when it commits. -/
structure Terms where
  base : Memory
  place : Nat
  owes : View → ChangeSet → Prop

namespace Terms

variable (T : Terms)

def memory (v : View) : Memory :=
  T.base.after v.journal

/-- The others may have gone on. -/
structure Later (v w : View) : Prop where
  drawn : w.drawn = v.drawn
  orderly : T.base.Orderly w.journal
  others : ∃ more, w.journal = v.journal ++ more ∧
    ∀ p ∈ more, p.1 ≠ T.place ∧ ∀ e, p.2.entry = some e → e.id ∉ v.drawn

/-- What is due when a change set is committed. -/
structure Due (v : View) (c : ChangeSet) : Prop where
  admissible : (T.memory v).Admissible c
  own : ∀ e, c.entry = some e → e.id ∈ v.drawn
  owes : T.owes v c

/-- A condition that the others cannot break, going on as `Later` allows. -/
def Stable {α : Type} (Q : α → View → Prop) : Prop :=
  ∀ a v w, T.Later v w → Q a v → Q a w

/-- What has to hold before a request, so that a condition holds of every reply to it and of what
the party goes by then.  Before a commit that is what is `Due`. -/
def asks : (request : World.Request) → (World.Reply request → View → Prop) → View → Prop
  | .store (.commit c), k, v => ∀ w, T.Later v w →
      (∀ e, (T.memory w).fault? c = some e → k (.error e) w) ∧
        ((T.memory w).fault? c = none → T.Due w c ∧ k (.ok ()) (w.push T.place c))
  | .store q, k, v =>
      (∀ m now, (Memory.answer m now q).2 = m) ∧
        ∀ w, T.Later v w → ∀ now, k ((T.memory w).answer now q).1 w
  | .plan q, k, v =>
      (∀ m now, (Memory.answer m now q).2 = m) ∧
        ∀ w, T.Later v w → k none w ∧ ∀ now, k (some ((T.memory w).answer now q).1) w
  | .freshId, k, v => ∀ w, T.Later v w →
      ∀ id, id ∉ (T.memory w).ids → id ∉ w.drawn → k id (w.draw id)
  | .stopping, k, v => ∀ x, k x v
  | .clock, k, v => ∀ x, k x v
  | .jitter _, k, v => ∀ x, k x v
  | .pause _, k, v => ∀ x, k x v
  | .timer, k, v => ∀ x, k x v
  | .waitUntil _, k, v => ∀ x, k x v
  | .publish _, k, v => ∀ x, k x v
  | .log _, k, v => ∀ x, k x v

/-- The program keeps the terms, and the condition holds in the end. -/
def wp {α : Type} : Program World α → (α → View → Prop) → View → Prop
  | .done a, Q, v => Q a v
  | .ask request next, Q, v => T.asks request (fun x w => wp (next x) Q w) v

variable {T} {α β : Type}

/-! ## Going on -/

theorem Later.refl {v : View} (h : T.base.Orderly v.journal) : T.Later v v where
  drawn := rfl
  orderly := h
  others := ⟨[], by simp, by simp⟩

theorem Later.trans {u v w : View} (huv : T.Later u v) (hvw : T.Later v w) : T.Later u w where
  drawn := hvw.drawn.trans huv.drawn
  orderly := hvw.orderly
  others := by
    obtain ⟨more, hv, hmore⟩ := huv.others
    obtain ⟨rest, hw, hrest⟩ := hvw.others
    refine ⟨more ++ rest, by rw [hw, hv, List.append_assoc], fun p hp => ?_⟩
    rcases List.mem_append.mp hp with h | h
    · exact hmore p h
    · rw [huv.drawn] at hrest
      exact hrest p h

theorem Later.grown {v w : View} (h : T.Later v w) : v.journal <+: w.journal := by
  obtain ⟨more, hw, -⟩ := h.others
  exact ⟨more, hw.symm⟩

theorem asks_mono {request : World.Request} {k k' : World.Reply request → View → Prop}
    (hk : ∀ x w, k x w → k' x w) {v : View} (h : T.asks request k v) : T.asks request k' v := by
  cases request with
  | store q =>
      cases q with
      | commit c =>
          intro w hw
          obtain ⟨hfault, hok⟩ := h w hw
          exact ⟨fun e he => hk _ _ (hfault e he), fun hn => (hok hn).imp id (hk _ _)⟩
      | _ => exact ⟨h.1, fun w hw now => hk _ _ (h.2 w hw now)⟩
  | plan q => exact ⟨h.1, fun w hw => ⟨hk _ _ (h.2 w hw).1, fun now => hk _ _ ((h.2 w hw).2 now)⟩⟩
  | freshId =>
      intro w hw id hm hd
      exact hk _ _ (h w hw id hm hd)
  | _ => exact fun x => hk _ _ (h x)

theorem asks_later {request : World.Request} {k : World.Reply request → View → Prop}
    (hk : T.Stable k) {v w : View} (hvw : T.Later v w) (h : T.asks request k v) :
    T.asks request k w := by
  cases request with
  | store q =>
      cases q with
      | commit c =>
          intro u hu
          exact h u (hvw.trans hu)
      | _ => exact ⟨h.1, fun u hu => h.2 u (hvw.trans hu)⟩
  | plan q => exact ⟨h.1, fun u hu => h.2 u (hvw.trans hu)⟩
  | freshId =>
      intro u hu
      exact h u (hvw.trans hu)
  | _ => exact fun x => hk _ _ _ hvw (h x)

theorem mono_asks : Program.MonoAsks (I := World) T.asks :=
  fun _ _ _ _ hk h => asks_mono hk h

/-- To keep terms is a precondition, computed along the program. -/
theorem wp_eq (p : Program World α) (Q : α → View → Prop) : T.wp p Q = p.wp T.asks Q := by
  induction p with
  | done a => rfl
  | ask request next ih => exact congrArg (T.asks request) (funext ih)

theorem wp_mono {Q Q' : α → View → Prop} (hQ : ∀ a v, Q a v → Q' a v) {p : Program World α}
    {v : View} (h : T.wp p Q v) : T.wp p Q' v := by
  rw [wp_eq] at h ⊢
  exact Program.wp_mono mono_asks hQ p v h

/-- What a program keeps it still keeps when the others have gone on, if the condition is `Stable`.
-/
theorem stable_wp {Q : α → View → Prop} (hQ : T.Stable Q) (p : Program World α) :
    ∀ v w, T.Later v w → T.wp p Q v → T.wp p Q w := by
  induction p with
  | done a => exact hQ a
  | ask request next ih =>
      intro v w hvw h
      exact asks_later ih hvw h

theorem wp_bind {p : Program World α} {f : α → Program World β} {Q : β → View → Prop} {v : View}
    (h : T.wp p (fun a w => T.wp (f a) Q w) v) : T.wp (p.bind f) Q v := by
  simp only [wp_eq] at h ⊢
  rw [Program.wp_bind]
  exact h

end Terms

end BalanceLedger
