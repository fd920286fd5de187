/-
# `Program` — computations that ask their surroundings

Operations of the ledger read a store, read a clock, draw identifiers and write
log lines.  A program is such an operation as a tree: it is done, or it asks one
request and goes on with the reply.  Between two requests nothing happens, so the
requests are the points at which other operations can come in between, and one
program can be run against different surroundings: a store in memory, the wire of
a database, a scripted failure.
-/

namespace BalanceLedger

/-- What a program can ask, and what it gets in reply. -/
structure Interface where
  Request : Type
  Reply : Request → Type

/-- A computation that asks requests of an interface. -/
inductive Program (I : Interface) (α : Type) where
  | done (a : α)
  | ask (request : I.Request) (next : I.Reply request → Program I α)

namespace Program

variable {I J : Interface} {α β : Type}

protected def bind : Program I α → (α → Program I β) → Program I β
  | done a, f => f a
  | ask request next, f => ask request fun reply => (next reply).bind f

instance : Monad (Program I) where
  pure := done
  bind := Program.bind

def call (request : I.Request) : Program I (I.Reply request) :=
  ask request done

def run {m : Type → Type} [Monad m] (handle : (request : I.Request) → m (I.Reply request)) :
    Program I α → m α
  | done a => pure a
  | ask request next => handle request >>= fun reply => (next reply).run handle

/-- Answer each request by a program of another interface. -/
def through (handle : (request : I.Request) → Program J (I.Reply request)) :
    Program I α → Program J α
  | done a => done a
  | ask request next => (handle request).bind fun reply => (next reply).through handle

@[simp] theorem bind_done (a : α) (f : α → Program I β) : (done a).bind f = f a := rfl

@[simp] theorem bind_ask (request : I.Request) (next : I.Reply request → Program I α)
    (f : α → Program I β) :
    (ask request next).bind f = ask request fun reply => (next reply).bind f := rfl

theorem bind_assoc {γ : Type} (p : Program I α) (f : α → Program I β) (g : β → Program I γ) :
    (p.bind f).bind g = p.bind fun a => (f a).bind g := by
  induction p with
  | done a => rfl
  | ask request next ih => simp only [bind_ask, ih]

theorem bind_done_right (p : Program I α) : p.bind done = p := by
  induction p with
  | done a => rfl
  | ask request next ih => simp only [bind_ask, ih]

instance : LawfulMonad (Program I) :=
  LawfulMonad.mk' (Program I) bind_done_right (fun _ _ => rfl) bind_assoc

end Program

end BalanceLedger
