/-
# `Operation.Retry` — attempts that lose a race are made again

Two operations on one slot can plan on the same version; the one that commits
second is refused and has to plan again from what is stored now.  Each attempt
is a whole one: it reads everything afresh.  Between attempts there is a pause,
which grows with their number and has a random part.  Its length is counted in
milliseconds in a 64-bit word, as `RetryPolicy.pause` computes it; where a policy has
steps so long that they do not fit, the word wraps around.
-/
import BalanceLedger.Operation.Basic

namespace BalanceLedger

open Time (Span)

/-- How often an operation is attempted, and how long it pauses in between. -/
structure RetryPolicy where
  maxAttempts : Nat := 5
  /-- The step of the pauses, and the limit of their random part. -/
  baseDelay : Span := .ofMillis 10
deriving DecidableEq, Repr

namespace RetryPolicy

/-- So many attempts, but at least one. -/
def ofAttempts (n : Nat) : RetryPolicy :=
  { maxAttempts := max 1 n }

def attempts (p : RetryPolicy) : Nat :=
  max 1 p.maxAttempts

/-- The step of the pauses in milliseconds, as far as it fits into a word. -/
def step (p : RetryPolicy) : UInt64 :=
  .ofNat p.baseDelay.millis

/-- The milliseconds of the pause after an attempt: as many times `step` as there have been
attempts, and a random part of at most one more. -/
def pause (p : RetryPolicy) (attempt : Nat) (extra : Fin (p.step.toNat + 1)) : UInt64 :=
  p.step * .ofNat attempt + .ofNat extra.val

end RetryPolicy

namespace Operation

variable {α : Type}

/-- Pause after a lost race. -/
def backOff (policy : RetryPolicy) (name : String) (attempt : Nat) : Program World Unit := do
  let extra ← Program.call (I := World) (.jitter policy.step.toNat)
  let delay := (policy.pause attempt extra).toNat
  World.log .warn "Concurrency conflict, retrying"
    [("operation", .str name), ("attempt", .nat attempt), ("max_attempts", .nat policy.attempts),
      ("delay_ms", .nat delay)]
  Program.call (I := World) (.pause (.ofMillis delay))

/-- Make an attempt, and up to `left` more for as long as the races are lost. -/
def retryFrom (policy : RetryPolicy) (name : String) (once : Operation α) (attempt : Nat) :
    (left : Nat) → Operation α
  | 0 =>
    tryCatch once fun e => do
      if e.isVersionConflict then
        World.log .error "Concurrency retries exhausted"
          [("operation", .str name), ("attempts", .nat attempt)]
        throw (.exhausted attempt)
      else throw e
  | left + 1 =>
    tryCatch once fun e => do
      if e.isVersionConflict then
        backOff policy name attempt
        retryFrom policy name once (attempt + 1) left
      else throw e

/-- Make an attempt again for as long as it loses the race and the policy allows, with a `backOff`
in between. -/
def retrying (policy : RetryPolicy) (name : String) (once : Operation α) : Operation α :=
  retryFrom policy name once 1 (policy.attempts - 1)

end Operation

end BalanceLedger
