import Mathlib.Algebra.GroupWithZero.Nat
import Dctl.ProofKit.Crowd
import Dctl.Store.Error

/-! The retry loop of the storage layer: what an error says about the far end (`retry/observed.rs`),
whether another attempt can help (`retry/classify.rs`), how long to wait (`retry/backoff.rs`), and
the loop that asks (`retry/driver.rs`).  Times are counted in nanoseconds. -/

namespace Dctl.Store.Retry

open ProofKit

def durationMax : Nat := 2 ^ 64 * 1000000000 - 1

def u32Max : Nat := 2 ^ 32 - 1

def u64Max : Nat := 2 ^ 64 - 1

/-- What one attempt learned about whether the far end is there at all. -/
inductive Reach where
  | silent
  | answered
  | unknown
  deriving DecidableEq, Repr

structure Observed where
  status : Option Nat
  code : Option String
  retryAfter : Option Nat
  transient : Bool
  reach : Reach
  alreadyAttempted : Option Nat
  deriving DecidableEq, Repr

def survivable : ErrorKind → Bool
  | .brokenPipe | .timedOut | .connectionRefused | .connectionAborted | .connectionReset
  | .hostUnreachable | .networkUnreachable | .networkDown | .wouldBlock | .interrupted
  | .unexpectedEof => true
  | .notFound | .permissionDenied | .other => false

def isTransientIo (e : IoError) : Bool := survivable e.kind || e.rawOsError = some 11

namespace Observed

/-- A failure where nothing answered. -/
def transport : Observed := ⟨none, none, none, true, .silent, none⟩

/-- A failure nothing about which suggests another attempt would differ. -/
def terminal : Observed := ⟨none, none, none, false, .unknown, none⟩

/-- A terminal failure the far end produced. -/
def answered : Observed := { terminal with reach := .answered }

def of : StoreError → Observed
  | .provider _ status code retryAfterSecs =>
    ⟨some status, some code, retryAfterSecs.map (· * 1000000000), false, .answered, none⟩
  | .transport .. => transport
  | .io e => { answered with transient := isTransientIo e }
  | .retried attempts source =>
    { of source with alreadyAttempted := some attempts, reach := .unknown }
  | .runDeadline _ | .stalled .. | .backend _ => terminal
  | .notFound _ | .bucketNotFound _ | .checksumMismatch .. | .shortWrite .. | .invalidKey _
  | .rangeOutOfBounds _ | .rootChanged .. | .refused .. => answered

end Observed

structure RetryPolicy where
  maxAttempts : Nat
  firstBackoff : Nat
  maxBackoff : Nat
  retryAfterCap : Nat
  totalBudget : Nat
  understandsHttp : Bool
  deriving DecidableEq, Repr

namespace RetryPolicy

def network : RetryPolicy where
  maxAttempts := 6
  firstBackoff := 500000000
  maxBackoff := 8000000000
  retryAfterCap := 60000000000
  totalBudget := 120000000000
  understandsHttp := true

def retriesStatus (p : RetryPolicy) (status : Nat) : Bool :=
  p.understandsHttp && (500 ≤ status || status = 408 || status = 429)

end RetryPolicy

/-- Whether another attempt can change the outcome, and how long to wait first. -/
inductive Verdict where
  | after (delay : Nat)
  | never
  deriving DecidableEq, Repr

/-- The deterministic delay before the attempt following the `attempt`-th.  The shift drops what is
beyond 32 bits. -/
def backoff (attempt : Nat) (policy : RetryPolicy) : Nat :=
  let factor := if attempt - 1 < 32 then 2 ^ (attempt - 1) else u32Max
  let doubled := policy.firstBackoff * factor
  min (if doubled ≤ durationMax then doubled else policy.maxBackoff) policy.maxBackoff

def delayFor (observed : Observed) (attempt : Nat) (policy : RetryPolicy) : Option Nat :=
  match observed.status with
  | none => if observed.transient then some (backoff attempt policy) else none
  | some status =>
    if policy.retriesStatus status then
      some <| match observed.retryAfter with
        | none => backoff attempt policy
        | some after => min after policy.retryAfterCap
    else none

/-- Decide whether the `attempt`-th try failing as `observed` should be followed by another, given
that `waited` has already been spent waiting. -/
def verdict (observed : Observed) (attempt waited : Nat) (policy : RetryPolicy) : Verdict :=
  if observed.alreadyAttempted.isSome then .never
  else if policy.maxAttempts ≤ attempt then .never
  else if policy.totalBudget ≤ waited then .never
  else match delayFor observed attempt policy with
    | none => .never
    | some delay => .after (min delay (policy.totalBudget - waited))

theorem lt_maxAttempts_of_verdict {observed : Observed} {attempt waited delay : Nat}
    {policy : RetryPolicy} (h : verdict observed attempt waited policy = .after delay) :
    attempt < policy.maxAttempts := by
  rw [verdict] at h
  split at h
  next => cases h
  next =>
    split at h
    next => cases h
    next hattempt => omega

/-- Spread `delay` over its second half, using `entropy` to pick a point. -/
def jittered (delay entropy : Nat) : Nat :=
  let nanos := min delay u64Max
  let floor := nanos / 2 * 1
  let window := nanos - floor
  if window = 0 then delay else min (floor + entropy % min (window + 1) u64Max) u64Max

def record (error : StoreError) (attempts : Nat) : StoreError :=
  match error with
  | .retried .. => error
  | _ => if attempts ≤ 1 then error else .retried attempts error

structure Bound where
  limit : Nat
  endsAt : Nat
  deriving DecidableEq

abbrev RunDeadline := Option Bound

namespace RunDeadline

def exceeded (deadline : RunDeadline) (now : Nat) : Option StoreError :=
  deadline.bind fun bound => if bound.endsAt ≤ now then some (.runDeadline bound.limit) else none

def shorten (deadline : RunDeadline) (now wait : Nat) : Nat :=
  match deadline with
  | none => wait
  | some bound => min wait (bound.endsAt - now)

end RunDeadline

/-- The run's count of attempts that got no answer. -/
structure Stall where
  idle : Nat
  limit : Nat
  unanswered : Nat
  deriving DecidableEq

/-- The count that every layer of a run shares, or nothing when `--timeout 0` bounds it by nothing.
-/
abbrev RunStall := Option Stall

namespace RunStall

def unansweredAttemptLimit : Nat := 6

def fromIdle (idle : Option Nat) : RunStall := idle.map (⟨·, unansweredAttemptLimit, 0⟩)

def answered (stall : RunStall) : RunStall := stall.map ({ · with unanswered := 0 })

/-- An attempt got nothing back.  The counter is an atomic of 32 bits. -/
def unanswered (stall : RunStall) : RunStall :=
  stall.map fun s => { s with unanswered := (s.unanswered + 1) % 2 ^ 32 }

def exhausted (stall : RunStall) : Option StoreError :=
  stall.bind fun s => if s.limit ≤ s.unanswered then some (.stalled s.unanswered s.idle) else none

end RunStall

/-- What the loop asks of the clock, of the run's count and of the operation. -/
inductive RetryRequest where
  | clock
  | exhausted
  | attempt (number : Nat)
  | answered
  | unanswered
  | entropy
  | sleep (delay : Nat)
  deriving DecidableEq

@[reducible] def RetryRequest.Answer (V : Type) : RetryRequest → Type
  | .clock | .entropy => Nat
  | .exhausted => Option StoreError
  | .attempt _ => Except StoreError V
  | .answered | .unanswered | .sleep _ => Unit

variable {V : Type}

abbrev RetryM (V α : Type) := Prog.Fallible RetryRequest (RetryRequest.Answer V) StoreError α

def orFail : Option StoreError → RetryM V Unit
  | none => return ()
  | some e => throw e

/-- No attempt is begun once the window has closed, or once the run has stopped asking. -/
def permitted (deadline : RunDeadline) : RetryM V Unit := do
  orFail (deadline.exceeded (← Prog.query .clock))
  orFail (← Prog.query .exhausted)

/-- Tell the run's count what a failure says about the far end. -/
def note : Reach → RetryM V Unit
  | .silent => Prog.query RetryRequest.unanswered
  | .answered => Prog.query RetryRequest.answered
  | .unknown => return ()

def spread (observed : Observed) (scheduled : Nat) : RetryM V Nat :=
  if observed.retryAfter.isSome then return scheduled
  else do return jittered scheduled (← Prog.query .entropy)

def pause (deadline : RunDeadline) (observed : Observed) (scheduled : Nat) : RetryM V Nat := do
  let delay ← spread observed scheduled
  let delay := deadline.shorten (← Prog.query .clock) delay
  let _ ← Prog.query (.sleep delay)
  return delay

/-- The attempts from the `number`-th on, when `waited` was spent waiting. -/
def attempts (policy : RetryPolicy) (deadline : RunDeadline) (number waited : Nat) :
    RetryM V V := do
  permitted deadline
  Prog.query (.attempt number) >>= fun (x : Except StoreError V) => match x with
    | .ok value => Prog.query .answered >>= fun _ => return value
    | .error e => note (Observed.of e).reach >>= fun _ =>
      match _h : verdict (Observed.of e) number waited policy with
      | .never => throw (record e number)
      | .after scheduled => pause deadline (Observed.of e) scheduled >>= fun delay =>
        attempts policy deadline (number + 1) (min (waited + delay) durationMax)
termination_by policy.maxAttempts - number
decreasing_by
  have := lt_maxAttempts_of_verdict _h
  omega

/-- Run an operation until it succeeds, until another attempt cannot help, until the budget is
spent, or until the run is over. -/
def run (policy : RetryPolicy) (deadline : RunDeadline) : RetryM V V := attempts policy deadline 1 0

end Dctl.Store.Retry
