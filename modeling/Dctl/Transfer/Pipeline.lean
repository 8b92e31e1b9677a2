import Dctl.ProofKit.Lanes
import Dctl.Transfer.Plan

/-! The ceiling of `--max-transfer` (`limits/budget.rs`), the steps of one file (`pipeline.rs`,
`retry.rs`) and the record that the run keeps of it (`audit/sink.rs`).  What the storage, the clock
and the audit log do is asked of a server. -/

namespace Dctl.Transfer

open Cli

@[simp, reducible] def u64Max : Nat := 2 ^ 64 - 1

def saturatingAdd (a b : Nat) : Nat := min (a + b) u64Max

def maxTransferLimitReached : String := "stopped at the --max-transfer limit"

def maxTransferLimitHint : String :=
  "Everything already transferred is committed and verified, and no partially-written object was "
    ++
  "left anywhere: a file is never started unless the whole of it fits within the limit. Re-run the "
    ++
  "same command to continue — it will move only what has not landed yet — or raise --max-transfer."

structure Budget where
  /-- The ceiling, or `none` when the run is uncapped. -/
  limit : Option Nat
  spent : Nat
  deriving DecidableEq, Repr

namespace Budget

def new (limit : Option Nat) : Budget := ⟨limit, 0⟩

/-- Claim `bytes` of the ceiling for a file about to start, or refuse the run.  `display` is how a
byte count is shown. -/
def afford (display : Nat → String) (budget : Budget) (bytes : Nat) (subject : String) :
    Except CliError Unit × Budget :=
  match budget.limit with
  | none => (.ok (), budget)
  | some limit =>
    if bytes = 0 then (.ok (), budget)
    else
      let next := saturatingAdd budget.spent bytes
      if next ≤ limit then (.ok (), { budget with spent := next })
      else
        (.error (CliError.withHint
          { code := .transferLimitExceeded
            message := maxTransferLimitReached ++ ": " ++ display budget.spent ++ " of " ++
              display limit ++ " moved; '" ++ subject ++ "' would need " ++ display bytes ++
              " more" }
          maxTransferLimitHint), budget)

def settle (budget : Budget) (reserved actual : Nat) : Budget :=
  let held := if budget.limit.isSome then reserved else 0
  { budget with spent := saturatingAdd (budget.spent - held) actual }

variable {display : Nat → String} {budget : Budget} {bytes limit : Nat}
  {subject : String}

@[simp] theorem afford_limit : (budget.afford display bytes subject).2.limit = budget.limit := by
  rw [afford]
  split
  · rfl
  · split
    · rfl
    · simp only
      split <;> rfl

theorem afford_cases (h : budget.limit = some limit) :
    (budget.afford display bytes subject).1 = .ok () ∧
        ((bytes = 0 ∧ (budget.afford display bytes subject).2 = budget) ∨
          (saturatingAdd budget.spent bytes ≤ limit ∧
            (budget.afford display bytes subject).2 =
              { budget with spent := saturatingAdd budget.spent bytes })) ∨
      (∃ e : CliError, e.code = .transferLimitExceeded ∧
        budget.afford display bytes subject = (.error e, budget)) := by
  rw [afford, h]
  simp only
  split
  · exact Or.inl ⟨rfl, Or.inl ⟨by assumption, rfl⟩⟩
  · split
    · exact Or.inl ⟨rfl, Or.inr ⟨by assumption, rfl⟩⟩
    · exact Or.inr ⟨_, rfl, rfl⟩

theorem afford_error {e : CliError} (h : (budget.afford display bytes subject).1 = .error e) :
    e.code = .transferLimitExceeded := by
  cases hlimit : budget.limit with
  | none =>
    rw [afford, hlimit] at h
    cases h
  | some limit =>
    rcases afford_cases hlimit with ⟨hok, -⟩ | ⟨e', he, hb⟩
    · rw [hok] at h
      cases h
    · rw [hb] at h
      cases h
      exact he

theorem afford_spent_le (h : budget.limit = some limit) (hs : budget.spent ≤ limit) :
    (budget.afford display bytes subject).2.spent ≤ limit := by
  rcases afford_cases h with ⟨-, ⟨-, hb⟩ | ⟨hle, hb⟩⟩ | ⟨e, -, hb⟩
  · rw [hb]
    exact hs
  · rw [hb]
    exact hle
  · rw [hb]
    exact hs

end Budget

end Dctl.Transfer

namespace Dctl.Transfer

open Cli ProofKit

@[simp, reducible] def u32Max : Nat := 2 ^ 32 - 1

inductive VerifyMode where
  | checksum
  | sample
  | strict
  deriving DecidableEq, Repr

/-- Which way bytes crossed the boundary of the remote a record names. -/
inductive Direction where
  | into
  | out
  | internal
  deriving DecidableEq, Repr

/-- The side a reaper deletes from. -/
inductive Target where
  | source
  | destination
  deriving DecidableEq, Repr

def Target.label : Target → String
  | source => "source"
  | destination => "destination"

structure AuditEntry where
  op : String
  outcome : ExitCode
  path : String
  size : Nat := 0
  moved : Option (Direction × Nat) := none
  objects : Nat
  plaintextHash : String := ""
  remote : String
  deriving DecidableEq, Repr

/-- An entry of a plan with its place there.  The source hands out a reference to the entry. -/
structure Planned where
  index : Nat
  entry : PlanEntry
  deriving DecidableEq, Repr

/-- `entry.size.unwrap_or_default()`. -/
def Planned.size (e : Planned) : Nat := e.entry.size.getD 0

/-- The requests of a run.  The stages of a file are named with the attempt they belong to. -/
inductive Request where
  | deadline (subject : String)
  | afford (e : Planned)
  | settle (e : Planned) (actual : Nat)
  | read (attempt : Nat) (e : Planned)
  | encrypt (attempt : Nat) (e : Planned)
  | upload (attempt : Nat) (e : Planned)
  | verify (attempt : Nat) (e : Planned) (mode : VerifyMode)
  | commit (attempt : Nat) (e : Planned)
  | createDir (e : Planned)
  | takePlaintextHash (e : Planned)
  | remove (target : Target) (path : String)
  | append (entry : AuditEntry)
  | fileDone (e : Planned)
  | recordFailure (subject : String) (error : CliError)
  deriving DecidableEq

/-- The answers.  A deadline that has passed is answered with how it is reported. -/
@[reducible] def Answer : Request → Type
  | .deadline _ => Option String
  | .upload .. => Except CliError Nat
  | .settle .. => Unit
  | .takePlaintextHash _ => String
  | .fileDone _ => Unit
  | .recordFailure .. => Unit
  | _ => Except CliError Unit

abbrev Job (α : Type) : Type := Prog.Fallible Request Answer CliError α

def ensure (r : Request) (check : Answer r → Except CliError α) : Job α := do
  let x ← Prog.query r
  Prog.ofExcept (check x)

/-- What a run was set up with: its flags and the driver of its destination. -/
structure Ctx where
  retries : Nat
  transfers : Nat
  /-- Whether the audit log records this run. -/
  recording : Bool
  auditPath : String
  verifyMode : VerifyMode
  direction : Direction
  remote : String
  /-- The remote that the reaper of each side names. -/
  reaperRemote : Target → String

def isFatal (error : CliError) : Bool :=
  match error.code with
  | .fatalError | .cancelled | .vaultLocked | .indexError | .usage | .auditChainBroken
  | .transferLimitExceeded | .durationLimitExceeded | .linkSilent => true
  | _ => false

def isWorthRepeating (error : CliError) : Bool :=
  match error.code with
  | .temporaryError | .checksumMismatch => true
  | _ => false

def attempts (ctx : Ctx) : Nat := min (ctx.retries + 1) u32Max

def auditUnrecordedHint : String :=
  "The operation this record describes is NOT recorded, whether or not it succeeded — check the " ++
  "vault before re-running anything destructive. PLAN.md §7 makes the chained record mandatory, so "
    ++
  "the command fails rather than continuing unaudited."

/-- Re-code a writer failure into the one the operator should act on. -/
def classify (ctx : Ctx) (error : CliError) : CliError :=
  if error.code = .auditChainBroken then
    CliError.withHint { code := .auditChainBroken, message := error.message }
      (auditUnrecordedHint ++ " " ++ error.hint.getD "")
  else
    CliError.withHint { code := .fatalError, message := error.message }
      (auditUnrecordedHint ++ " The log is " ++ ctx.auditPath ++ ".")

/-- A record that cannot be written stops the run. -/
@[simp] theorem isFatal_classify (ctx : Ctx) (error : CliError) :
    isFatal (classify ctx error) = true := by
  rw [classify]
  split <;> rfl

def outcomeCode : Except CliError α → ExitCode
  | .ok _ => .success
  | .error e => e.code

def auditRecord (ctx : Ctx) (entry : AuditEntry) : Job Unit :=
  if ctx.recording then ensure (.append entry) (Except.mapError (classify ctx)) else pure ()

/-- A file's pipeline position. -/
inductive Stage where
  | reading
  | encrypting
  | uploading
  | verifying
  | committing
  | done
  deriving DecidableEq, Repr

def pipelineStages : List Stage := [.reading, .encrypting, .uploading, .verifying, .committing]

def runStage (ctx : Ctx) (e : Planned) (attempt moved : Nat) : Stage → Job Nat
  | .reading => do
    ensure (.read attempt e) id
    pure moved
  | .encrypting => do
    ensure (.encrypt attempt e) id
    pure moved
  | .uploading => do
    let moved ← ensure (.upload attempt e) id
    Prog.query (Request.settle e moved)
    pure moved
  | .verifying => do
    ensure (.verify attempt e ctx.verifyMode) id
    pure moved
  | .committing => do
    ensure (.commit attempt e) id
    pure moved
  | .done => pure moved

def runStages (ctx : Ctx) (e : Planned) (attempt : Nat) : Job Nat := do
  let moved ← pipelineStages.foldlM (runStage ctx e attempt) 0
  Prog.query (Request.fileDone e)
  pure moved

theorem runStages_eq (ctx : Ctx) (e : Planned) (attempt : Nat) :
    runStages ctx e attempt = (do
      ensure (.read attempt e) id
      ensure (.encrypt attempt e) id
      let moved ← ensure (.upload attempt e) id
      Prog.query (Request.settle e moved)
      ensure (.verify attempt e ctx.verifyMode) id
      ensure (.commit attempt e) id
      Prog.query (Request.fileDone e)
      pure moved) := by
  simp [runStages, pipelineStages, runStage]

def retryLoop (ctx : Ctx) (e : Planned) :
    (left attempt : Nat) → Except CliError Nat → Prog Request Answer (Except CliError Nat)
  | 0, _, outcome => .done outcome
  | left + 1, attempt, outcome =>
    match outcome with
    | .ok _ => .done outcome
    | .error error =>
      if isWorthRepeating error then
        (runStages ctx e attempt).run >>= retryLoop ctx e left (attempt + 1)
      else .done outcome

@[simp] theorem retryLoop_ok (ctx : Ctx) (e : Planned) (left attempt moved : Nat) :
    retryLoop ctx e left attempt (.ok moved) = .done (.ok moved) := by
  cases left <;> rfl

def walk (ctx : Ctx) (e : Planned) : Prog Request Answer (Except CliError Nat) :=
  (runStages ctx e 0).run >>= retryLoop ctx e (attempts ctx - 1) 1

def maxDurationReached : String := "stopped at the --max-duration limit"

def maxDurationHint : String :=
  "Everything already transferred is committed and verified: a verified write commits nothing " ++
  "unless the stored bytes match, so no partial object was left behind. A transfer that was in " ++
  "flight when the deadline passed was abandoned; run 'dctl cleanup' to reclaim the staging " ++
  "file or unfinished upload it left. Re-run the same command to continue — it will move only " ++
  "what has not landed yet — or raise --max-duration."

def withinDeadline (subject : String) : Job Unit :=
  ensure (.deadline subject) fun
    | none => .ok ()
    | some exceeded => .error (CliError.withHint
        { code := .durationLimitExceeded
          message := maxDurationReached ++ ": '" ++ subject ++ "' was not started (" ++ exceeded ++
            ")" }
        maxDurationHint)

def affordFile (e : Planned) : Job Unit := ensure (.afford e) id

def record (ctx : Ctx) (op : String) (e : Planned) (moved : Nat) (outcome : Except CliError Unit) :
    Job Unit := do
  let hash ← Prog.query (Request.takePlaintextHash e)
  auditRecord ctx
    { op := op
      outcome := outcomeCode outcome
      path := e.entry.dest
      size := e.size
      moved := some (ctx.direction, moved)
      objects := 1
      plaintextHash := hash
      remote := ctx.remote }
  Prog.ofExcept outcome

def transferFile (ctx : Ctx) (op : String) (e : Planned) : Job Unit := do
  withinDeadline e.entry.dest
  affordFile e
  let walked ← ExceptT.lift (walk ctx e)
  record ctx op e (walked.toOption.getD 0) (walked.map fun _ => ())

def moveFile (ctx : Ctx) (op : String) (e : Planned) : Job Unit := do
  affordFile e
  let walked ← ExceptT.lift (walk ctx e)
  match walked with
  | .ok moved =>
    let removed ← Prog.query (Request.remove .source e.entry.source)
    record ctx op e moved removed
  | .error error => record ctx op e 0 (.error error)

end Dctl.Transfer
