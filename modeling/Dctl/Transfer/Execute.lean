import Dctl.Transfer.Pipeline

/-! Running a plan (`transfer/execute.rs`, `sync/execute.rs`). -/

namespace Dctl.Transfer

open Cli ProofKit

/-- A part of a run that may run files side by side. -/
abbrev Execution (α : Type) : Type := ExceptT CliError (Script Request Answer CliError) α

def transferCommandSync : String := "sync"

def perform (subject : String) : Except CliError Unit → Job Unit
  | .ok () => pure ()
  | .error error =>
    if isFatal error then throw error
    else do
      Prog.query (Request.recordFailure subject error)
      pure ()

def removalSubject (target : Target) (path : String) : String := target.label ++ " " ++ path

namespace Plan

def indexed (plan : Plan) : List Planned := plan.entries.zipIdx.map fun x => ⟨x.2, x.1⟩

def dirs (plan : Plan) : List Planned :=
  plan.indexed.filter fun e => e.entry.action = .createDir

def files (plan : Plan) : List Planned :=
  plan.indexed.filter fun e => e.entry.action = .copy ∨ e.entry.action = .update

def removals (plan : Plan) : List Planned := plan.indexed.filter fun e => e.entry.action.destroys

end Plan

def makeDir (e : Planned) : Job Unit := do
  let outcome ← Prog.query (Request.createDir e)
  perform e.entry.dest outcome

def performed (job : Planned → Job Unit) (e : Planned) : Job Unit := do
  let outcome ← ExceptT.lift (job e).run
  perform e.entry.dest outcome

def runConcurrently (entries : List Planned) (job : Planned → Job Unit) : Execution Unit :=
  ExceptT.mk (Script.inLanes (entries.map fun e => (performed job e).run))

def sequentially (job : Job α) : Execution α := ExceptT.mk (Script.ofProg job.run)

def transfers (ctx : Ctx) (op : String) (plan : Plan) : Execution Unit := do
  sequentially (plan.dirs.forM makeDir)
  runConcurrently plan.files (transferFile ctx op)

/-- Transfer every entry, then delete each source once its commit is durable. -/
def moves (ctx : Ctx) (op : String) (plan : Plan) : Execution Unit := do
  sequentially (plan.dirs.forM makeDir)
  runConcurrently plan.files (moveFile ctx op)

def removeExtra (ctx : Ctx) (op : String) (e : Planned) : Job Unit := do
  let outcome ← Prog.query (Request.remove .destination e.entry.dest)
  auditRecord ctx
    { op := op
      outcome := outcomeCode outcome
      path := e.entry.dest
      objects := 1
      remote := ctx.reaperRemote .destination }
  perform (removalSubject .destination e.entry.dest) outcome

def deletions (ctx : Ctx) (op : String) (plan : Plan) : Execution Unit :=
  sequentially (plan.removals.forM (removeExtra ctx op))

inductive DeleteMode where
  | before
  | during
  | after
  deriving DecidableEq, Repr

def interleavedEntry (ctx : Ctx) (e : Planned) : Job Unit :=
  match e.entry.action with
  | .copy | .update => performed (transferFile ctx transferCommandSync) e
  | .createDir => makeDir e
  | .delete => removeExtra ctx transferCommandSync e
  | .skip => pure ()

def interleaved (ctx : Ctx) (plan : Plan) : Execution Unit :=
  sequentially ((plan.indexed.filter fun e => e.entry.action.isAction).forM (interleavedEntry ctx))

def runSync (ctx : Ctx) (plan : Plan) : DeleteMode → Execution Unit
  | .before => do
    deletions ctx transferCommandSync plan
    transfers ctx transferCommandSync plan
  | .after => do
    transfers ctx transferCommandSync plan
    deletions ctx transferCommandSync plan
  | .during => interleaved ctx plan

inductive Verb where
  | copy
  | copyto
  | move
  | moveto
  | sync (mode : DeleteMode)
  deriving DecidableEq, Repr

def Verb.run (ctx : Ctx) (plan : Plan) : Verb → Execution Unit
  | copy => transfers ctx "copy" plan
  | copyto => transfers ctx "copyto" plan
  | move => moves ctx "move" plan
  | moveto => moves ctx "moveto" plan
  | sync mode => runSync ctx plan mode

structure Event where
  request : Request
  answer : Answer request

/-- The budget of the run, and everything it asked so far. -/
structure World where
  budget : Budget
  log : List Event

def World.start (limit : Option Nat) : World := ⟨Budget.new limit, []⟩

/-- How the world answers: the budget as its code says, everything else as `admits` allows. -/
def serves (display : Nat → String) (admits : (r : Request) → Answer r → Prop) :
    Prog.Server World Request Answer
  | w, r, x, w' =>
    w'.log = w.log ++ [⟨r, x⟩] ∧
      match r, x with
      | .afford e, x => (x, w'.budget) = w.budget.afford display e.size e.entry.dest
      | .settle e actual, _ => w'.budget = w.budget.settle e.size actual
      | r, x => admits r x ∧ w'.budget = w.budget

def answers (display : Nat → String) (driver : (r : Request) → Answer r) (w : World) (r : Request) :
    Answer r × World :=
  match r with
  | .afford e =>
    ((w.budget.afford display e.size e.entry.dest).1,
      ⟨(w.budget.afford display e.size e.entry.dest).2,
        w.log ++ [⟨.afford e, (w.budget.afford display e.size e.entry.dest).1⟩]⟩)
  | .settle e actual => ((), ⟨w.budget.settle e.size actual, w.log ++ [⟨.settle e actual, ()⟩]⟩)
  | r => (driver r, ⟨w.budget, w.log ++ [⟨r, driver r⟩]⟩)

theorem serves_answers {display : Nat → String} (driver : (r : Request) → Answer r)
    {admits : (r : Request) → Answer r → Prop} (h : ∀ r, admits r (driver r)) (w : World)
    (r : Request) :
    serves display admits w r (answers display driver w r).1 (answers display driver w r).2 := by
  cases r
  case afford e => exact ⟨rfl, rfl⟩
  case settle e actual => exact ⟨rfl, rfl⟩
  all_goals exact ⟨rfl, h _, rfl⟩

variable {α : Type}

theorem run_driven {display : Nat → String} (driver : (r : Request) → Answer r)
    {admits : (r : Request) → Answer r → Prop} (h : ∀ r, admits r (driver r))
    (p : Prog Request Answer α) (w : World) :
    Prog.Run (serves display admits) p w (p.eval (answers display driver) w).1
      (p.eval (answers display driver) w).2 :=
  Prog.run_eval (fun w r => serves_answers driver h w r) p w

def Ctx.lanes (ctx : Ctx) : Nat := max ctx.transfers 1

theorem Ctx.lanes_pos (ctx : Ctx) : 0 < ctx.lanes := by
  rw [Ctx.lanes]
  omega

variable {ctx : Ctx} {f : Except CliError Unit → Script Request Answer CliError α} {plan : Plan}
  {S : Type} {serve : Prog.Server S Request Answer} {w w' w'' : S}

section

variable (hdirs : Prog.Run serve (plan.dirs.forM makeDir).run w (.ok ()) w')
include hdirs

theorem reaches_inOrder {job : Planned → Job Unit}
    (hfiles : Script.InOrder serve (plan.files.map fun e => (performed job e).run) w' w'') :
    Script.Reaches serve ctx.lanes
      ((sequentially (plan.dirs.forM makeDir) >>= fun _ =>
        runConcurrently plan.files job).run >>= f)
      w (f (.ok ())) w'' := by
  have hlanes : Script.Reaches serve ctx.lanes
      (Script.inLanes (plan.files.map fun e => (performed job e).run) >>= f) w' (f (.ok ())) w'' :=
    hfiles.reaches_inLanes ctx.lanes_pos
  rw [ExceptT.run_bind, Script.bind_assoc]
  exact (Script.reaches_ofProg hdirs).trans hlanes

theorem reaches_transfers {op : String}
    (hfiles : Script.InOrder serve (plan.files.map fun e =>
      (performed (transferFile ctx op) e).run) w' w'') :
    Script.Reaches serve ctx.lanes ((transfers ctx op plan).run >>= f) w (f (.ok ())) w'' :=
  reaches_inOrder hdirs hfiles

theorem reaches_moves {op : String}
    (hfiles :
      Script.InOrder serve (plan.files.map fun e => (performed (moveFile ctx op) e).run) w' w'') :
    Script.Reaches serve ctx.lanes ((moves ctx op plan).run >>= f) w (f (.ok ())) w'' :=
  reaches_inOrder hdirs hfiles

end

end Dctl.Transfer
