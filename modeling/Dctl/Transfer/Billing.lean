import Dctl.Transfer.Execute

/-! What every command keeps.  Between an upload that went through and its settlement a file owns a
token, the entry with the bytes that the upload measured, and every other request of a run leaves
the tokens as they are. -/

namespace Dctl.Transfer

open ProofKit Prog

def Request.passes : Request → Bool
  | .upload .. | .settle .. => false
  | _ => true

/-- An invariant about the uploads that are not settled, and how each request keeps it. -/
structure Billing {S : Type} (serve : Prog.Server S Request Answer)
    (I : S → Multiset (Planned × Nat) → Prop) : Prop where
  pass : ∀ {r s tokens x s'}, r.passes = true → I s tokens → serve s r x s' → I s' tokens
  refused : ∀ {attempt e s tokens error s'}, I s tokens →
    serve s (.upload attempt e) (.error error) s' → I s' tokens
  upload : ∀ {attempt e s tokens n s'}, I s tokens → serve s (.upload attempt e) (.ok n) s' →
    I s' ((e, n) ::ₘ tokens)
  settle : ∀ {e s tokens n s'}, I s ((e, n) ::ₘ tokens) → serve s (.settle e n) () s' → I s' tokens

namespace Billing

variable {S : Type} {serve : Prog.Server S Request Answer}
  {I : S → Multiset (Planned × Nat) → Prop} {ctx : Ctx} {e : Planned} {attempt moved : Nat}
  {op : String}

section

variable (h : Billing serve I)
include h

theorem query {r : Request} (hr : r.passes = true) :
    (Prog.query r : Job (Answer r)).run.Quiet serve I :=
  quiet_query fun _ _ _ _ hI hserve => h.pass hr hI hserve

theorem ensure {α : Type} {r : Request} {check : Answer r → Except Cli.CliError α}
    (hr : r.passes = true) : (Transfer.ensure r check).run.Quiet serve I :=
  quiet_bind (h.query hr) fun _ => quiet_ofExcept _

theorem uploading : (runStage ctx e attempt moved .uploading).run.Quiet serve I := by
  intro w others x w' hI hserve
  rw [zero_add] at hI
  cases x with
  | error error =>
    refine ⟨0, ?_, rfl⟩
    rw [zero_add]
    exact h.refused hI hserve
  | ok n =>
    refine ⟨{(e, n)}, h.upload hI hserve, ?_⟩
    rintro w others ⟨⟩ w' hI hserve
    refine ⟨0, ?_, rfl⟩
    rw [zero_add]
    exact h.settle hI hserve

theorem runStage (stage : Stage) :
    (Transfer.runStage ctx e attempt moved stage).run.Quiet serve I := by
  cases stage with
  | uploading => exact h.uploading
  | done => exact quiet_pure _
  | reading | encrypting | verifying | committing =>
    exact quiet_bind (h.ensure (by rfl)) fun _ => quiet_pure _

theorem runStages : (Transfer.runStages ctx e attempt).run.Quiet serve I := by
  rw [Transfer.runStages]
  apply quiet_bind
  · generalize 0 = moved
    induction pipelineStages generalizing moved with
    | nil => exact quiet_pure _
    | cons stage stages ih =>
      rw [List.foldlM_cons]
      exact quiet_bind (h.runStage stage) ih
  · intro moved
    exact quiet_bind (h.query (by rfl)) fun _ => quiet_pure _

theorem retryLoop {left : Nat} {outcome : Except Cli.CliError Nat} :
    (Transfer.retryLoop ctx e left attempt outcome).Quiet serve I := by
  induction left generalizing attempt outcome with
  | zero =>
    rw [Transfer.retryLoop]
    exact quiet_done _
  | succ left ih =>
    cases outcome with
    | ok moved => exact quiet_done _
    | error error =>
      rw [Transfer.retryLoop]
      split
      · exact h.runStages.bind fun _ => ih
      · exact quiet_done _

theorem walk : (Transfer.walk ctx e).Quiet serve I :=
  h.runStages.bind fun _ => h.retryLoop

theorem auditRecord {entry : AuditEntry} : (Transfer.auditRecord ctx entry).run.Quiet serve I := by
  rw [Transfer.auditRecord]
  split
  · exact h.ensure (by rfl)
  · exact quiet_pure _

theorem record {outcome : Except Cli.CliError Unit} :
    (Transfer.record ctx op e moved outcome).run.Quiet serve I := by
  apply quiet_bind (h.query (by rfl))
  intro hash
  apply quiet_bind h.auditRecord
  intro _
  exact quiet_ofExcept _

theorem transferFile : (Transfer.transferFile ctx op e).run.Quiet serve I := by
  apply quiet_bind (h.ensure (by rfl))
  intro _
  apply quiet_bind (h.ensure (by rfl))
  intro _
  apply quiet_bind (quiet_lift h.walk)
  intro walked
  exact h.record

theorem moveFile : (Transfer.moveFile ctx op e).run.Quiet serve I := by
  apply quiet_bind (h.ensure (by rfl))
  intro _
  apply quiet_bind (quiet_lift h.walk)
  intro walked
  cases walked with
  | ok moved => exact quiet_bind (h.query (by rfl)) fun _ => h.record
  | error error => exact h.record

theorem perform {subject : String} {outcome : Except Cli.CliError Unit} :
    (Transfer.perform subject outcome).run.Quiet serve I := by
  cases outcome with
  | ok _ => exact quiet_pure _
  | error error =>
    rw [Transfer.perform]
    split
    · exact quiet_throw _
    · exact quiet_bind (h.query (by rfl)) fun _ => quiet_pure _

theorem performed {job : Planned → Job Unit} (hjob : (job e).run.Quiet serve I) :
    (Transfer.performed job e).run.Quiet serve I :=
  quiet_bind (quiet_lift hjob) fun _ => h.perform

theorem makeDir : (Transfer.makeDir e).run.Quiet serve I :=
  quiet_bind (h.query (by rfl)) fun _ => h.perform

theorem removeExtra : (Transfer.removeExtra ctx op e).run.Quiet serve I := by
  apply quiet_bind (h.query (by rfl))
  intro outcome
  exact quiet_bind h.auditRecord fun _ => h.perform

theorem interleavedEntry : (Transfer.interleavedEntry ctx e).run.Quiet serve I := by
  rw [Transfer.interleavedEntry]
  split
  · exact h.performed h.transferFile
  · exact h.performed h.transferFile
  · exact h.makeDir
  · exact h.removeExtra
  · exact quiet_pure _

end

variable {plan : Plan}

theorem sequentially {l : List Planned} {job : Planned → Job Unit}
    (h : ∀ e, (job e).run.Quiet serve I) :
    (Transfer.sequentially (l.forM job)).run.Quiet serve I :=
  Script.quiet_ofProg (quiet_forM fun e _ => h e)

section

variable (h : Billing serve I)
include h

theorem runConcurrently {l : List Planned} {job : Planned → Job Unit}
    (hjob : ∀ e, (job e).run.Quiet serve I) :
    (Transfer.runConcurrently l job).run.Quiet serve I := by
  apply Script.quiet_inLanes
  intro p hp
  obtain ⟨e, -, rfl⟩ := List.mem_map.mp hp
  exact h.performed (hjob e)

theorem transfers : (Transfer.transfers ctx op plan).run.Quiet serve I :=
  Script.quiet_bind (sequentially fun _ => h.makeDir) fun _ =>
    h.runConcurrently fun _ => h.transferFile

theorem moves : (Transfer.moves ctx op plan).run.Quiet serve I :=
  Script.quiet_bind (sequentially fun _ => h.makeDir) fun _ => h.runConcurrently fun _ => h.moveFile

theorem deletions : (Transfer.deletions ctx op plan).run.Quiet serve I :=
  sequentially fun _ => h.removeExtra

theorem run (verb : Verb) : (verb.run ctx plan).run.Quiet serve I := by
  cases verb with
  | copy | copyto => exact h.transfers
  | move | moveto => exact h.moves
  | sync mode =>
    cases mode with
    | before => exact Script.quiet_bind h.deletions fun _ => h.transfers
    | during => exact sequentially fun _ => h.interleavedEntry
    | after => exact Script.quiet_bind h.transfers fun _ => h.deletions

end

end Billing

end Dctl.Transfer
