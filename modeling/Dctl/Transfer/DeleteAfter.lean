import Dctl.Transfer.Execute

/-! `sync` that deletes after it transferred.  The storage answers each stage of each attempt, each
new directory and each removal as a pattern says; the clock, the budget and the audit log answer as
they like. -/

namespace Dctl.Transfer

open Cli ProofKit List Prog

def Request.byStorage : Request → Bool
  | .read .. | .encrypt .. | .upload .. | .verify .. | .commit .. | .createDir
    _ | .remove .. => true
  | _ => false

/-- What the storage answers to every request. -/
abbrev Pattern : Type := (r : Request) → Answer r

/-- Requests to storage are answered as the pattern says. -/
def Follows (pattern : Pattern) (r : Request) (x : Answer r) : Prop :=
  r.byStorage = true → x = pattern r

def fileOutcome (ctx : Ctx) (pattern : Pattern) (e : Planned) : Except CliError Nat :=
  (walk ctx e).answered pattern

def stops {α : Type} : Except CliError α → Bool
  | .ok _ => false
  | .error error => isFatal error

/-- Some removal goes through before one stops the run. -/
def removesSome (pattern : Pattern) : List Planned → Bool
  | [] => false
  | e :: rest =>
    match pattern (.remove .destination e.entry.dest) with
    | .ok _ => true
    | .error error => !isFatal error && removesSome pattern rest

def Event.commits (e : Planned) : Event → Bool
  | ⟨.commit _ e', .ok _⟩ => e' = e
  | _ => false

def Event.removes : Event → Bool
  | ⟨.remove .destination _, .ok _⟩ => true
  | _ => false

/-- The file was committed. -/
def Committed (log : List Event) (e : Planned) : Prop := ∃ ev ∈ log, ev.commits e = true

/-- When a destination file is removed, every copy and update of the plan was committed. -/
def RemovesLast (plan : Plan) (log : List Event) : Prop :=
  ∀ before ev after, log = before ++ ev :: after → ev.removes = true →
    ∀ e ∈ plan.files, Committed before e

/-- Every copy and update ends well, or a directory, copy or update stops the run, or no removal
goes through. -/
def Spared (ctx : Ctx) (pattern : Pattern) (plan : Plan) : Prop :=
  (∀ e ∈ plan.files, (fileOutcome ctx pattern e).isOk = true) ∨
    (∃ e ∈ plan.dirs, stops (pattern (.createDir e)) = true) ∨
    (∃ e ∈ plan.files, stops (fileOutcome ctx pattern e) = true) ∨
    removesSome pattern plan.removals = false

instance (ctx : Ctx) (pattern : Pattern) (plan : Plan) : Decidable (Spared ctx pattern plan) :=
  inferInstanceAs (Decidable (_ ∨ _ ∨ _ ∨ _))

structure Traced (ctx : Ctx) (pattern : Pattern) (plan : Plan) (w : World)
    (tokens : Multiset Planned) : Prop where
  committed : ∀ e ∈ tokens, Committed w.log e
  stored : ∀ e, Committed w.log e → (fileOutcome ctx pattern e).isOk = true
  last : Spared ctx pattern plan → RemovesLast plan w.log

section Log

variable {log : List Event} {ev : Event} {e : Planned} {plan : Plan}

theorem committed_append : Committed (log ++ [ev]) e ↔ Committed log e ∨ ev.commits e = true := by
  simp [Committed, or_and_right, exists_or]

theorem removesLast_append (h : RemovesLast plan log)
    (hev : ev.removes = true → ∀ e ∈ plan.files, Committed log e) :
    RemovesLast plan (log ++ [ev]) := by
  intro before ev' after hlog
  rcases eq_nil_or_concat after with rfl | ⟨rest, last, rfl⟩
  · obtain ⟨rfl, hl⟩ := append_inj' hlog rfl
    cases hl
    exact hev
  · rw [concat_eq_append, ← cons_append, ← append_assoc] at hlog
    exact h before ev' rest (append_inj_left' hlog rfl)

variable {ctx : Ctx} {pattern : Pattern} {w w' : World} {tokens : Multiset Planned}

section

variable (h : Traced ctx pattern plan w tokens)
include h

theorem Traced.pass (hlog : w'.log = w.log ++ [ev]) (hcommit : ∀ e, ev.commits e = false)
    (hremove : ev.removes = false) :
    Traced ctx pattern plan w' tokens where
  committed e he := by
    rw [hlog]
    exact committed_append.mpr (Or.inl (h.committed e he))
  stored e he := by
    rw [hlog, committed_append, hcommit] at he
    exact h.stored e (he.resolve_right Bool.false_ne_true)
  last hs := by
    rw [hlog]
    apply removesLast_append (h.last hs)
    rw [hremove]
    exact nofun

theorem Traced.commit {attempt : Nat} (hlog : w'.log = w.log ++ [⟨.commit attempt e, .ok ()⟩])
    (hok : (fileOutcome ctx pattern e).isOk = true) :
    Traced ctx pattern plan w' (e ::ₘ tokens) where
  committed e' he := by
    rw [hlog, committed_append]
    rcases Multiset.mem_cons.mp he with rfl | he
    · exact Or.inr (decide_eq_true rfl)
    · exact Or.inl (h.committed e' he)
  stored e' he := by
    rw [hlog, committed_append] at he
    rcases he with he | he
    · exact h.stored e' he
    · obtain rfl : e = e' := of_decide_eq_true he
      exact hok
  last hs := by
    rw [hlog]
    exact removesLast_append (h.last hs) nofun

theorem Traced.remove {path : String}
    (hlog : w'.log = w.log ++ [⟨.remove .destination path, .ok ()⟩])
    (hall : Spared ctx pattern plan → ∀ e ∈ plan.files, e ∈ tokens) :
    Traced ctx pattern plan w' tokens where
  committed e he := by
    rw [hlog]
    exact committed_append.mpr (Or.inl (h.committed e he))
  stored e he := by
    rw [hlog, committed_append] at he
    exact h.stored e (he.resolve_right Bool.false_ne_true)
  last hs := by
    rw [hlog]
    apply removesLast_append (h.last hs)
    intro _ e he
    exact h.committed e (hall hs e he)

end

end Log

section Programs

variable {display : Nat → String} {ctx : Ctx} {pattern : Pattern} {plan : Plan}
  {own : Multiset Planned} {α β : Type}

def Request.isPlain : Request → Bool
  | .commit .. | .remove .. => false
  | _ => true

variable {r : Request}

theorem Traced.plain {w w' : World} {tokens : Multiset Planned} {x : Answer r}
    (h : Traced ctx pattern plan w tokens) (hserve : serves display (Follows pattern) w r x w')
    (hr : r.isPlain = true) : Traced ctx pattern plan w' tokens := by
  cases r
  case commit => cases hr
  case remove => cases hr
  all_goals exact h.pass hserve.1 (fun _ => rfl) rfl

variable (display ctx pattern plan) in
/-- A program of the run, with the files it knows to be committed. -/
abbrev Notes (post : α → Multiset Planned → Prop) (p : Prog Request Answer α)
    (own : Multiset Planned) : Prop :=
  p.Upholds (serves display (Follows pattern)) (Traced ctx pattern plan) post own

theorem eq_pattern {w w' : World} {x : Answer r} (h : serves display (Follows pattern) w r x w')
    (hr : r.byStorage = true) : x = pattern r := by
  cases r
  case afford => cases hr
  case settle => cases hr
  all_goals exact h.2.1 hr

variable {post : Except CliError β → Multiset Planned → Prop}

theorem notes_storage {check : Answer r → Except CliError α} {f : α → Job β} (hr : r.isPlain = true)
    (hstorage : r.byStorage = true)
    (hok : ∀ a, check (pattern r) = .ok a → Notes display ctx pattern plan post (f a).run own)
    (herror : ∀ error, check (pattern r) = .error error → post (.error error) own) :
    Notes display ctx pattern plan post (ensure r check >>= f).run own := by
  intro w others x w' h hx
  refine ⟨own, h.plain hx hr, ?_⟩
  obtain rfl := eq_pattern hx hstorage
  show Notes display ctx pattern plan post (Prog.ofExcept (check (pattern r)) >>= f).run own
  cases hc : check (pattern r) with
  | error error => exact herror error hc
  | ok a => exact hok a hc

theorem answered_ensure_bind {check : Answer r → Except CliError α} {f : α → Job β} :
    (ensure r check >>= f).run.answered pattern =
      match check (pattern r) with
      | .ok a => (f a).run.answered pattern
      | .error error => .error error := by
  show (Prog.ofExcept (check (pattern r)) >>= f).run.answered pattern = _
  cases check (pattern r) <;> rfl

theorem notes_query {f : Answer r → Job β} (hr : r.isPlain = true)
    (hf : ∀ x, Notes display ctx pattern plan post (f x).run own) :
    Notes display ctx pattern plan post (Prog.query r >>= f).run own := by
  intro w others x w' h hx
  exact ⟨own, h.plain hx hr, hf x⟩

variable {attempt : Nat} {e : Planned}

theorem notes_commit {moved : Nat}
    (hok : pattern (.commit attempt e) = .ok () → (fileOutcome ctx pattern e).isOk = true) :
    Notes display ctx pattern plan
      (fun x own' => x = (pattern (.commit attempt e)).map (fun _ => moved) ∧
        (x.isOk = true → e ∈ own') ∧ own ≤ own')
      (ensure (.commit attempt e) id >>= fun _ =>
        Prog.query (Request.fileDone e) >>= fun _ => (pure moved : Job Nat)).run own := by
  intro w others x w' h hx
  obtain rfl := eq_pattern hx rfl
  show ∃ own', _ ∧ Notes display ctx pattern plan _
    (Prog.ofExcept (pattern (.commit attempt e)) >>= fun _ =>
      Prog.query (Request.fileDone e) >>= fun _ => (pure moved : Job Nat)).run own'
  cases hc : pattern (.commit attempt e) with
  | error error =>
    rw [hc] at hx
    exact ⟨own, h.pass hx.1 (fun _ => rfl) rfl, rfl, nofun, le_refl _⟩
  | ok u =>
    rw [hc] at hx
    refine ⟨e ::ₘ own, ?_, ?_⟩
    · rw [Multiset.cons_add]
      exact h.commit hx.1 (hok hc)
    · apply notes_query rfl
      intro _
      exact ⟨rfl, fun _ => Multiset.mem_cons_self _ _, Multiset.le_cons_self _ _⟩

theorem notes_runStages
    (hok : ((runStages ctx e attempt).run.answered pattern).isOk = true →
      (fileOutcome ctx pattern e).isOk = true) :
    Notes display ctx pattern plan
      (fun x own' => x = (runStages ctx e attempt).run.answered pattern ∧
        (x.isOk = true → e ∈ own') ∧ own ≤ own')
      (runStages ctx e attempt).run own := by
  obtain ⟨out, hout⟩ : ∃ out, (runStages ctx e attempt).run.answered pattern = out := ⟨_, rfl⟩
  rw [hout] at hok ⊢
  rw [runStages_eq] at hout ⊢
  apply notes_storage rfl rfl
  · intro _ hread
    rw [answered_ensure_bind, hread] at hout
    apply notes_storage rfl rfl
    · intro _ hencrypt
      rw [answered_ensure_bind, hencrypt] at hout
      apply notes_storage rfl rfl
      · intro moved hupload
        rw [answered_ensure_bind, hupload] at hout
        apply notes_query rfl
        intro _
        apply notes_storage rfl rfl
        · intro _ hverify
          have hlast : (pattern (.commit attempt e)).map (fun _ => moved) = out := by
            rw [← hout]
            show _ = (ensure (.verify attempt e ctx.verifyMode) id >>= _).run.answered pattern
            rw [answered_ensure_bind, hverify]
            show _ = (ensure (.commit attempt e) id >>= _).run.answered pattern
            rw [answered_ensure_bind]
            cases pattern (.commit attempt e) <;> rfl
          rw [← hlast] at hok ⊢
          apply notes_commit
          intro hc
          apply hok
          rw [hc]
          rfl
        · intro error hverify
          refine ⟨?_, nofun, le_refl _⟩
          rw [← hout]
          show _ = (ensure (.verify attempt e ctx.verifyMode) id >>= _).run.answered pattern
          rw [answered_ensure_bind, hverify]
      · intro error hupload
        rw [answered_ensure_bind, hupload] at hout
        exact ⟨hout, nofun, le_refl _⟩
    · intro error hencrypt
      rw [answered_ensure_bind, hencrypt] at hout
      exact ⟨hout, nofun, le_refl _⟩
  · intro error hread
    rw [answered_ensure_bind, hread] at hout
    exact ⟨hout, nofun, le_refl _⟩

theorem answered_retryLoop_of_isOk {left : Nat} {x : Except CliError Nat} (h : x.isOk = true) :
    (retryLoop ctx e left attempt x).answered pattern = x := by
  cases x with
  | error error => cases h
  | ok moved =>
    rw [retryLoop_ok]
    rfl

theorem notes_retryLoop {left : Nat} {outcome : Except CliError Nat}
    (hgoal : (retryLoop ctx e left attempt outcome).answered pattern = fileOutcome ctx pattern e)
    (hown : outcome.isOk = true → e ∈ own) :
    Notes display ctx pattern plan
      (fun x own' => x = fileOutcome ctx pattern e ∧ (x.isOk = true → e ∈ own') ∧ own ≤ own')
      (retryLoop ctx e left attempt outcome) own := by
  induction left generalizing attempt outcome own with
  | zero => exact ⟨hgoal, hown, le_refl _⟩
  | succ left ih =>
    cases outcome with
    | ok moved => exact ⟨hgoal, hown, le_refl _⟩
    | error error =>
      rw [retryLoop] at hgoal ⊢
      split at hgoal
      · rename_i hrepeat
        rw [if_pos hrepeat]
        rw [answered_bind] at hgoal
        apply (notes_runStages ?_).bind
        · rintro x own' ⟨rfl, hx, hle⟩
          apply (ih hgoal hx).mono
          rintro y own'' ⟨hy, hmem, hle'⟩
          exact ⟨hy, hmem, hle.trans hle'⟩
        · intro hok
          rwa [← hgoal, answered_retryLoop_of_isOk hok]
      · rename_i hrepeat
        rw [if_neg hrepeat]
        exact ⟨hgoal, hown, le_refl _⟩

theorem notes_walk :
    Notes display ctx pattern plan
      (fun x own' => x = fileOutcome ctx pattern e ∧ (x.isOk = true → e ∈ own') ∧ own ≤ own')
      (walk ctx e) own := by
  have hgoal : (walk ctx e).answered pattern = fileOutcome ctx pattern e := rfl
  rw [walk, answered_bind] at hgoal
  rw [walk]
  apply (notes_runStages ?_).bind
  · rintro x own' ⟨rfl, hx, hle⟩
    apply (notes_retryLoop hgoal hx).mono
    rintro y own'' ⟨hy, hmem, hle'⟩
    exact ⟨hy, hmem, hle.trans hle'⟩
  · intro hok
    rwa [← hgoal, answered_retryLoop_of_isOk hok]

/-- A file that ended well is known to be committed, and any other file failed without stopping the
run. -/
def Ended (ctx : Ctx) (pattern : Pattern) (e : Planned) (own : Multiset Planned) : Prop :=
  ((fileOutcome ctx pattern e).isOk = true ∧ e ∈ own) ∨
    ((fileOutcome ctx pattern e).isOk = false ∧ stops (fileOutcome ctx pattern e) = false)

theorem Ended.mono {own' : Multiset Planned} (h : Ended ctx pattern e own) (hle : own ≤ own') :
    Ended ctx pattern e own' :=
  h.imp (fun h => ⟨h.1, Multiset.mem_of_le hle h.2⟩) id

theorem notes_auditRecord {entry : AuditEntry} {f : Unit → Job β}
    (hf : Notes display ctx pattern plan post (f ()).run own)
    (herror : ∀ error, isFatal error = true → post (.error error) own) :
    Notes display ctx pattern plan post (auditRecord ctx entry >>= f).run own := by
  rw [auditRecord]
  split
  · intro w others x w' h hx
    refine ⟨own, h.plain hx rfl, ?_⟩
    cases x with
    | error error => exact herror _ (isFatal_classify ctx error)
    | ok u => exact hf
  · exact hf

variable {op : String}

theorem notes_record {moved : Nat} {outcome : Except CliError Unit}
    {post : Except CliError Unit → Multiset Planned → Prop} (houtcome : post outcome own)
    (herror : ∀ error, isFatal error = true → post (.error error) own) :
    Notes display ctx pattern plan post (record ctx op e moved outcome).run own := by
  apply notes_query rfl
  intro hash
  exact notes_auditRecord houtcome herror

theorem notes_transferFile :
    Notes display ctx pattern plan
      (fun x own' => stops x = false → x = (fileOutcome ctx pattern e).map (fun _ => ()) ∧
        (x.isOk = true → e ∈ own'))
      (transferFile ctx op e).run own := by
  have herror : ∀ error (own' : Multiset Planned), isFatal error = true →
      stops (.error error : Except CliError Unit) = false →
      (.error error : Except CliError Unit) = (fileOutcome ctx pattern e).map (fun _ => ()) ∧
        ((.error error : Except CliError Unit).isOk = true → e ∈ own') := by
    intro error own' hf hs
    rw [stops, hf] at hs
    cases hs
  intro w others x w' h hx
  refine ⟨own, h.plain hx rfl, ?_⟩
  cases x with
  | some exceeded => exact herror _ _ rfl
  | none =>
    intro w others x w' h hx
    refine ⟨own, h.plain hx rfl, ?_⟩
    cases x with
    | error error =>
      have hcode : error.code = .transferLimitExceeded :=
        Budget.afford_error (congrArg Prod.fst hx.2).symm
      refine herror _ _ ?_
      rw [isFatal, hcode]
    | ok u =>
      show Notes display ctx pattern plan _ (ExceptT.lift (walk ctx e) >>= fun walked =>
        record ctx op e (walked.toOption.getD 0) (walked.map fun _ => ())).run own
      rw [ExceptT.run_bind_lift]
      apply notes_walk.bind
      rintro walked own' ⟨rfl, hmem, -⟩
      apply notes_record
      · intro _
        refine ⟨rfl, ?_⟩
        intro hok
        apply hmem
        cases hwalked : fileOutcome ctx pattern e with
        | error error =>
          rw [hwalked] at hok
          cases hok
        | ok moved => rfl
      · intro error hf
        exact herror error own' hf

theorem notes_performed :
    Notes display ctx pattern plan (fun x own' => failure x = none → Ended ctx pattern e own')
      (performed (transferFile ctx op) e).run own := by
  rw [performed, ExceptT.run_bind_lift]
  apply notes_transferFile.bind
  intro x own' hx
  cases x with
  | ok u =>
    obtain ⟨hout, hmem⟩ := hx rfl
    intro _
    left
    refine ⟨?_, hmem rfl⟩
    cases hf : fileOutcome ctx pattern e with
    | error error =>
      rw [hf] at hout
      cases hout
    | ok moved => rfl
  | error error =>
    rw [perform]
    split
    · exact nofun
    · rename_i hfatal
      rw [Bool.not_eq_true] at hfatal
      obtain ⟨hout, -⟩ := hx hfatal
      apply notes_query rfl
      intro _ _
      right
      cases hf : fileOutcome ctx pattern e with
      | error error' =>
        rw [hf] at hout
        cases hout
        exact ⟨rfl, hfatal⟩
      | ok moved =>
        rw [hf] at hout
        cases hout

theorem notes_makeDir :
    Notes display ctx pattern plan
      (fun x own' => own' = own ∧ ∀ u, x = .ok u → stops (pattern (.createDir e)) = false)
      (makeDir e).run own := by
  intro w others x w' h hx
  refine ⟨own, h.plain hx rfl, ?_⟩
  obtain rfl := eq_pattern hx rfl
  show Notes display ctx pattern plan _ (perform e.entry.dest (pattern (.createDir e))).run own
  cases hdir : pattern (.createDir e) with
  | ok u => exact ⟨rfl, fun _ _ => rfl⟩
  | error error =>
    rw [perform]
    split
    · exact ⟨rfl, nofun⟩
    · rename_i hfatal
      rw [Bool.not_eq_true] at hfatal
      apply notes_query rfl
      intro _
      exact ⟨rfl, fun _ _ => hfatal⟩

theorem notes_removals {l : List Planned}
    (h : Spared ctx pattern plan → (∀ e ∈ plan.files, e ∈ own) ∨ removesSome pattern l = false) :
    Notes display ctx pattern plan (fun _ _ => True) (l.forM (removeExtra ctx op)).run own := by
  induction l with
  | nil => trivial
  | cons e l ih =>
    show Notes display ctx pattern plan _ (removeExtra ctx op e >>= fun _ =>
      l.forM (removeExtra ctx op)).run own
    intro w others x w' hw hx
    obtain rfl := eq_pattern hx rfl
    refine ⟨own, ?_, ?_⟩
    · cases hremove : pattern (.remove .destination e.entry.dest) with
      | error error =>
        rw [hremove] at hx
        exact hw.pass hx.1 (fun _ => rfl) rfl
      | ok u =>
        rw [hremove] at hx
        apply hw.remove hx.1
        intro hs e' he'
        rcases h hs with hall | hnone
        · exact Multiset.mem_add.mpr (Or.inl (hall e' he'))
        · rw [removesSome, hremove] at hnone
          cases hnone
    · show Notes display ctx pattern plan _ ((auditRecord ctx _ >>= fun _ =>
        perform _ (pattern (.remove .destination e.entry.dest))) >>= fun _ =>
          l.forM (removeExtra ctx op)).run own
      rw [LawfulMonad.bind_assoc]
      apply notes_auditRecord
      · cases hremove : pattern (.remove .destination e.entry.dest) with
        | ok u =>
          apply ih
          intro hs
          refine (h hs).imp id ?_
          intro hnone
          rw [removesSome, hremove] at hnone
          cases hnone
        | error error =>
          rw [perform]
          split
          · trivial
          · rename_i hfatal
            rw [LawfulMonad.bind_assoc]
            apply notes_query rfl
            intro _
            apply ih
            intro hs
            refine (h hs).imp id ?_
            intro hnone
            rw [removesSome, hremove] at hnone
            simpa [hfatal] using hnone
      · intro error _
        trivial

theorem mem_sum_of_forall₂ {owns : List (Multiset Planned)} {l : List Planned}
    (h : List.Forall₂ (fun own e => Ended ctx pattern e own) owns l) :
    ∀ e ∈ l, Ended ctx pattern e owns.sum := by
  induction h with
  | nil => exact nofun
  | @cons o e owns l he _ ih =>
    intro e' he'
    rw [sum_cons]
    rcases mem_cons.mp he' with rfl | he'
    · exact he.mono (Multiset.le_add_right _ _)
    · exact (ih e' he').mono (Multiset.le_add_left _ _)

theorem upholds_transfers :
    (transfers ctx op plan).run.Upholds (serves display (Follows pattern)) (Traced ctx pattern plan)
      (fun x own' => ∀ u, x = .ok u → (∀ e ∈ plan.dirs, stops (pattern (.createDir e)) = false) ∧
        ∀ e ∈ plan.files, Ended ctx pattern e own') 0 := by
  rw [transfers, ExceptT.run_bind]
  apply (Script.upholds_ofProg (upholds_forM fun e _ => notes_makeDir)).bind
  rintro x own ⟨rfl, hdirs⟩
  cases x with
  | error error => exact nofun
  | ok u =>
    apply Script.upholds_inLanes (plan.files.map fun e => Ended ctx pattern e)
    · rw [List.forall₂_map_left_iff, List.forall₂_map_right_iff, List.forall₂_same]
      intro e _
      exact notes_performed
    · intro owns howns u' _
      rw [List.forall₂_map_right_iff] at howns
      rw [zero_add]
      exact ⟨hdirs u rfl, mem_sum_of_forall₂ howns⟩
    · exact nofun

theorem upholds_runSync :
    (runSync ctx plan .after).run.Upholds (serves display (Follows pattern))
      (Traced ctx pattern plan) (fun _ _ => True) 0 := by
  rw [runSync, ExceptT.run_bind]
  apply upholds_transfers.bind
  intro x own hx
  cases x with
  | error error => trivial
  | ok u =>
    obtain ⟨hdirs, hfiles⟩ := hx u rfl
    apply Script.upholds_ofProg
    apply notes_removals
    rintro (hall | ⟨e, he, hstop⟩ | ⟨e, he, hstop⟩ | hnone)
    · left
      intro e he
      rcases hfiles e he with ⟨-, hmem⟩ | ⟨hfail, -⟩
      · exact hmem
      · rw [hall e he] at hfail
        cases hfail
    · rw [hdirs e he] at hstop
      cases hstop
    · rcases hfiles e he with ⟨hok, -⟩ | ⟨-, hstop'⟩
      · cases hout : fileOutcome ctx pattern e with
        | ok moved =>
          rw [hout] at hstop
          cases hstop
        | error error =>
          rw [hout] at hok
          cases hok
      · rw [hstop] at hstop'
        cases hstop'
    · exact Or.inr hnone

theorem traced_start (limit : Option Nat) : Traced ctx pattern plan (World.start limit) 0 where
  committed _ he := absurd he (Multiset.notMem_zero _)
  stored := by
    rintro e ⟨ev, hev, -⟩
    cases hev
  last _ := by
    intro before ev after h
    cases before <;> cases h

end Programs

section Early

variable {display : Nat → String} {ctx : Ctx} {pattern : Pattern} {plan : Plan} {w : World}

def admitted (pattern : Pattern) : Pattern
  | .deadline _ => none
  | .settle .. | .fileDone _ | .recordFailure .. => ()
  | .takePlaintextHash _ => ""
  | .afford _ | .append _ => .ok ()
  | r => pattern r

theorem follows_admitted (r : Request) : Follows pattern r (admitted pattern r) := by
  cases r <;> first | exact fun _ => rfl | exact nofun

variable (display pattern) in
theorem run_admitted {α : Type} (p : Prog Request Answer α) (h : w.budget.limit = none) :
    ∃ w', Prog.Run (serves display (Follows pattern)) p w (p.answered (admitted pattern)) w' ∧
      w'.budget.limit = none := by
  have hanswer : ∀ (s : World) (r : Request), s.budget.limit = none →
      (answers display (admitted pattern) s r).1 = admitted pattern r := by
    intro s r hs
    cases r
    case afford e =>
      show (s.budget.afford display e.size e.entry.dest).1 = .ok ()
      rw [Budget.afford, hs]
    all_goals rfl
  have hkeep : ∀ (s : World) (r : Request), s.budget.limit = none →
      (answers display (admitted pattern) s r).2.budget.limit = none := by
    intro s r hs
    cases r
    case afford e => exact (Budget.afford_limit).trans hs
    all_goals exact hs
  obtain ⟨hvalue, hlimit⟩ := eval_eq_answered hanswer hkeep p h
  have hrun : Prog.Run (serves display (Follows pattern)) p w _ _ :=
    run_driven (admitted pattern) follows_admitted p w
  rw [hvalue] at hrun
  exact ⟨_, hrun, hlimit⟩

theorem inOrder_admitted (display : Nat → String)
    {programs : List (Prog Request Answer (Except CliError Unit))}
    (hall : ∀ p ∈ programs, p.answered (admitted pattern) = .ok ()) (h : w.budget.limit = none) :
    ∃ w', Script.InOrder (serves display (Follows pattern)) programs w w' ∧
      w'.budget.limit = none := by
  induction programs generalizing w with
  | nil => exact ⟨w, .nil w, h⟩
  | cons p programs ih =>
    obtain ⟨w1, hrun, h1⟩ := run_admitted display pattern p h
    obtain ⟨w2, hrest, h2⟩ := ih (fun q hq => hall q (mem_cons_of_mem p hq)) h1
    rw [hall p mem_cons_self] at hrun
    exact ⟨w2, .cons hrun rfl hrest, h2⟩

theorem answered_forM {l : List Planned} {job : Planned → Job Unit}
    (h : ∀ e ∈ l, (job e).run.answered (admitted pattern) = .ok ()) :
    (l.forM job).run.answered (admitted pattern) = .ok () := by
  induction l with
  | nil => rfl
  | cons e l ih =>
    show (job e >>= fun _ => l.forM job).run.answered _ = _
    rw [ExceptT.run_bind, answered_bind, h e mem_cons_self]
    exact ih fun e' he => h e' (mem_cons_of_mem e he)

theorem answered_perform {subject : String} {outcome : Except CliError Unit}
    (h : stops outcome = false) :
    (perform subject outcome).run.answered (admitted pattern) = .ok () := by
  cases outcome with
  | ok u => rfl
  | error error =>
    rw [stops] at h
    rw [perform, h]
    rfl

theorem answered_auditRecord {entry : AuditEntry} :
    (auditRecord ctx entry).run.answered (admitted pattern) = .ok () := by
  rw [auditRecord]
  split <;> rfl

abbrev AsksPattern (pattern : Pattern) {α : Type} (p : Prog Request Answer α) : Prop :=
  p.Asks fun r => admitted pattern r = pattern r

theorem asks_ensure {α : Type} {r : Request} {check : Answer r → Except CliError α}
    (hr : admitted pattern r = pattern r) : AsksPattern pattern (ensure r check).run :=
  asks_bind (asks_query hr) fun _ => asks_ofExcept _

variable {e : Planned}

theorem asks_runStages {attempt : Nat} : AsksPattern pattern (runStages ctx e attempt).run := by
  rw [runStages_eq]
  apply asks_bind (asks_ensure rfl)
  intro _
  apply asks_bind (asks_ensure rfl)
  intro _
  apply asks_bind (asks_ensure rfl)
  intro moved
  apply asks_bind (asks_query (by rfl))
  intro _
  apply asks_bind (asks_ensure rfl)
  intro _
  apply asks_bind (asks_ensure rfl)
  intro _
  apply asks_bind (asks_query (by rfl))
  intro _
  exact asks_pure moved

theorem asks_retryLoop {left attempt : Nat} {outcome : Except CliError Nat} :
    AsksPattern pattern (retryLoop ctx e left attempt outcome) := by
  induction left generalizing attempt outcome with
  | zero => trivial
  | succ left ih =>
    cases outcome with
    | ok moved => trivial
    | error error =>
      rw [retryLoop]
      split
      · exact asks_runStages.bind fun _ => ih
      · trivial

theorem answered_walk : (walk ctx e).answered (admitted pattern) = fileOutcome ctx pattern e := by
  have hasks : AsksPattern pattern (walk ctx e) := asks_runStages.bind fun _ => asks_retryLoop
  exact hasks.answered_congr fun _ hr => hr

theorem answered_performed {op : String} (h : stops (fileOutcome ctx pattern e) = false) :
    (performed (transferFile ctx op) e).run.answered (admitted pattern) = .ok () := by
  have htransfer : (transferFile ctx op e).run.answered (admitted pattern) =
      (fileOutcome ctx pattern e).map fun _ => () := by
    show (ExceptT.lift (walk ctx e) >>= fun walked =>
      record ctx op e (walked.toOption.getD 0) (walked.map fun _ => ())).run.answered _ = _
    rw [ExceptT.run_bind_lift, answered_bind, answered_walk]
    show ((auditRecord ctx _).run >>= _ : Prog Request Answer _).answered _ = _
    rw [answered_bind, answered_auditRecord]
    rfl
  rw [performed, ExceptT.run_bind_lift, answered_bind, htransfer]
  apply answered_perform
  cases hout : fileOutcome ctx pattern e with
  | ok moved => rfl
  | error error =>
    rw [hout] at h
    exact h

theorem answered_makeDir (h : stops (pattern (.createDir e)) = false) :
    (makeDir e).run.answered (admitted pattern) = .ok () :=
  answered_perform h

theorem answered_removeExtra {op : String}
    (h : stops (pattern (.remove .destination e.entry.dest)) = false) :
    (removeExtra ctx op e).run.answered (admitted pattern) = .ok () := by
  show ((auditRecord ctx _).run >>= _ : Prog Request Answer _).answered _ = _
  rw [answered_bind, answered_auditRecord]
  exact answered_perform h

theorem run_removals (display : Nat → String) (ctx : Ctx) (op : String) {l : List Planned}
    (h : removesSome pattern l = true) (hlimit : w.budget.limit = none) :
    ∃ x w', Prog.Run (serves display (Follows pattern)) (l.forM (removeExtra ctx op)).run w x w' ∧
      ∃ ev ∈ w'.log, ev.removes = true := by
  induction l generalizing w with
  | nil => cases h
  | cons e l ih =>
    rw [removesSome] at h
    cases hremove : pattern (.remove .destination e.entry.dest) with
    | ok u =>
      obtain ⟨w', hrun, -⟩ := run_admitted display pattern
        ((e :: l).forM (removeExtra ctx op)).run hlimit
      refine ⟨_, w', hrun, ⟨.remove .destination e.entry.dest, .ok u⟩, ?_, rfl⟩
      obtain ⟨x, w1, hx, hrest⟩ := run_ask.mp hrun
      obtain rfl := eq_pattern hx rfl
      have hlog : ⟨.remove .destination e.entry.dest, .ok u⟩ ∈ w1.log := by
        rw [hx.1, hremove]
        exact mem_append_right _ mem_cons_self
      apply hrest.invariant (I := fun t : World => _ ∈ t.log) ?_ hlog
      intro s r x s' hmem hserve
      rw [hserve.1]
      exact mem_append_left _ hmem
    | error error =>
      rw [hremove] at h
      simp only [Bool.and_eq_true, Bool.not_eq_true'] at h
      obtain ⟨w1, hrun, h1⟩ := run_admitted display pattern (removeExtra ctx op e).run hlimit
      rw [answered_removeExtra (by rw [hremove]; exact h.1)] at hrun
      obtain ⟨x, w', hrest, hev⟩ := ih h.2 h1
      exact ⟨x, w', run_fallible_bind.mpr (Or.inr ⟨_, w1, hrun, hrest⟩), hev⟩

theorem reaches_removal (display : Nat → String)
    (hdirs : ∀ e ∈ plan.dirs, stops (pattern (.createDir e)) = false)
    (hfiles : ∀ e ∈ plan.files, stops (fileOutcome ctx pattern e) = false)
    (hremove : removesSome pattern plan.removals = true) :
    ∃ p w, Script.Reaches (serves display (Follows pattern)) ctx.lanes (runSync ctx plan .after).run
      (World.start none) p w ∧ ∃ ev ∈ w.log, ev.removes = true := by
  obtain ⟨w1, hdirs', h1⟩ := run_admitted display pattern (plan.dirs.forM makeDir).run
    (w := World.start none) rfl
  rw [answered_forM fun e he => answered_makeDir (hdirs e he)] at hdirs'
  have hprograms : ∀ p ∈ plan.files.map fun e =>
      (performed (transferFile ctx transferCommandSync) e).run,
      p.answered (admitted pattern) = .ok () := by
    intro p hp
    obtain ⟨e, he, rfl⟩ := mem_map.mp hp
    exact answered_performed (hfiles e he)
  obtain ⟨w2, hfiles', h2⟩ := inOrder_admitted display hprograms h1
  obtain ⟨x, w3, hremovals, hev⟩ := run_removals display ctx transferCommandSync hremove h2
  have hlast : Script.Reaches (serves display (Follows pattern)) ctx.lanes
      (deletions ctx transferCommandSync plan).run w2 (.done x) w3 := by
    rw [← Script.bind_done (deletions ctx transferCommandSync plan).run]
    exact Script.reaches_ofProg hremovals
  refine ⟨.done x, w3, ?_, hev⟩
  rw [runSync, ExceptT.run_bind]
  exact (reaches_transfers hdirs' hfiles').trans hlast

end Early

theorem spared_of_removesLast {display : Nat → String} {ctx : Ctx} {pattern : Pattern} {plan : Plan}
    (h : ∀ limit p w, Script.Reaches (serves display (Follows pattern)) ctx.lanes
      (runSync ctx plan .after).run (World.start limit) p w → RemovesLast plan w.log) :
    Spared ctx pattern plan := by
  by_contra hspared
  rw [Spared] at hspared
  push Not at hspared
  obtain ⟨⟨e, he, hfail⟩, hdirs, hfiles, hremove⟩ := hspared
  simp only [Bool.not_eq_true] at hdirs hfiles
  rw [ne_eq, Bool.not_eq_false] at hremove
  obtain ⟨p, w, hreach, ev, hev, hremoves⟩ := reaches_removal display hdirs hfiles hremove
  obtain ⟨before, after, hlog⟩ := append_of_mem hev
  obtain ⟨ev', hev', hcommit⟩ := h none p w hreach before ev after hlog hremoves e he
  obtain ⟨tokens, htraced, -⟩ := upholds_runSync.reaches (traced_start none) hreach
  apply hfail
  apply htraced.stored e
  refine ⟨ev', ?_, hcommit⟩
  rw [hlog]
  exact mem_append_left _ hev'

/-- With the deletions after the transfers, nothing is removed before every copy and update was
committed, in every run, exactly where each of them ends well, one stops the run, or no removal goes
through. -/
theorem removes_last_iff {display : Nat → String} {ctx : Ctx} {pattern : Pattern} {plan : Plan} :
    (∀ limit p w, Script.Reaches (serves display (Follows pattern)) ctx.lanes
      (runSync ctx plan .after).run (World.start limit) p w → RemovesLast plan w.log) ↔
      Spared ctx pattern plan := by
  constructor
  · exact spared_of_removesLast
  · intro hspared limit p w hreach
    obtain ⟨tokens, htraced, -⟩ := upholds_runSync.reaches (traced_start limit) hreach
    exact htraced.last hspared

def vanished : Pattern
  | .deadline _ => none
  | .upload _ e => .ok e.size
  | .takePlaintextHash _ => ""
  | .settle .. | .fileDone _ | .recordFailure .. => ()
  | .read .. => .error ⟨.fileNotFound, "no such file", none⟩
  | .afford _ | .encrypt .. | .verify .. | .commit .. | .createDir _ | .remove .. | .append _ =>
    .ok ()

def copyAndDelete : Plan :=
  ⟨[⟨.copy, "a", "a", some 10, planReasonMissing, none⟩,
    ⟨.delete, "", "b", some 10, planReasonExtra, none⟩]⟩

def oneLane : Ctx where
  retries := 3
  transfers := 1
  recording := true
  auditPath := "audit.log"
  verifyMode := .checksum
  direction := .into
  remote := "archive"
  reaperRemote _ := "archive"

/-- The extra is removed although the copy failed. -/
theorem removes_after_failed_copy :
    ¬∀ limit p w, Script.Reaches (serves toString (Follows vanished))
    oneLane.lanes (runSync oneLane copyAndDelete .after).run (World.start limit) p w →
    RemovesLast copyAndDelete w.log := by
  intro h
  have hspared := spared_of_removesLast h
  revert hspared
  decide

end Dctl.Transfer
