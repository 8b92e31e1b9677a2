import Dctl.Transfer.DeleteAfter

/-! What `transfers` and `moves` do for each entry that they start: one record, a removal only
behind the commit, a count only behind the commit, and no start once the deadline has passed.  The
storage, the clock, the budget and the audit log answer as they like. -/

namespace Dctl.Transfer

open Cli ProofKit List Prog

/-- The two ways to run the files of a plan. -/
inductive Family where
  | transfers
  | moves
  deriving DecidableEq, Repr

def Family.run (ctx : Ctx) (op : String) (plan : Plan) : Family → Execution Unit
  | transfers => Transfer.transfers ctx op plan
  | moves => Transfer.moves ctx op plan

def Family.file (ctx : Ctx) (op : String) : Family → Planned → Job Unit
  | transfers => transferFile ctx op
  | moves => moveFile ctx op

/-- An event, and whether the deadline had passed when the request was made. -/
structure Stamped where
  event : Event
  passed : Bool

/-- Everything that was asked, and whether the deadline has passed. -/
structure Watch where
  log : List Stamped := []
  passed : Bool := false

def Watch.tells (w : Watch) : (r : Request) → Answer r → Prop
  | .deadline _, exceeded => exceeded.isSome = w.passed
  | _, _ => True

/-- A watch that notes each request.  Time goes by while it is answered. -/
def timed : Prog.Server Watch Request Answer := fun w r x w' =>
  w'.log = w.log ++ [⟨⟨r, x⟩, w.passed⟩] ∧ (w.passed = true → w'.passed = true) ∧ w.tells r x

def Event.starts : Event → Option Planned
  | ⟨.read 0 e, _⟩ => some e
  | _ => none

def Event.records : Event → Option String
  | ⟨.append entry, _⟩ => some entry.path
  | _ => none

/-- The event lets a file start: the clock or the budget does not hold it back. -/
def Event.gates (e : Planned) : Event → Bool
  | ⟨.deadline subject, none⟩ => subject = e.entry.dest
  | ⟨.afford e', .ok _⟩ => e' = e
  | _ => false

def started (log : List Stamped) : Multiset Planned := ↑(log.filterMap (·.event.starts))

def recorded (log : List Stamped) : Multiset String := ↑(log.filterMap (·.event.records))

/-- A source goes, or counts as done, only behind a commit, and is read again only when a gate
failed. -/
def Allowed (before : List Stamped) (s : Stamped) : Prop :=
  match s.event with
  | ⟨.remove .source path, _⟩ =>
    ∃ e, e.entry.source = path ∧ ∃ t ∈ before, t.event.commits e = true
  | ⟨.fileDone e, _⟩ => ∃ t ∈ before, t.event.commits e = true
  | ⟨.read 0 e, _⟩ => ∃ t ∈ before, t.event.gates e = true ∧ t.passed = false
  | _ => True

/-- Every event has in front of it what it must have. -/
def InOrder (log : List Stamped) : Prop :=
  ∀ before s after, log = before ++ s :: after → Allowed before s

/-- `moves`, which does not ask the clock, takes no file once the deadline has passed. -/
def OnTime (family : Family) (w : Watch) : (r : Request) → Answer r → Prop
  | .afford _, _ => family = .moves → w.passed = false
  | _, _ => True

/-- How far a file is. -/
inductive Mark where
  | pending
  | cleared
  | begun
  | stored
  deriving DecidableEq, Repr

def marked (m : Mark) (tokens : Multiset (Planned × Mark)) : Multiset Planned :=
  (tokens.filter (·.2 = m)).map Prod.fst

section Marked

variable {m : Mark} {e : Planned} {tokens tokens' : Multiset (Planned × Mark)}

@[simp] theorem marked_zero : marked m 0 = 0 := rfl

@[simp] theorem marked_add : marked m (tokens + tokens') = marked m tokens + marked m tokens' := by
  simp [marked]

theorem marked_cons {m' : Mark} :
    marked m ((e, m') ::ₘ tokens) = if m' = m then e ::ₘ marked m tokens else marked m tokens := by
  split
  · next h => simp [marked, h]
  · next h => simp [marked, h]

theorem mem_marked : e ∈ marked m tokens ↔ (e, m) ∈ tokens := by
  rw [marked, Multiset.mem_map]
  constructor
  · rintro ⟨⟨e', m'⟩, h, rfl⟩
    obtain ⟨hmem, hm⟩ := Multiset.mem_filter.mp h
    obtain rfl : m' = m := hm
    exact hmem
  · intro h
    exact ⟨(e, m), Multiset.mem_filter.mpr ⟨h, rfl⟩, rfl⟩

end Marked

structure Journaled (plan : Plan) (w : Watch) (tokens : Multiset (Planned × Mark)) : Prop where
  starts : started w.log + marked .pending tokens = ↑plan.files
  records : recorded w.log + (marked .begun tokens).map (·.entry.dest) =
    (started w.log).map (·.entry.dest)
  stored : ∀ e ∈ marked .stored tokens, ∃ t ∈ w.log, t.event.commits e = true
  cleared : ∀ e ∈ marked .cleared tokens, ∃ t ∈ w.log, t.event.gates e = true ∧ t.passed = false
  inOrder : InOrder w.log

section Journal

variable {plan : Plan} {w w' : Watch} {tokens : Multiset (Planned × Mark)} {s : Stamped}
  {e : Planned}

variable {log : List Stamped}

theorem started_append (h : s.event.starts = none) : started (log ++ [s]) = started log := by
  simp [started, filterMap_append, h]

theorem recorded_append (h : s.event.records = none) : recorded (log ++ [s]) = recorded log := by
  simp [recorded, filterMap_append, h]

theorem started_append_of_some (h : s.event.starts = some e) :
    started (log ++ [s]) = e ::ₘ started log := by
  have hone : [s].filterMap (·.event.starts) = [e] := by simp [h]
  rw [started, filterMap_append, ← Multiset.coe_add, hone, add_comm]
  rfl

theorem recorded_append_of_some {path : String} (h : s.event.records = some path) :
    recorded (log ++ [s]) = path ::ₘ recorded log := by
  have hone : [s].filterMap (·.event.records) = [path] := by simp [h]
  rw [recorded, filterMap_append, ← Multiset.coe_add, hone, add_comm]
  rfl

theorem inOrder_append (h : InOrder log) (hs : Allowed log s) : InOrder (log ++ [s]) := by
  intro before s' after hlog
  rcases eq_nil_or_concat after with rfl | ⟨rest, last, rfl⟩
  · obtain ⟨rfl, hl⟩ := append_inj' hlog rfl
    cases hl
    exact hs
  · rw [concat_eq_append, ← cons_append, ← append_assoc] at hlog
    exact h before s' rest (append_inj_left' hlog rfl)

theorem exists_append {P : Stamped → Prop} (h : ∃ t ∈ log, P t) : ∃ t ∈ log ++ [s], P t := by
  obtain ⟨t, ht, hP⟩ := h
  exact ⟨t, mem_append_left _ ht, hP⟩

section

variable (h : Journaled plan w tokens)
include h

theorem Journaled.pass (hlog : w'.log = w.log ++ [s]) (hstarts : s.event.starts = none)
    (hrecords : s.event.records = none) (hallowed : Allowed w.log s) :
    Journaled plan w' tokens where
  starts := by
    rw [hlog, started_append hstarts]
    exact h.starts
  records := by
    rw [hlog, recorded_append hrecords, started_append hstarts]
    exact h.records
  stored e he := hlog ▸ exists_append (h.stored e he)
  cleared e he := hlog ▸ exists_append (h.cleared e he)
  inOrder := hlog ▸ inOrder_append h.inOrder hallowed

theorem Journaled.clear (hgate : ∃ t ∈ w.log, t.event.gates e = true ∧ t.passed = false) :
    Journaled plan w ((e, .cleared) ::ₘ tokens) where
  starts := by
    simp only [marked_cons, reduceCtorEq, if_false]
    exact h.starts
  records := by
    simp only [marked_cons, reduceCtorEq, if_false]
    exact h.records
  stored e' he := by
    simp only [marked_cons, reduceCtorEq, if_false] at he
    exact h.stored e' he
  cleared e' he := by
    simp only [marked_cons, if_true, Multiset.mem_cons] at he
    rcases he with rfl | he
    · exact hgate
    · exact h.cleared e' he
  inOrder := h.inOrder

theorem Journaled.store (hcommit : ∃ t ∈ w.log, t.event.commits e = true) :
    Journaled plan w ((e, .stored) ::ₘ tokens) where
  starts := by
    simp only [marked_cons, reduceCtorEq, if_false]
    exact h.starts
  records := by
    simp only [marked_cons, reduceCtorEq, if_false]
    exact h.records
  stored e' he := by
    simp only [marked_cons, if_true, Multiset.mem_cons] at he
    rcases he with rfl | he
    · exact hcommit
    · exact h.stored e' he
  cleared e' he := by
    simp only [marked_cons, reduceCtorEq, if_false] at he
    exact h.cleared e' he
  inOrder := h.inOrder

end

theorem Journaled.begin (h : Journaled plan w ((e, .pending) ::ₘ tokens))
    (hlog : w'.log = w.log ++ [s]) (hstarts : s.event.starts = some e)
    (hrecords : s.event.records = none) (hallowed : Allowed w.log s) :
    Journaled plan w' ((e, .begun) ::ₘ tokens) where
  starts := by
    have hst := h.starts
    simp only [marked_cons, reduceCtorEq, if_true, if_false] at hst ⊢
    rw [hlog, started_append_of_some hstarts, Multiset.cons_add, ← Multiset.add_cons]
    exact hst
  records := by
    have hrec := h.records
    simp only [marked_cons, reduceCtorEq, if_true, if_false] at hrec ⊢
    rw [hlog, recorded_append hrecords, started_append_of_some hstarts, Multiset.map_cons,
      Multiset.map_cons, Multiset.add_cons, hrec]
  stored e' he := by
    simp only [marked_cons, reduceCtorEq, if_false] at he
    refine hlog ▸ exists_append (h.stored e' ?_)
    simpa only [marked_cons, reduceCtorEq, if_false] using he
  cleared e' he := by
    simp only [marked_cons, reduceCtorEq, if_false] at he
    refine hlog ▸ exists_append (h.cleared e' ?_)
    simpa only [marked_cons, reduceCtorEq, if_false] using he
  inOrder := hlog ▸ inOrder_append h.inOrder hallowed

theorem Journaled.record (h : Journaled plan w ((e, .begun) ::ₘ tokens))
    (hlog : w'.log = w.log ++ [s]) (hstarts : s.event.starts = none)
    (hrecords : s.event.records = some e.entry.dest) (hallowed : Allowed w.log s) :
    Journaled plan w' tokens where
  starts := by
    have hst := h.starts
    simp only [marked_cons, reduceCtorEq, if_false] at hst
    rw [hlog, started_append hstarts]
    exact hst
  records := by
    have hrec := h.records
    simp only [marked_cons, if_true, Multiset.map_cons] at hrec
    rw [hlog, recorded_append_of_some hrecords, started_append hstarts, Multiset.cons_add,
      ← Multiset.add_cons]
    exact hrec
  stored e' he := by
    refine hlog ▸ exists_append (h.stored e' ?_)
    simpa only [marked_cons, reduceCtorEq, if_false] using he
  cleared e' he := by
    refine hlog ▸ exists_append (h.cleared e' ?_)
    simpa only [marked_cons, reduceCtorEq, if_false] using he
  inOrder := hlog ▸ inOrder_append h.inOrder hallowed

end Journal

section Programs

variable {family : Family} {ctx : Ctx} {op : String} {plan : Plan} {e : Planned}
  {own rest : Multiset (Planned × Mark)} {α β : Type}

def Request.isFree : Request → Bool
  | .read 0 _ | .append _ | .remove .source _ | .fileDone _ => false
  | _ => true

variable {r : Request}

theorem Journaled.free {w w' : Watch} {tokens : Multiset (Planned × Mark)} {x : Answer r}
    (h : Journaled plan w tokens) (hlog : w'.log = w.log ++ [⟨⟨r, x⟩, w.passed⟩])
    (hr : r.isFree = true) : Journaled plan w' tokens := by
  cases r
  case read attempt e =>
    cases attempt with
    | zero => cases hr
    | succ attempt => exact h.pass hlog rfl rfl trivial
  case append => cases hr
  case fileDone => cases hr
  case remove target path =>
    cases target with
    | source => cases hr
    | destination => exact h.pass hlog rfl rfl trivial
  all_goals exact h.pass hlog rfl rfl trivial

variable (family plan) in
/-- A program of the run with the marks of its file. -/
abbrev Journals (post : α → Multiset (Planned × Mark) → Prop) (p : Prog Request Answer α)
    (own : Multiset (Planned × Mark)) : Prop :=
  p.Upholds (timed.given (OnTime family)) (Journaled plan) post own

variable {post : Except CliError β → Multiset (Planned × Mark) → Prop}

theorem journals_query {f : Answer r → Job β} (hr : r.isFree = true)
    (hf : ∀ x, Journals family plan post (f x).run own) :
    Journals family plan post (Prog.query r >>= f).run own := by
  intro w others x w' h hserve
  exact ⟨own, h.free hserve.2.1 hr, hf x⟩

theorem journals_ofExcept {x : Except CliError α} {f : α → Job β}
    (hok : ∀ a, Journals family plan post (f a).run own)
      (herror : ∀ error, post (.error error) own) :
    Journals family plan post (Prog.ofExcept x >>= f).run own := by
  cases x with
  | error error => exact herror error
  | ok a => exact hok a

theorem journals_ensure {check : Answer r → Except CliError α} {f : α → Job β}
    (hr : r.isFree = true) (hok : ∀ a, Journals family plan post (f a).run own)
    (herror : ∀ error, post (.error error) own) :
    Journals family plan post (ensure r check >>= f).run own := by
  intro w others x w' h hserve
  exact ⟨own, h.free hserve.2.1 hr, journals_ofExcept hok herror⟩

/-- The file was started and is not recorded.  Nothing else is. -/
def Underway (e : Planned) (own : Multiset (Planned × Mark)) (committed : Prop) : Prop :=
  ∃ rest, own = (e, .begun) ::ₘ rest ∧ marked .begun rest = 0 ∧ (committed → (e, .stored) ∈ rest)

theorem Underway.mono {committed committed' : Prop} (h : Underway e own committed)
    (hle : committed' → committed) : Underway e own committed' := by
  obtain ⟨rest, hown, hbegun, hstored⟩ := h
  exact ⟨rest, hown, hbegun, fun hc => hstored (hle hc)⟩

def afterRead (ctx : Ctx) (e : Planned) (attempt : Nat) : Job Nat := do
  ensure (.encrypt attempt e) id
  let moved ← ensure (.upload attempt e) id
  Prog.query (Request.settle e moved)
  ensure (.verify attempt e ctx.verifyMode) id
  ensure (.commit attempt e) id
  Prog.query (Request.fileDone e)
  pure moved

theorem runStages_eq_read (attempt : Nat) :
    runStages ctx e attempt = ensure (.read attempt e) id >>= fun _ => afterRead ctx e attempt := by
  rw [runStages_eq]
  rfl

variable {attempt : Nat}

theorem journals_commit {moved : Nat} (h : Underway e own False) :
    Journals family plan (fun x own' => Underway e own' (x.isOk = true))
      (ensure (.commit attempt e) id >>= fun _ =>
        Prog.query (Request.fileDone e) >>= fun _ => (pure moved : Job Nat)).run own := by
  intro w others x w' hw hserve
  cases x with
  | error error => exact ⟨own, hw.free hserve.2.1 rfl, h.mono nofun⟩
  | ok u =>
    obtain ⟨rest, rfl, hbegun, -⟩ := h
    have hcommit : ∃ t ∈ w'.log, t.event.commits e = true := by
      rw [hserve.2.1]
      exact ⟨_, mem_append_right _ mem_cons_self, decide_eq_true rfl⟩
    refine ⟨(e, .stored) ::ₘ (e, .begun) ::ₘ rest, ?_, ?_⟩
    · rw [Multiset.cons_add]
      exact (hw.free hserve.2.1 rfl).store hcommit
    · intro w1 others1 x1 w2 hw1 hserve1
      refine ⟨(e, .stored) ::ₘ (e, .begun) ::ₘ rest, ?_, ?_⟩
      · refine hw1.pass hserve1.2.1 rfl rfl (hw1.stored e ?_)
        rw [mem_marked]
        exact Multiset.mem_add.mpr (Or.inl (Multiset.mem_cons_self _ _))
      · refine ⟨(e, .stored) ::ₘ rest, Multiset.cons_swap _ _ _, ?_,
          fun _ => Multiset.mem_cons_self _ _⟩
        simpa only [marked_cons, reduceCtorEq, if_false] using hbegun

theorem journals_afterRead (h : Underway e own False) :
    Journals family plan (fun x own' => Underway e own' (x.isOk = true))
      (afterRead ctx e attempt).run own := by
  rw [afterRead]
  apply journals_ensure rfl _ fun _ => h.mono nofun
  intro _
  apply journals_ensure rfl _ fun _ => h.mono nofun
  intro moved
  apply journals_query rfl
  intro _
  apply journals_ensure rfl _ fun _ => h.mono nofun
  intro _
  exact journals_commit h

theorem journals_first (hcleared : (e, Mark.cleared) ∈ rest) (hbegun : marked .begun rest = 0) :
    Journals family plan (fun x own' => Underway e own' (x.isOk = true))
      (runStages ctx e 0).run ((e, .pending) ::ₘ rest) := by
  rw [runStages_eq_read]
  intro w others x w' hw hserve
  have hway : Underway e ((e, .begun) ::ₘ rest) False := ⟨rest, rfl, hbegun, nofun⟩
  rw [Multiset.cons_add] at hw
  have hgate : ∃ t ∈ w.log, t.event.gates e = true ∧ t.passed = false := by
    apply hw.cleared
    rw [mem_marked]
    exact Multiset.mem_cons_of_mem (Multiset.mem_add.mpr (Or.inl hcleared))
  refine ⟨(e, .begun) ::ₘ rest, ?_, ?_⟩
  · rw [Multiset.cons_add]
    exact hw.begin hserve.2.1 rfl rfl hgate
  · exact journals_ofExcept (fun _ => journals_afterRead hway) fun _ => hway.mono nofun

theorem journals_again (h : Underway e own False) :
    Journals family plan (fun x own' => Underway e own' (x.isOk = true))
      (runStages ctx e (attempt + 1)).run own := by
  rw [runStages_eq_read]
  exact journals_ensure rfl (fun _ => journals_afterRead h) fun _ => h.mono nofun

theorem journals_retryLoop {left : Nat} {outcome : Except CliError Nat}
    (h : Underway e own (outcome.isOk = true)) :
    Journals family plan (fun x own' => Underway e own' (x.isOk = true))
      (retryLoop ctx e left (attempt + 1) outcome) own := by
  induction left generalizing attempt outcome own with
  | zero => exact h
  | succ left ih =>
    cases outcome with
    | ok moved => exact h
    | error error =>
      rw [retryLoop]
      split
      · exact (journals_again (h.mono False.elim)).bind fun _ _ => ih
      · exact h

theorem journals_walk (hcleared : (e, Mark.cleared) ∈ rest) (hbegun : marked .begun rest = 0) :
    Journals family plan (fun x own' => Underway e own' (x.isOk = true)) (walk ctx e)
      ((e, .pending) ::ₘ rest) :=
  (journals_first hcleared hbegun).bind fun _ _ => journals_retryLoop

theorem journals_record {moved : Nat} {outcome : Except CliError Unit} {committed : Prop}
    (hrec : ctx.recording = true) (h : Underway e own committed) :
    Journals family plan (fun _ own' => marked .begun own' = 0) (record ctx op e moved outcome).run
      own := by
  rw [record]
  apply journals_query rfl
  intro hash
  rw [auditRecord, if_pos hrec]
  obtain ⟨rest, rfl, hbegun, -⟩ := h
  intro w others x w' hw hserve
  rw [Multiset.cons_add] at hw
  refine ⟨rest, hw.record hserve.2.1 rfl rfl trivial, ?_⟩
  apply journals_ofExcept
  · intro _
    exact hbegun
  · intro _
    exact hbegun

theorem begun_pending : marked .begun ({(e, .pending)} : Multiset (Planned × Mark)) = 0 := by
  rw [← Multiset.cons_zero]
  simp only [marked_cons, reduceCtorEq, if_false, marked_zero]

theorem begun_cleared : marked .begun ((e, Mark.cleared) ::ₘ 0) = 0 := by
  simp only [marked_cons, reduceCtorEq, if_false, marked_zero]

theorem Journaled.gated {w : Watch} {others : Multiset (Planned × Mark)}
    (h : Journaled plan w ({(e, .pending)} + others))
    (hgate : ∃ t ∈ w.log, t.event.gates e = true ∧ t.passed = false) :
    Journaled plan w (((e, .pending) ::ₘ (e, .cleared) ::ₘ 0) + others) := by
  rw [Multiset.cons_swap, Multiset.cons_add, Multiset.cons_zero]
  exact h.clear hgate

theorem journals_transferFile (hrec : ctx.recording = true) :
    Journals family plan (fun _ own' => marked .begun own' = 0) (transferFile ctx op e).run
      {(e, .pending)} := by
  rw [transferFile, withinDeadline]
  intro w others x w' hw hserve
  have hfree := hw.free hserve.2.1 rfl
  cases x with
  | some exceeded => exact ⟨_, hfree, begun_pending⟩
  | none =>
    have hgate : ∃ t ∈ w'.log, t.event.gates e = true ∧ t.passed = false := by
      rw [hserve.2.1]
      exact ⟨_, mem_append_right _ mem_cons_self, decide_eq_true rfl, hserve.2.2.2.symm⟩
    refine ⟨(e, .pending) ::ₘ (e, .cleared) ::ₘ 0, hfree.gated hgate, ?_⟩
    show Journals family plan _ (affordFile e >>= _).run _
    apply journals_ensure rfl
    · intro _
      rw [ExceptT.run_bind_lift]
      exact (journals_walk (Multiset.mem_cons_self _ _) begun_cleared).bind fun _ _ =>
        journals_record hrec
    · intro _
      simp only [marked_cons, reduceCtorEq, if_false, marked_zero]

theorem journals_moveFile (hrec : ctx.recording = true) :
    Journals .moves plan (fun _ own' => marked .begun own' = 0) (moveFile ctx op e).run
      {(e, .pending)} := by
  rw [moveFile, affordFile]
  intro w others x w' hw hserve
  have hfree := hw.free hserve.2.1 rfl
  cases x with
  | error error => exact ⟨_, hfree, begun_pending⟩
  | ok u =>
    have hgate : ∃ t ∈ w'.log, t.event.gates e = true ∧ t.passed = false := by
      rw [hserve.2.1]
      exact ⟨_, mem_append_right _ mem_cons_self, decide_eq_true rfl, hserve.1 rfl⟩
    refine ⟨(e, .pending) ::ₘ (e, .cleared) ::ₘ 0, hfree.gated hgate, ?_⟩
    show Journals .moves plan _ (ExceptT.lift (walk ctx e) >>= _).run _
    rw [ExceptT.run_bind_lift]
    refine (journals_walk (Multiset.mem_cons_self _ _) begun_cleared).bind
      fun walked own' hway => ?_
    cases walked with
    | error error => exact journals_record hrec hway
    | ok moved =>
      intro w1 others1 removed w2 hw1 hserve1
      refine ⟨own', hw1.pass hserve1.2.1 rfl rfl ⟨e, rfl, hw1.stored e ?_⟩, ?_⟩
      · obtain ⟨rest, rfl, -, hstored⟩ := hway
        rw [mem_marked]
        exact Multiset.mem_add.mpr (Or.inl (Multiset.mem_cons_of_mem (hstored rfl)))
      · exact journals_record hrec hway

theorem journals_file (hrec : ctx.recording = true) :
    Journals family plan (fun _ own' => marked .begun own' = 0) (family.file ctx op e).run
      {(e, .pending)} := by
  cases family with
  | transfers => exact journals_transferFile hrec
  | moves => exact journals_moveFile hrec

theorem journals_free {p : Prog Request Answer α} (h : p.Asks fun r => r.isFree = true) :
    Journals family plan (fun _ own' => own' = own) p own :=
  h.upholds fun _ hr _ _ _ _ hw hserve => hw.free hserve.2.1 hr

theorem asks_perform {subject : String} {outcome : Except CliError Unit} :
    (perform subject outcome).run.Asks fun r => r.isFree = true := by
  cases outcome with
  | ok u => exact asks_pure _
  | error error =>
    rw [perform]
    split
    · trivial
    · exact asks_bind (asks_query rfl) fun _ => asks_pure _

theorem journals_performed (hrec : ctx.recording = true) :
    Journals family plan (fun _ own' => marked .begun own' = 0)
      (performed (family.file ctx op) e).run {(e, .pending)} := by
  rw [performed, ExceptT.run_bind_lift]
  refine (journals_file hrec).bind fun outcome own' hown => ?_
  exact (journals_free asks_perform).mono fun _ _ heq => heq ▸ hown

theorem journals_dirs {l : List Planned} :
    Journals family plan (fun _ own' => own' = own) (l.forM makeDir).run own := by
  apply journals_free
  induction l with
  | nil => exact asks_pure _
  | cons e l ih =>
    show (makeDir e >>= fun _ => l.forM makeDir).run.Asks _
    refine asks_bind ?_ fun _ => ih
    exact asks_bind (asks_query rfl) fun _ => asks_perform

def shareOf (e : Planned) : Share (Planned × Mark) :=
  ⟨{(e, .pending)}, fun own => marked .begun own = 0, fun _ => True⟩

theorem sum_shareOf (l : List Planned) :
    ((l.map shareOf).map Share.own).sum = (l : Multiset Planned).map fun e =>
      (e, Mark.pending) := by
  induction l with
  | nil => rfl
  | cons e l ih =>
    rw [map_cons, map_cons, sum_cons, ih, ← Multiset.cons_coe, Multiset.map_cons]
    rfl

theorem marked_begun_sum {owns : List (Multiset (Planned × Mark))}
    (h : ∀ own ∈ owns, marked .begun own = 0) : marked .begun owns.sum = 0 := by
  induction owns with
  | nil => rfl
  | cons own owns ih =>
    rw [sum_cons, marked_add, h own mem_cons_self,
      ih fun own' hown => h own' (mem_cons_of_mem own hown), add_zero]

theorem upholds_family (hrec : ctx.recording = true) :
    (family.run ctx op plan).run.Upholds (timed.given (OnTime family)) (Journaled plan)
      (fun _ own => marked .begun own = 0) ((plan.files : Multiset Planned).map fun e =>
        (e, .pending)) := by
  have hinOrder : ∀ job, job = family.file ctx op →
      (sequentially (plan.dirs.forM makeDir) >>= fun _ =>
        runConcurrently plan.files job).run.Upholds (timed.given (OnTime family)) (Journaled plan)
        (fun _ own => marked .begun own = 0)
        ((plan.files : Multiset Planned).map fun e => (e, .pending)) := by
    rintro job rfl
    rw [ExceptT.run_bind]
    refine (Script.upholds_ofProg journals_dirs).bind fun x own hown => ?_
    subst hown
    cases x with
    | error error =>
      show marked .begun _ = 0
      rw [← sum_shareOf]
      apply marked_begun_sum
      intro own hown
      simp only [map_map, mem_map] at hown
      obtain ⟨e, -, rfl⟩ := hown
      rw [Function.comp, shareOf, ← Multiset.cons_zero]
      simp only [marked_cons, reduceCtorEq, if_false, marked_zero]
    | ok u =>
      show (Script.inLanes (plan.files.map fun e => (performed (family.file ctx op) e).run)).Upholds
        _ _ _ _
      rw [← sum_shareOf, ← zero_add ((plan.files.map shareOf).map Share.own).sum]
      apply Script.upholds_inShares
      · rw [List.forall₂_map_left_iff, List.forall₂_map_right_iff, List.forall₂_same]
        intro e _
        refine ⟨(journals_performed hrec).mono fun _ _ hown => ⟨hown, fun _ => trivial⟩, ?_⟩
        rw [shareOf, ← Multiset.cons_zero]
        simp only [marked_cons, reduceCtorEq, if_false, marked_zero]
      · intro x owns howns
        rw [zero_add]
        apply marked_begun_sum
        rw [List.forall₂_map_right_iff] at howns
        exact forall₂_left (howns.imp fun own e hown => hown.1)
  cases family with
  | transfers => exact hinOrder _ rfl
  | moves => exact hinOrder _ rfl

theorem journaled_start :
    Journaled plan {} ((plan.files : Multiset Planned).map fun e => (e, .pending)) where
  starts := by
    rw [started, marked, Multiset.filter_eq_self.mpr, Multiset.map_map]
    · simp
    · intro a ha
      obtain ⟨e, -, rfl⟩ := Multiset.mem_map.mp ha
      rfl
  records := by
    have hnone :
        marked .begun ((plan.files : Multiset Planned).map fun e => (e, Mark.pending)) = 0 := by
      rw [marked, Multiset.filter_eq_nil.mpr, Multiset.map_zero]
      intro a ha
      obtain ⟨e, -, rfl⟩ := Multiset.mem_map.mp ha
      exact nofun
    rw [hnone]
    rfl
  stored e he := by
    obtain ⟨e', -, he'⟩ := Multiset.mem_map.mp (mem_marked.mp he)
    cases he'
  cleared e he := by
    obtain ⟨e', -, he'⟩ := Multiset.mem_map.mp (mem_marked.mp he)
    cases he'
  inOrder before s after h := by
    cases before <;> cases h

theorem endsOnFailure_family : (family.run ctx op plan).run.EndsOnFailure := by
  have hinOrder : ∀ job, (sequentially (plan.dirs.forM makeDir) >>= fun _ =>
      runConcurrently plan.files job).run.EndsOnFailure := by
    intro job
    rw [ExceptT.run_bind]
    refine Script.endsOnFailure_ofProg_bind fun x => ?_
    cases x with
    | error error => trivial
    | ok u => exact Script.endsOnFailure_inLanes _
  cases family with
  | transfers => exact hinOrder _
  | moves => exact hinOrder _

/-- In a run of `transfers`, and in one of `moves` that takes no file once the deadline has passed:
each entry is started at most once and recorded at most once, and when the run has ended exactly the
entries that were started are recorded; a source is removed and a file is counted only behind the
commit; a file is started only when it was let through before the deadline; and once a fatal outcome
was collected no entry is started, until those that run have ended. -/
theorem started_entries_recorded (hrec : ctx.recording = true)
    {p : Script Request Answer CliError (Except CliError Unit)} {w : Watch}
    (h :
      Script.Reaches (timed.given (OnTime family)) ctx.lanes (family.run ctx op plan).run {} p w) :
    started w.log ≤ ↑plan.files ∧
      recorded w.log ≤ (started w.log).map (·.entry.dest) ∧
      (∀ x, p = .done x → recorded w.log = (started w.log).map (·.entry.dest)) ∧
      InOrder w.log ∧
      ∀ tasks e next, p = .lanes tasks (some e) next → ∀ p' w',
        Script.Reaches timed ctx.lanes p w p' w' →
          (∃ tasks', p' = .lanes tasks' (some e) next ∧
            Script.unstarted tasks' = Script.unstarted tasks) ∨ p' = .done (.error e) := by
  obtain ⟨tokens, hw, hp⟩ := (upholds_family hrec).reaches journaled_start h
  refine ⟨?_, ?_, ?_, hw.inOrder, ?_⟩
  · rw [← hw.starts]
    exact Multiset.le_add_right _ _
  · rw [← hw.records]
    exact Multiset.le_add_right _ _
  · rintro x rfl
    have hnone : marked .begun tokens = 0 := hp
    rw [← hw.records, hnone]
    simp
  · rintro tasks e next rfl p' w' hreach
    exact Script.reaches_after_failure (endsOnFailure_family.reaches h) hreach

end Programs

def fileNamed (name : String) : PlanEntry := ⟨.copy, name, name, some 1, planReasonMissing, none⟩

def smooth (w : Watch) : (r : Request) → Answer r
  | .deadline _ => if w.passed then some "--max-duration 1s" else none
  | .upload _ e => .ok e.size
  | .takePlaintextHash _ => ""
  | .settle .. | .fileDone _ | .recordFailure .. => ()
  | .afford _ | .read .. | .encrypt .. | .verify .. | .commit .. | .createDir _ | .remove
    .. | .append _ =>
    .ok ()

/-- Every request is served well.  Where records are slow, the deadline passes while one is written.
-/
def paced (slow : Bool) (w : Watch) (r : Request) : Answer r × Watch :=
  (smooth w r, ⟨w.log ++ [⟨⟨r, smooth w r⟩, w.passed⟩],
    w.passed || slow && (Event.records ⟨r, smooth w r⟩).isSome⟩)

theorem timed_paced (slow : Bool) (w : Watch) (r : Request) :
    timed w r (paced slow w r).1 (paced slow w r).2 := by
  refine ⟨rfl, fun h => by rw [paced, h, Bool.true_or], ?_⟩
  cases r
  case deadline =>
    show (if w.passed then some "--max-duration 1s" else none).isSome = w.passed
    cases w.passed <;> rfl
  all_goals trivial

def fileEnd (slow : Bool) (e : Planned) (w : Watch) : Watch :=
  ((performed (Family.moves.file oneLane "move") e).run.eval (paced slow) w).2

/-- `OnTime` of a move, as a check. -/
def inTime (w : Watch) : Request → Bool
  | .afford _ => !w.passed
  | _ => true

/-- A move of two files in time. -/
theorem started_entries_recorded_move :
    let w := fileEnd false ⟨1, fileNamed "b"⟩ (fileEnd false ⟨0, fileNamed "a"⟩ {})
    started w.log = {⟨0, fileNamed "a"⟩, ⟨1, fileNamed "b"⟩} ∧
      recorded w.log = (started w.log).map (·.entry.dest) := by
  have hcheck : ∀ (w : Watch) r (x : Answer r), inTime w r = true → OnTime .moves w r x := by
    intro w r x h
    cases r <;> first | trivial | exact fun _ => by simpa [inTime] using h
  have hrun : ∀ e w a w', (performed (Family.moves.file oneLane "move") e).run.evalGiven
      (paced false) (fun w r _ => inTime w r) w = some (a, w') →
      Prog.Run (timed.given (OnTime .moves)) (performed (Family.moves.file oneLane "move") e).run w
        a w' :=
    fun e w a w' h => run_of_evalGiven _ hcheck (timed_paced false) h
  have hreach : Script.Reaches (timed.given (OnTime .moves)) oneLane.lanes
      (Family.moves.run oneLane "move" ⟨[fileNamed "a", fileNamed "b"]⟩).run {} (.done (.ok ()))
      (fileEnd false ⟨1, fileNamed "b"⟩ (fileEnd false ⟨0, fileNamed "a"⟩ {})) := by
    rw [Family.run, ← Script.bind_done (moves oneLane "move" _).run]
    exact reaches_moves (Prog.Run.done _ _)
      (.cons (hrun _ _ _ _ rfl) rfl (.cons (hrun _ _ _ _ rfl) rfl (.nil _)))
  exact ⟨by decide, (started_entries_recorded rfl hreach).2.2.1 _ rfl⟩

/-- The second file of a move is taken after the deadline has passed, which was while the first one
was recorded. -/
theorem move_starts_late : ¬∀ p w, Script.Reaches timed oneLane.lanes
    (Family.moves.run oneLane "move" ⟨[fileNamed "a", fileNamed "b"]⟩).run {} p w →
      InOrder w.log := by
  intro h
  have hrun : ∀ e w, Prog.Run timed (performed (Family.moves.file oneLane "move") e).run w _ _ :=
    fun e w => run_eval (timed_paced true) _ w
  have hreach : Script.Reaches timed oneLane.lanes
      (Family.moves.run oneLane "move" ⟨[fileNamed "a", fileNamed "b"]⟩).run {} (.done (.ok ()))
      (fileEnd true ⟨1, fileNamed "b"⟩ (fileEnd true ⟨0, fileNamed "a"⟩ {})) := by
    rw [Family.run, ← Script.bind_done (moves oneLane "move" _).run]
    exact reaches_moves (Prog.Run.done _ _) (.cons (hrun _ _) rfl (.cons (hrun _ _) rfl (.nil _)))
  obtain ⟨t, ht, hgate, hpassed⟩ := h _ _ hreach
    ((fileEnd true ⟨1, fileNamed "b"⟩ (fileEnd true ⟨0, fileNamed "a"⟩ {})).log.take 12) _ _ rfl
  have hlate : ∀ t ∈
      (fileEnd true ⟨1, fileNamed "b"⟩ (fileEnd true ⟨0, fileNamed "a"⟩ {})).log.take 12,
      t.event.gates ⟨1, fileNamed "b"⟩ = true → t.passed = true := by decide
  rw [hlate t ht hgate] at hpassed
  cases hpassed

end Dctl.Transfer
