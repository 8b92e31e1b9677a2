import Dctl.ProofKit.Crowd

/-! The connection cell of an SFTP backend (`sftp/mod.rs`, `sftp/ops.rs`).  Each task is one call of
the backend, or one staged file from its opening to its end.  Every access to the cell, every wait
for its lock and every store to a link's flag is a step of its own, and the steps of any number of
tasks interleave. -/

namespace Dctl.Store.SftpLink

open ProofKit List Function

/-- What a task asks the backend's link for. -/
inductive Errand where
  /-- A request that goes through `watched`. -/
  | request
  /-- The link that a staged file keeps. -/
  | create
  /-- The request that opens the staged file. -/
  | openFile (kept : Nat)
  /-- A question to the far end about a refused rename. -/
  | diagnosis
  deriving DecidableEq, Repr

/-- How far a task is in `link`. -/
inductive Phase where
  | reading
  | waiting
  | checking
  | dialling
  deriving DecidableEq, Repr

inductive Stage where
  | idle
  | linking (errand : Errand) (phase : Phase)
  | handed (errand : Errand) (link : Nat)
  | running (errand : Errand) (link : Nat)
  /-- The request failed in a way that ends the session, and the link is to be discarded. -/
  | lost (errand : Errand) (link : Nat)
  | discarding (errand : Errand) (link : Nat)
  | discarded (errand : Errand)
  | staged (file kept : Nat)
  | writing (file kept : Nat)
  /-- A write failed in a way that ends the session, and the link that was kept is to be marked. -/
  | noting (file kept : Nat)
  | ended
  deriving DecidableEq, Repr

def Errand.links : Errand → List Nat
  | .openFile kept => [kept]
  | _ => []

def Stage.links : Stage → List Nat
  | .linking errand _ => errand.links
  | .handed errand link | .running errand link | .lost errand link | .discarding errand link =>
    link :: errand.links
  | .staged file kept | .writing file kept | .noting file kept => [file, kept]
  | .idle | .discarded _ | .ended => []

/-- What a task does by itself. -/
inductive Stage.Own : Stage → Stage → Prop
  | request : Own .idle (.linking .request .reading)
  | create : Own .idle (.linking .create .reading)
  | keep {link : Nat} : Own (.handed .create link) (.linking (.openFile link) .reading)
  | opened {kept link : Nat} : Own (.running (.openFile kept) link) (.staged link kept)
  | refused {link : Nat} : Own (.running .request link) (.linking .diagnosis .reading)
  | discarded : Own (.discarded .request) (.linking .diagnosis .reading)
  | wrote {file kept : Nat} : Own (.writing file kept) (.staged file kept)

/-- A task starts an operation on a link. -/
inductive Stage.Starts : Stage → Nat → Stage → Prop
  | request {link : Nat} : Starts (.handed .request link) link (.running .request link)
  | openFile {kept link : Nat} :
    Starts (.handed (.openFile kept) link) link (.running (.openFile kept) link)
  | diagnosis {link : Nat} : Starts (.handed .diagnosis link) link (.running .diagnosis link)
  | diagnoseOpen {kept link : Nat} :
    Starts (.running (.openFile kept) link) kept (.running .diagnosis kept)
  | write {file kept : Nat} : Starts (.staged file kept) file (.writing file kept)
  | diagnoseWrite {file kept : Nat} : Starts (.writing file kept) kept (.writing file kept)

/-- `watched` throws the link away when an operation for the errand ends with a lost session. -/
def Errand.watched : Errand → Bool
  | .request | .openFile _ => true
  | .create | .diagnosis => false

/-- The cell, who has its lock for writing, and the links.  They are numbered in the order in which
they were dialled.  A session that has `died` is gone, or was silent for longer than a watch waits;
`dead` is the flag of its link. -/
structure State where
  cell : Option Nat
  writer : Option Nat
  dialled : Nat
  dead : Nat → Bool
  died : Nat → Bool
  tasks : Nat → Stage

namespace State

variable (σ : State)

def set (i : Nat) (stage : Stage) : State := { σ with tasks := update σ.tasks i stage }

def markDead (link : Nat) : State := { σ with dead := update σ.dead link true }

/-- The link in the cell, if there is one, is dead. -/
def NoneLive : Prop := ∀ link, σ.cell = some link → σ.dead link = true

def deaths : Nat := ((List.range σ.dialled).filter σ.dead).length

def start : State where
  cell := some 0
  writer := none
  dialled := 1
  dead := fun _ => false
  died := fun _ => false
  tasks := fun _ => .idle

end State

inductive Event where
  | handOut (task link : Nat)
  | start (task link : Nat)
  | mark (link : Nat)
  | discard (link : Nat)
  | other
  deriving DecidableEq, Repr

/-- One step of a task, or the death of a session.  A task that returns and one that is dropped
where it waits `leave` alike. -/
inductive Step (σ : State) : Event → State → Prop
  | own (i : Nat) {stage : Stage} : (σ.tasks i).Own stage → Step σ .other (σ.set i stage)
  | start (i : Nat) {link : Nat} {stage : Stage} : (σ.tasks i).Starts link stage →
      Step σ (.start i link) (σ.set i stage)
  | live (i : Nat) {errand : Errand} {link : Nat} : σ.tasks i = .linking errand .reading →
    σ.writer = none →
      σ.cell = some link → σ.dead link = false →
        Step σ (.handOut i link) (σ.set i (.handed errand link))
  | wait (i : Nat) {errand : Errand} : σ.tasks i = .linking errand .reading →
    σ.writer = none → σ.NoneLive →
      Step σ .other (σ.set i (.linking errand .waiting))
  | lock (i : Nat) {errand : Errand} : σ.tasks i = .linking errand .waiting → σ.writer = none →
      Step σ .other ({ σ with writer := some i }.set i (.linking errand .checking))
  | recheck (i : Nat) {errand : Errand} {link : Nat} : σ.tasks i = .linking errand .checking →
      σ.cell = some link → σ.dead link = false →
      Step σ (.handOut i link) ({ σ with writer := none }.set i (.handed errand link))
  | redial (i : Nat) {errand : Errand} : σ.tasks i = .linking errand .checking → σ.NoneLive →
      Step σ .other (σ.set i (.linking errand .dialling))
  | dialled (i : Nat) {errand : Errand} : σ.tasks i = .linking errand .dialling →
      Step σ (.handOut i σ.dialled)
        ({ σ with cell := some σ.dialled, dialled := σ.dialled + 1, writer := none }.set i
          (.handed errand σ.dialled))
  | lose (i : Nat) {errand : Errand} {link : Nat} : σ.tasks i = .running errand link →
    errand.watched = true →
      σ.died link = true → Step σ .other (σ.set i (.lost errand link))
  | mark (i : Nat) {errand : Errand} {link : Nat} : σ.tasks i = .lost errand link →
      Step σ (.mark link) ((σ.markDead link).set i (.discarding errand link))
  | discard (i : Nat) {errand : Errand} {link : Nat} : σ.tasks i = .discarding errand link →
    σ.writer = none →
      Step σ (.discard link)
        ({ σ with cell := if σ.cell = some link then none else σ.cell }.set i (.discarded errand))
  | writeLost (i : Nat) {file kept : Nat} : σ.tasks i = .writing file kept → σ.died file = true →
      Step σ .other (σ.set i (.noting file kept))
  | note (i : Nat) {file kept : Nat} : σ.tasks i = .noting file kept →
      Step σ (.mark kept) ((σ.markDead kept).set i (.staged file kept))
  | leave (i : Nat) : σ.tasks i ≠ .idle →
      Step σ .other ({ σ with writer := if σ.writer = some i then none else σ.writer }.set i .ended)
  | die (link : Nat) : Step σ .other { σ with died := update σ.died link true }

/-- A run from the start, with what happened in it. -/
inductive Run : List Event → State → Prop
  | start : Run [] .start
  | step {trace : List Event} {σ σ' : State} {event : Event} :
      Run trace σ → Step σ event σ' → Run (trace ++ [event]) σ'

/-- The link was handed out when it was not yet marked dead. -/
def HandedOut (trace : List Event) (i link : Nat) : Prop :=
  ∃ earlier later, trace = earlier ++ .handOut i link :: later ∧ .mark link ∉ earlier

variable {σ σ' : State} {stage stage' : Stage} {errand : Errand} {trace : List Event}
  {event : Event}
  {i j link : Nat}

theorem Stage.Own.links (h : Own stage stage') (hlink : link ∈ stage'.links) :
    link ∈ stage.links := by
  cases h with
  | request | create | refused | discarded => cases hlink
  | keep | opened | wrote => exact hlink

theorem Stage.Starts.links (h : Starts stage i stage') (hlink : link ∈ stage'.links) :
    link ∈ stage.links := by
  cases h with
  | request | openFile | diagnosis | write | diagnoseWrite => exact hlink
  | diagnoseOpen =>
    rw [mem_singleton.mp hlink]
    exact mem_cons_of_mem _ mem_cons_self

theorem Stage.Starts.mem (h : Starts stage link stage') : link ∈ stage.links := by
  cases h with
  | request | openFile | diagnosis | write => exact mem_cons_self
  | diagnoseOpen | diagnoseWrite => exact mem_cons_of_mem _ mem_cons_self

def Errand.Ok (σ : State) (link : Nat) : Errand → Prop
  | .openFile kept => kept = link ∨ σ.dead kept = true
  | _ => True

/-- What holds of a task between its steps. -/
def Stage.Ok (σ : State) (i : Nat) : Stage → Prop
  | .linking _ .checking => σ.writer = some i
  | .linking _ .dialling => σ.writer = some i ∧ σ.NoneLive
  | .handed errand link | .running errand link => errand.Ok σ link
  | .lost _ link => σ.died link = true
  | .discarding _ link => σ.dead link = true
  | .staged file kept | .writing file kept => kept = file ∨ σ.dead kept = true
  | .noting file kept => (kept = file ∨ σ.dead kept = true) ∧ σ.died file = true
  | _ => True

/-- What the other tasks leave to the task `i`. -/
structure Rely (i : Nat) (σ σ' : State) : Prop where
  dialled : σ.dialled ≤ σ'.dialled
  dead : ∀ link, σ.dead link = true → σ'.dead link = true
  died : ∀ link, σ.died link = true → σ'.died link = true
  locked : σ.writer = some i → σ'.writer = some i ∧ σ'.cell = σ.cell

theorem Errand.Ok.rely (h : errand.Ok σ link) (hrely : Rely i σ σ') : errand.Ok σ' link := by
  cases errand with
  | openFile kept => exact Or.imp_right (hrely.dead kept) h
  | request | create | diagnosis => trivial

theorem Stage.Ok.rely (h : stage.Ok σ i) (hrely : Rely i σ σ') : stage.Ok σ' i := by
  cases stage with
  | linking errand phase =>
    cases phase with
    | reading | waiting => trivial
    | checking => exact (hrely.locked h).1
    | dialling =>
      obtain ⟨hwriter, hnone⟩ := h
      obtain ⟨hwriter', hcell⟩ := hrely.locked hwriter
      exact ⟨hwriter', fun link hlink => hrely.dead link (hnone link (hcell ▸ hlink))⟩
  | handed errand link | running errand link => exact Errand.Ok.rely h hrely
  | lost errand link => exact hrely.died link h
  | discarding errand link => exact hrely.dead link h
  | staged file kept | writing file kept => exact Or.imp_right (hrely.dead kept) h
  | noting file kept => exact ⟨Or.imp_right (hrely.dead kept) h.1, hrely.died file h.2⟩
  | idle | discarded | ended => trivial

structure Inv (σ : State) : Prop where
  newest : ∀ link, σ.cell = some link → link + 1 = σ.dialled
  settled : ∀ link, link < σ.dialled → σ.cell = some link ∨ σ.dead link = true
  marked : ∀ link, σ.dead link = true → link < σ.dialled ∧ σ.died link = true
  known : ∀ i link, link ∈ (σ.tasks i).links → link < σ.dialled
  ok : ∀ i, (σ.tasks i).Ok σ i

theorem inv_start : Inv .start where
  newest := by
    rintro link ⟨⟩
    rfl
  settled := by
    intro link hlink
    exact .inl (congrArg some (Nat.lt_one_iff.mp hlink).symm)
  marked := by
    rintro link ⟨⟩
  known := by
    rintro i link ⟨⟩
  ok := fun _ => trivial

namespace Inv

section

variable (h : Inv σ)
include h

theorem lt_of_cell (hcell : σ.cell = some link) : link < σ.dialled := by
  rw [← h.newest link hcell]
  exact Nat.lt_succ_self link

theorem shift (htasks : σ'.tasks = σ.tasks) (hrely : ∀ i, Rely i σ σ')
    (hnewest : ∀ link, σ'.cell = some link → link + 1 = σ'.dialled)
    (hsettled : ∀ link, link < σ'.dialled → σ'.cell = some link ∨ σ'.dead link = true)
    (hmarked : ∀ link, σ'.dead link = true → link < σ'.dialled ∧ σ'.died link = true) : Inv σ' where
  newest := hnewest
  settled := hsettled
  marked := hmarked
  known := by
    intro i link hlink
    rw [htasks] at hlink
    exact Nat.lt_of_lt_of_le (h.known i link hlink) (hrely i).dialled
  ok := by
    intro i
    rw [htasks]
    exact (h.ok i).rely (hrely i)

theorem set {writer : Option Nat} (hwriter : ∀ j, j ≠ i → σ.writer = some j → writer = some j)
    (hok : stage.Ok { σ with writer := writer } i) (hlinks : ∀ link ∈ stage.links,
      link < σ.dialled) :
    Inv ({ σ with writer := writer }.set i stage) where
  newest := h.newest
  settled := h.settled
  marked := h.marked
  known := by
    intro j link hlink
    by_cases hj : j = i
    · subst hj
      simp only [State.set, update_self] at hlink
      exact hlinks link hlink
    · simp only [State.set, update_of_ne hj] at hlink
      exact h.known j link hlink
  ok := by
    intro j
    by_cases hj : j = i
    · subst hj
      simp only [State.set, update_self]
      exact hok.rely ⟨Nat.le_refl _, fun _ hd => hd, fun _ hd => hd, fun hw => ⟨hw, rfl⟩⟩
    · simp only [State.set, update_of_ne hj]
      exact (h.ok j).rely ⟨Nat.le_refl _, fun _ hd => hd, fun _ hd => hd,
        fun hw => ⟨hwriter j hj hw, rfl⟩⟩

theorem go (hok : stage.Ok σ i) (hlinks : ∀ link ∈ stage.links, link < σ.dialled) :
    Inv (σ.set i stage) :=
  h.set (fun _ _ hw => hw) hok hlinks

theorem markDead (hlt : link < σ.dialled) (hdied : σ.died link = true) : Inv (σ.markDead link) := by
  have hgrows : ∀ other, σ.dead other = true → (σ.markDead link).dead other = true := by
    intro other hother
    by_cases heq : other = link
    · subst heq
      exact update_self ..
    · exact (update_of_ne heq ..).trans hother
  refine h.shift rfl (fun _ => ⟨Nat.le_refl _, hgrows, fun _ hd => hd, fun hw => ⟨hw, rfl⟩⟩)
    h.newest ?_ ?_
  · intro other hother
    exact (h.settled other hother).imp_right (hgrows other)
  · intro other hother
    by_cases heq : other = link
    · subst heq
      exact ⟨hlt, hdied⟩
    · exact h.marked other ((update_of_ne heq ..).symm.trans hother)

theorem errand_ok (hcell : σ.cell = some link) (herrand : ∀ kept ∈ errand.links, kept < σ.dialled) :
    errand.Ok σ link := by
  cases errand with
  | request | create | diagnosis => trivial
  | openFile kept =>
    rcases h.settled kept (herrand kept mem_cons_self) with hkept | hdead
    · rw [hcell] at hkept
      cases hkept
      exact .inl rfl
    · exact .inr hdead

end

end Inv

theorem Stage.Own.ok (h : Own stage stage') (hok : stage.Ok σ i) : stage'.Ok σ i := by
  cases h with
  | request | create | keep | refused | discarded => trivial
  | opened | wrote => exact hok

theorem Stage.Starts.ok (h : Starts stage link stage') (hok : stage.Ok σ i) : stage'.Ok σ i := by
  cases h with
  | request | openFile | diagnosis | write | diagnoseWrite => exact hok
  | diagnoseOpen => trivial

theorem Inv.dialled (h : Inv σ) (hdialling : σ.tasks i = .linking errand .dialling) :
    Inv ({ σ with cell := some σ.dialled, dialled := σ.dialled + 1, writer := none }.set i
      (.handed errand σ.dialled)) := by
  have hi := h.ok i
  rw [hdialling] at hi
  obtain ⟨hwriter, hnone⟩ := hi
  have hdead : ∀ link, link < σ.dialled → σ.dead link = true := by
    intro link hlink
    exact (h.settled link hlink).elim (hnone link) id
  have hkept : ∀ kept ∈ errand.links, kept < σ.dialled := by
    intro kept hkept
    have hknown := h.known i kept
    rw [hdialling] at hknown
    exact hknown hkept
  refine ⟨?_, ?_, fun link hdead' => ⟨Nat.lt_succ_of_lt (h.marked link hdead').1,
    (h.marked link hdead').2⟩, ?_, ?_⟩
  · rintro link ⟨⟩
    rfl
  · intro link hlink
    rcases Nat.lt_succ_iff_lt_or_eq.mp hlink with hlt | rfl
    · exact .inr (hdead link hlt)
    · exact .inl rfl
  · intro j link hlink
    by_cases hj : j = i
    · subst hj
      simp only [State.set, update_self, Stage.links] at hlink
      rcases mem_cons.mp hlink with rfl | hlink
      · exact Nat.lt_succ_self _
      · exact Nat.lt_succ_of_lt (hkept link hlink)
    · simp only [State.set, update_of_ne hj] at hlink
      exact Nat.lt_succ_of_lt (h.known j link hlink)
  · intro j
    by_cases hj : j = i
    · subst hj
      simp only [State.set, update_self]
      cases errand with
      | request | create | diagnosis => trivial
      | openFile kept => exact .inr (hdead kept (hkept kept mem_cons_self))
    · simp only [State.set, update_of_ne hj]
      refine (h.ok j).rely ⟨Nat.le_succ _, fun _ hd => hd, fun _ hd => hd, fun hw => ?_⟩
      -- The lock is with the task that dialled.
      rw [hwriter] at hw
      exact absurd (Option.some.inj hw).symm hj

theorem Inv.discard (h : Inv σ) (hwriter : σ.writer = none) (hdead : σ.dead link = true) :
    Inv { σ with cell := if σ.cell = some link then none else σ.cell } := by
  refine h.shift rfl (fun _ => ⟨Nat.le_refl _, fun _ hd => hd, fun _ hd => hd, fun hw => ?_⟩)
    ?_ ?_ h.marked
  · rw [hwriter] at hw
    cases hw
  · intro other hother
    dsimp only at hother
    split at hother
    · cases hother
    · exact h.newest other hother
  · intro other hother
    dsimp only
    split
    · rename_i hcell
      rcases h.settled other hother with hsame | hdead'
      · rw [hcell] at hsame
        cases hsame
        exact .inr hdead
      · exact .inr hdead'
    · exact h.settled other hother

theorem Inv.step (h : Inv σ) (hstep : Step σ event σ') : Inv σ' := by
  -- Where the task that takes the step is, and what that says of its links.
  have hat : ∀ {i stage}, σ.tasks i = stage → stage.Ok σ
      i ∧ ∀ link ∈ stage.links, link < σ.dialled := by
    rintro i _ rfl
    exact ⟨h.ok i, h.known i⟩
  have hother : ∀ {i : Nat} {j : Nat}, σ.writer = some i → j ≠ i → σ.writer ≠ some j := by
    intro i j hwriter hj hw
    rw [hwriter] at hw
    exact hj (Option.some.inj hw).symm
  cases hstep with
  | own i hown => exact h.go (hown.ok (h.ok i)) fun link hlink => h.known i link (hown.links hlink)
  | start i hstarts =>
    exact h.go (hstarts.ok (h.ok i)) fun link hlink => h.known i link (hstarts.links hlink)
  | @live i errand link hi _ hcell _ =>
    refine h.go (h.errand_ok hcell (hat hi).2) fun other hmem => ?_
    rcases mem_cons.mp hmem with rfl | hmem
    · exact h.lt_of_cell hcell
    · exact (hat hi).2 other hmem
  | wait i hi _ _ => exact h.go trivial (hat hi).2
  | lock i hi hwriter =>
    refine h.set (fun j _ hw => ?_) rfl (hat hi).2
    rw [hwriter] at hw
    cases hw
  | @recheck i errand link hi hcell _ =>
    refine h.set (fun j hj hw => absurd hw (hother (hat hi).1 hj)) ?_ fun other hmem => ?_
    · exact h.errand_ok hcell (hat hi).2
    · rcases mem_cons.mp hmem with rfl | hmem
      · exact h.lt_of_cell hcell
      · exact (hat hi).2 other hmem
  | redial i hi hnone => exact h.go ⟨(hat hi).1, hnone⟩ (hat hi).2
  | dialled i hi => exact h.dialled hi
  | lose i hi _ hdied => exact h.go hdied (hat hi).2
  | @mark i errand link hi =>
    exact (h.markDead ((hat hi).2 link mem_cons_self) (hat hi).1).go (update_self ..) (hat hi).2
  | discard i hi hwriter =>
    exact (h.discard hwriter (hat hi).1).go trivial fun link hlink => by cases hlink
  | writeLost i hi hdied => exact h.go ⟨(hat hi).1, hdied⟩ (hat hi).2
  | @note i file kept hi =>
    obtain ⟨hsame, hdied⟩ := (hat hi).1
    have hkept : σ.died kept = true := by
      rcases hsame with rfl | hdead
      · exact hdied
      · exact (h.marked kept hdead).2
    have hlt : kept < σ.dialled := (hat hi).2 kept (mem_cons_of_mem _ mem_cons_self)
    exact (h.markDead hlt hkept).go (.inr (update_self ..)) (hat hi).2
  | leave i _ =>
    refine h.set (fun j hj hw => ?_) trivial fun link hlink => by cases hlink
    rw [if_neg, hw]
    rw [hw]
    exact fun heq => hj (Option.some.inj heq)
  | die link =>
    refine h.shift rfl (fun _ => ⟨Nat.le_refl _, fun _ hd => hd, ?_, fun hw => ⟨hw, rfl⟩⟩)
      h.newest h.settled ?_
    · intro other hother
      by_cases heq : other = link
      · subst heq
        exact update_self ..
      · exact (update_of_ne heq ..).trans hother
    · intro other hother
      refine ⟨(h.marked other hother).1, ?_⟩
      by_cases heq : other = link
      · subst heq
        exact update_self ..
      · exact (update_of_ne heq ..).trans (h.marked other hother).2

theorem Run.inv (h : Run trace σ) : Inv σ := by
  induction h with
  | start => exact inv_start
  | step _ hstep ih => exact ih.step hstep

theorem Step.handed (h : Inv σ) (hstep : Step σ (.handOut i link) σ') : σ.dead link = false := by
  cases hstep with
  | live _ _ _ _ hlive => exact hlive
  | recheck _ _ _ hlive => exact hlive
  | dialled _ _ =>
    rw [← Bool.not_eq_true]
    exact fun hdead => Nat.lt_irrefl _ (h.marked _ hdead).1

theorem Step.replaced (h : Inv σ) (hstep : Step σ event σ') (hcell : σ.cell = some link)
    (hgone : σ'.cell ≠ some link) : σ.dead link = true := by
  cases hstep with
  | dialled i hi =>
    have hok := h.ok i
    rw [hi] at hok
    exact hok.2 link hcell
  | @discard i errand dead hi _ =>
    have hok := h.ok i
    rw [hi] at hok
    by_cases hsame : σ.cell = some dead
    · rw [hcell] at hsame
      cases hsame
      exact hok
    · refine absurd ?_ hgone
      exact (if_neg hsame).trans hcell
  | own | start | live | wait | lock | recheck | redial | lose | mark | writeLost | note | leave
  | die =>
    exact absurd hcell hgone

theorem Step.dead (hstep : Step σ event σ') (hdead : σ.dead link = true) : σ'.dead link = true := by
  have hmark : ∀ other, (σ.markDead other).dead link = true := by
    intro other
    by_cases heq : link = other
    · subst heq
      exact update_self ..
    · exact (update_of_ne heq ..).trans hdead
  cases hstep with
  | mark | note => exact hmark _
  | own | start | live | wait | lock | recheck | redial | dialled | lose | discard | writeLost
  | leave | die => exact hdead

theorem Step.marked (hstep : Step σ (.mark link) σ') : σ'.dead link = true := by
  cases hstep with
  | mark | note => exact update_self ..

theorem Step.links (hstep : Step σ event σ') (hlink : link ∈ (σ'.tasks i).links) :
    link ∈ (σ.tasks i).links ∨ event = .handOut i link := by
  have hset : ∀ {τ : State} {j stage}, τ.tasks = σ.tasks → link ∈ ((τ.set j stage).tasks i).links →
      (i = j ∧ link ∈ stage.links) ∨ link ∈ (σ.tasks i).links := by
    intro τ j stage htasks hmem
    by_cases hi : i = j
    · subst hi
      simp only [State.set, update_self] at hmem
      exact .inl ⟨rfl, hmem⟩
    · simp only [State.set, update_of_ne hi, htasks] at hmem
      exact .inr hmem
  cases hstep with
  | own j hown =>
    rcases hset rfl hlink with ⟨rfl, hmem⟩ | hmem
    · exact .inl (hown.links hmem)
    · exact .inl hmem
  | start j hstarts =>
    rcases hset rfl hlink with ⟨rfl, hmem⟩ | hmem
    · exact .inl (hstarts.links hmem)
    · exact .inl hmem
  | live j hj | recheck j hj | dialled j hj =>
    rcases hset rfl hlink with ⟨rfl, hmem⟩ | hmem
    · rw [hj]
      rcases mem_cons.mp hmem with rfl | hmem
      · exact .inr rfl
      · exact .inl hmem
    · exact .inl hmem
  | wait j hj | lock j hj | redial j hj | lose j hj | mark j hj | writeLost j hj | note j hj =>
    rcases hset rfl hlink with ⟨rfl, hmem⟩ | hmem
    · rw [hj]
      exact .inl hmem
    · exact .inl hmem
  | discard j _ | leave j _ =>
    rcases hset rfl hlink with ⟨rfl, hmem⟩ | hmem
    · cases hmem
    · exact .inl hmem
  | die => exact .inl hlink

theorem HandedOut.snoc (h : HandedOut trace i link) : HandedOut (trace ++ [event]) i link := by
  obtain ⟨earlier, later, rfl, hmark⟩ := h
  exact ⟨earlier, later ++ [event], by rw [append_assoc, cons_append], hmark⟩

theorem Run.marked (h : Run trace σ) (hmark : .mark link ∈ trace) : σ.dead link = true := by
  induction h with
  | start => cases hmark
  | step _ hstep ih =>
    rcases mem_append.mp hmark with hmark | hmark
    · exact hstep.dead (ih hmark)
    · cases mem_singleton.mp hmark
      exact hstep.marked

theorem Run.handed (h : Run trace σ) (hlink : link ∈ (σ.tasks i).links) :
    HandedOut trace i link := by
  induction h with
  | start => cases hlink
  | @step trace σ σ' event hrun hstep ih =>
    rcases hstep.links hlink with hheld | rfl
    · exact (ih hheld).snoc
    · refine ⟨trace, [], rfl, fun hmark => ?_⟩
      have hlive := hstep.handed hrun.inv
      rw [hrun.marked hmark] at hlive
      cases hlive

theorem Run.starts (h : Run trace σ) {before after : List Event}
    (hstart : trace = before ++ .start i link :: after) : HandedOut before i link := by
  induction h generalizing after with
  | start => simp at hstart
  | @step trace σ σ' event hrun hstep ih =>
    rcases split_append_singleton hstart with ⟨rfl, rfl⟩ | ⟨rest, hrest⟩
    · cases hstep with
      | start i hstarts => exact hrun.handed hstarts.mem
    · exact ih hrest

theorem Inv.dials (h : Inv σ) : σ.dialled ≤ σ.deaths + 1 := by
  have hdead : ∀ link, link + 1 < σ.dialled → σ.dead link = true := by
    intro link hlt
    refine (h.settled link (Nat.lt_of_succ_lt hlt)).resolve_left fun hcell => ?_
    exact Nat.ne_of_lt hlt (h.newest link hcell)
  unfold State.deaths
  cases hn : σ.dialled with
  | zero => exact Nat.zero_le _
  | succ n =>
    have hall : (List.range n).filter σ.dead = List.range n := by
      refine filter_eq_self.mpr fun link hlink => hdead link ?_
      rw [hn]
      exact Nat.succ_lt_succ (mem_range.mp hlink)
    rw [range_succ, filter_append, hall, length_append, length_range]
    omega

/-- What the backend keeps of its links in a run: a link leaves the cell dead and is never in it
again; a late discard leaves the live link where it is; an operation is started on a link that
nothing had marked when the task was handed it; and for each link but one that was dialled, a
session has died. -/
structure Sound (trace : List Event) (σ : State) : Prop where
  newest : ∀ link, σ.cell = some link → link + 1 = σ.dialled
  settled : ∀ link, link < σ.dialled → σ.cell = some link ∨ σ.dead link = true
  replaced : ∀ event σ', Step σ event σ' → ∀ link, σ.cell = some link → σ'.cell ≠ some link →
    σ.dead link = true
  discards : ∀ dead σ', Step σ (.discard dead) σ' →
    σ.dead dead = true ∧ ∀ live, live ≠ dead → σ.cell = some live → σ'.cell = some live
  starts : ∀ before i link after, trace = before ++ .start i link :: after → HandedOut before i link
  dials : σ.dialled ≤ σ.deaths + 1
  died : ∀ link, σ.dead link = true → σ.died link = true

/-- Every reachable state of the one link cell is sound. -/
theorem sound_of_run (h : Run trace σ) : Sound trace σ where
  newest := h.inv.newest
  settled := h.inv.settled
  replaced := fun _ _ hstep _ => hstep.replaced h.inv
  discards := by
    intro dead σ' hstep
    cases hstep with
    | discard i hi _ =>
      have hok := h.inv.ok i
      rw [hi] at hok
      refine ⟨hok, fun live hne hcell => ?_⟩
      have hother : σ.cell ≠ some dead := by
        rw [hcell]
        exact fun heq => hne (Option.some.inj heq)
      exact (if_neg hother).trans hcell
  starts := fun _ _ _ _ => h.starts
  dials := h.inv.dials
  died := fun link hdead => (h.inv.marked link hdead).2

/-- Two requests fail on the first link.  The second discards it when a third request has dialled
another, and that one stays. -/
theorem sound_late_discard : ∃ trace σ σ', Run trace σ ∧ Step σ (.discard 0) σ' ∧ σ.cell = some 1 ∧
    σ'.cell = some 1 ∧ σ.deaths = 1 ∧ σ.dialled ≤ 2 := by
  obtain ⟨trace, σ, σ', hrun, hstep, hcell, hdeaths⟩ : ∃ trace σ σ', Run trace σ ∧
    Step σ (.discard 0) σ' ∧
      σ.cell = some 1 ∧ σ.deaths = 1 := by
    have hfirst :=
      ((Run.start.step (.own 0 .request)).step (.live 0 rfl rfl rfl rfl)).step (.start 0 .request)
    have hsecond :=
      ((hfirst.step (.own 1 .request)).step (.live 1 rfl rfl rfl rfl)).step (.start 1 .request)
    have hlost := ((hsecond.step (.die 0)).step (.lose 0 rfl rfl rfl)).step (.lose 1 rfl rfl rfl)
    have hdiscarded := (hlost.step (.mark 0 rfl)).step (.discard 0 rfl rfl)
    have hthird := ((hdiscarded.step (.own 2 .request)).step
      (.wait 2 rfl rfl (by rintro _ ⟨⟩))).step (.lock 2 rfl rfl)
    have hdialled := (hthird.step (.redial 2 rfl (by rintro _ ⟨⟩))).step (.dialled 2 rfl)
    have hlate := (hdialled.step (.start 2 .request)).step (.mark 1 rfl)
    exact ⟨_, _, _, hlate, .discard 1 rfl rfl, rfl, rfl⟩
  have hsound := sound_of_run hrun
  have hdials : σ.dialled ≤ 1 + 1 := hdeaths ▸ hsound.dials
  exact ⟨trace, σ, σ', hrun, hstep, hcell, (hsound.discards 0 σ' hstep).2 1 (by decide) hcell,
    hdeaths, hdials⟩

end Dctl.Store.SftpLink
