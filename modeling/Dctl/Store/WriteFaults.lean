import Dctl.Store.VerifiedWrite

/-! What the writes of the local backend leave behind when a step fails, and what they publish when
they succeed (`local/verified_write.rs`). -/

namespace Dctl.Store.LocalFs

open ProofKit World Prog Function

variable {w w' : World} {tmp dest path : Path} {α : Type} {x : Except StoreError α} {o : Op}

theorem run_perform {x : Except StoreError Unit} :
    Prog.Run serve (perform o).run w x w' ↔
      x = .ok () ∧ w.Done o w' ∨ ∃ e, x = .error (.io e) ∧ w.Failed o w' := by
  rw [perform, run_query_bind]
  constructor
  · rintro ⟨y, w1, hserve, hend⟩
    obtain ⟨rfl, rfl⟩ := run_ofExcept.mp hend
    cases y with
    | ok => exact .inl ⟨rfl, hserve⟩
    | error e => exact .inr ⟨e, rfl, hserve⟩
  · rintro (⟨rfl, hdone⟩ | ⟨e, rfl, hfailed⟩)
    · exact ⟨.ok (), w', hdone, run_ofExcept.mpr ⟨rfl, rfl⟩⟩
    · exact ⟨.error e, w', hfailed, run_ofExcept.mpr ⟨rfl, rfl⟩⟩

theorem run_attempt {x : Except StoreError Unit} :
    Prog.Run serve (attempt o).run w x w' ↔ x = .ok () ∧ (w.Done o w' ∨ w.Failed o w') := by
  rw [attempt, run_query_bind]
  constructor
  · rintro ⟨y, w1, hserve, hend⟩
    obtain ⟨rfl, rfl⟩ := run_pure.mp hend
    cases y with
    | ok => exact ⟨rfl, .inl hserve⟩
    | error e => exact ⟨rfl, .inr hserve⟩
  · rintro ⟨rfl, hdone | hfailed⟩
    · exact ⟨.ok (), w', hdone, run_pure.mpr ⟨rfl, rfl⟩⟩
    · exact ⟨.error ⟨.other, none⟩, w', hfailed, run_pure.mpr ⟨rfl, rfl⟩⟩

theorem run_orRemove {body : WriteM α} :
    Prog.Run serve (orRemove tmp body).run w x w' ↔
      (∃ a, x = .ok a ∧ Prog.Run serve body.run w (.ok a) w') ∨
        ∃ e w1, x = .error e ∧ Prog.Run serve body.run w (.error e) w1 ∧
          (w1.Done (.remove tmp) w' ∨ w1.Failed (.remove tmp) w') := by
  change Prog.Run serve (body.run >>= fun y => _) w x w' ↔ _
  rw [run_bind]
  constructor
  · rintro ⟨y, w1, hbody, hend⟩
    cases y with
    | ok a =>
      obtain ⟨rfl, rfl⟩ := run_done.mp hend
      exact .inl ⟨a, rfl, hbody⟩
    | error e =>
      rcases run_fallible_bind.mp hend with ⟨e', hremove, -⟩ | ⟨_, w2, hremove, hthrow⟩
      · cases (run_attempt.mp hremove).1
      · obtain ⟨rfl, rfl⟩ := run_throw.mp hthrow
        exact .inr ⟨e, w1, rfl, hbody, (run_attempt.mp hremove).2⟩
  · rintro (⟨a, rfl, hbody⟩ | ⟨e, w1, rfl, hbody, hremove⟩)
    · exact ⟨_, w', hbody, run_done.mpr ⟨rfl, rfl⟩⟩
    · exact ⟨_, w1, hbody, run_fallible_bind.mpr
        (.inr ⟨(), w', run_attempt.mpr ⟨rfl, hremove⟩, run_throw.mpr ⟨rfl, rfl⟩⟩)⟩

def Step.still : Step → Prop
  | .identify | .readToEnd _ => True
  | .op (.createDirAll _) | .op (.sync _) | .op (.openWrite _) | .op (.setTimes ..)
  | .op (.openDir _) | .op (.syncDir _) => True
  | _ => False

def Step.stages (tmp : Path) : Step → Prop
  | .op (.create path) | .op (.write path _) | .op (.flush path) => path = tmp
  | step => step.still

theorem Step.still.stages {step : Step} (h : step.still) : step.stages tmp := by
  cases step with
  | identify => trivial
  | readToEnd => trivial
  | op o => cases o <;> first | exact h | exact absurd h id

def Logs (w w' : World) (step : Step) : Prop :=
  w'.faults = w.faults ∨ w'.faults = w.faults ++ [step]

theorem serve_stages {step : Step} {y : step.Answer} (h : step.stages tmp)
    (hserve : serve w step y w') : (∀ q ≠ tmp, w'.files q = w.files q) ∧ Logs w w' step := by
  have hset : ∀ {content : Option Bytes} {q : Path}, q ≠ tmp →
      (w.set tmp content).files q = w.files q :=
    fun hq => update_of_ne hq _ _
  cases step with
  | identify =>
    obtain rfl : w' = w := hserve
    exact ⟨fun _ _ => rfl, .inl rfl⟩
  | readToEnd path =>
    cases y with
    | ok bytes =>
      obtain ⟨rfl, -⟩ : w' = w ∧ _ := hserve
      exact ⟨fun _ _ => rfl, .inl rfl⟩
    | error e =>
      obtain rfl : w' = w.fail _ := hserve
      exact ⟨fun _ _ => rfl, .inr rfl⟩
  | op o =>
    cases y with
    | ok =>
      cases o with
      | create path =>
        obtain rfl : path = tmp := h
        obtain rfl : w' = _ := hserve
        exact ⟨fun q hq => hset hq, .inl rfl⟩
      | write path data =>
        obtain rfl : path = tmp := h
        obtain ⟨content, rfl⟩ : ∃ content, w' = _ := hserve
        exact ⟨fun q hq => hset hq, .inl rfl⟩
      | flush path =>
        obtain rfl : path = tmp := h
        obtain ⟨content, rfl⟩ : ∃ content, w' = _ := hserve
        exact ⟨fun q hq => hset hq, .inl rfl⟩
      | rename path target => cases h
      | remove path => cases h
      | _ =>
        obtain rfl : w' = w := hserve
        exact ⟨fun _ _ => rfl, .inl rfl⟩
    | error e =>
      cases o with
      | write path data =>
        obtain rfl : path = tmp := h
        obtain ⟨content, rfl⟩ : ∃ content, w' = _ := hserve
        exact ⟨fun q hq => hset hq, .inr rfl⟩
      | flush path =>
        obtain rfl : path = tmp := h
        obtain ⟨content, rfl⟩ : ∃ content, w' = _ := hserve
        exact ⟨fun q hq => hset hq, .inr rfl⟩
      | rename path target => cases h
      | remove path => cases h
      | _ =>
        obtain rfl : w' = w.fail _ := hserve
        exact ⟨fun _ _ => rfl, .inr rfl⟩

theorem serve_still {step : Step} {y : step.Answer} (h : step.still) (hserve : serve w step y w') :
    w'.files = w.files := by
  funext q
  -- The staging file may be taken to be another.
  by_cases hq : ∃ p, p ≠ q
  · obtain ⟨p, hp⟩ := hq
    exact (serve_stages (h.stages : step.stages p) hserve).1 q (Ne.symm hp)
  · exact absurd ⟨q ++ [[]], by simp⟩ hq

/-- None of the faults is `bad`. -/
def Calm (bad : Step → Bool) (w : World) : Prop := ∀ step ∈ w.faults, bad step = false

section

variable {bad : Step → Bool}

theorem Calm.logs {step : Step} (h : Calm bad w) (hlogs : Logs w w' step)
    (hstep : bad step = false) :
    Calm bad w' := by
  rcases hlogs with hsame | hmore
  · rwa [Calm, hsame]
  · rw [Calm, hmore]
    exact fun s hs => (List.mem_append.mp hs).elim (h s) fun hs => List.mem_singleton.mp hs ▸ hstep

structure Staged (bad : Step → Bool) (tmp : Path) (w w' : World) : Prop where
  calm : Calm bad w'
  files : ∀ q ≠ tmp, w'.files q = w.files q

variable {body : WriteM α} {w₀ : World}

theorem Staged.run (h : Staged bad tmp w₀ w) (hbad : ∀ step, step.stages tmp → bad step = false)
    (hasks : body.run.Asks (Step.stages tmp)) (hrun : Prog.Run serve body.run w x w') :
    Staged bad tmp w₀ w' := by
  refine hrun.invariant_of_asks (I := Staged bad tmp w₀) ?_ hasks h
  intro w step y w' hstages hw hserve
  obtain ⟨hfiles, hlogs⟩ := serve_stages hstages hserve
  exact ⟨hw.calm.logs hlogs (hbad _ hstages), fun q hq => (hfiles q hq).trans (hw.files q hq)⟩

theorem run_still (hbad : ∀ step, step.still → bad step = false)
    (hasks : body.run.Asks Step.still) (hrun : Prog.Run serve body.run w x w') (h : Calm bad w) :
    w'.files = w.files ∧ Calm bad w' := by
  refine hrun.invariant_of_asks (I := fun w' => w'.files = w.files ∧ Calm bad w') ?_ hasks ⟨rfl, h⟩
  intro w₁ step y w₂ hstill hw hserve
  exact ⟨(serve_still hstill hserve).trans hw.1,
    hw.2.logs (serve_stages (hstill.stages : step.stages []) hserve).2 (hbad _ hstill)⟩

end

section Asks

variable {allowed : Step → Prop} {digest : HashAlgo → Bytes → Bytes} {fs : Backend}

theorem asks_perform (h : allowed (.op o)) : (perform o).run.Asks allowed :=
  asks_bind (asks_query h) fun _ => asks_ofExcept _

theorem asks_attempt (h : allowed (.op o)) : (attempt o).run.Asks allowed :=
  asks_bind (asks_query h) fun _ => asks_pure _

theorem asks_requireSameRoot : fs.requireSameRoot.run.Asks Step.still := by
  refine asks_bind (asks_query trivial) fun now => ?_
  generalize hverdict : verdict fs.openedAs now = v
  cases v with
  | proceed => exact asks_pure _
  | _ => exact asks_throw _

theorem asks_readToEnd : (readToEnd path).run.Asks Step.still :=
  asks_bind (asks_query trivial) fun _ => asks_ofExcept _

theorem asks_hashFile {algo : HashAlgo} : (hashFile digest path algo).run.Asks Step.still :=
  asks_bind asks_readToEnd fun _ => asks_pure _

theorem asks_requireMatch {expected actual : ContentHash} :
    (requireMatch expected actual).run.Asks Step.still := by
  rw [requireMatch]
  split
  · exact asks_pure _
  · exact asks_throw _

theorem asks_requireLength {expected actual : Nat} :
    (requireLength expected actual).run.Asks Step.still := by
  rw [requireLength]
  split
  · exact asks_pure _
  · exact asks_throw _

theorem asks_stamp {modified : Option Int} : (stamp path modified).run.Asks Step.still := by
  cases modified with
  | none => exact asks_pure _
  | some unix => exact asks_bind (asks_perform trivial) fun _ => asks_perform trivial

theorem asks_syncParent : (syncParent dest).run.Asks Step.still := by
  refine asks_bind (asks_query trivial) fun (x : Except IoError Unit) => ?_
  cases x with
  | ok => exact asks_attempt trivial
  | error e => exact asks_pure _

theorem asks_writeStaging {data : Bytes} : (writeStaging tmp data).run.Asks (Step.stages tmp) :=
  asks_bind (asks_perform rfl) fun _ => asks_bind (asks_perform rfl) fun _ =>
    asks_bind (asks_perform rfl) fun _ => asks_perform trivial

theorem asks_writeAll {ended : Except StoreError Unit} {blocks : List Bytes} {written : Nat} :
    (writeAll tmp ended blocks written).run.Asks (Step.stages tmp) := by
  induction blocks generalizing written with
  | nil => exact asks_bind (asks_ofExcept _) fun _ => asks_pure _
  | cons block blocks ih => exact asks_bind (asks_perform rfl) fun _ => ih

theorem asks_streamCopyToTemp {source : SourceFile} :
    (streamCopyToTemp source tmp).run.Asks (Step.stages tmp) :=
  asks_bind (asks_ofExcept _) fun _ => asks_bind (asks_perform rfl) fun _ =>
    asks_bind asks_writeAll fun _ => asks_bind (asks_perform rfl) fun _ =>
      asks_bind (asks_perform trivial) fun _ => asks_pure _

end Asks

section Ends

variable {bad : Step → Bool} {digest : HashAlgo → Bytes → Bytes} {expected onDisk : ContentHash}
  {content : Bytes} {outcome : PutOutcome} {w₁ : World}

/-- How a write ends that started with no file at its staging path. -/
def Ends (digest : HashAlgo → Bytes → Bytes) (bad : Step → Bool) (tmp dest : Path)
    (expected : ContentHash) (w : World) : Except StoreError PutOutcome → World → Prop
  | .error _, w' => w'.files = w.files ∧ Calm bad w' ∨ w'.files tmp ≠ none ∧ ¬Calm bad w'
  | .ok outcome, w' => Calm bad w' ∧ outcome.verified = expected ∧ ∃ content,
      w'.files = update w.files dest (some content) ∧
        compute digest expected.algo content = expected

theorem Staged.removed {e : StoreError} (h : Staged bad tmp w w₁) (hfresh : w.files tmp = none)
    (hbad : bad (.op (.remove tmp)) = true)
    (hremove : w₁.Done (.remove tmp) w' ∨ w₁.Failed (.remove tmp) w') :
    Ends digest bad tmp dest expected w (.error e) w' := by
  have hback : ∀ w₂ : World, (∀ q ≠ tmp, w₂.files q = w₁.files q) → w₂.files tmp = none →
      w₂.files = w.files := by
    intro w₂ hfiles hnone
    funext q
    by_cases hq : q = tmp
    · rw [hq, hnone, hfresh]
    · rw [hfiles q hq, h.files q hq]
  rcases hremove with ⟨-, rfl⟩ | rfl
  · refine .inl ⟨hback _ (fun q hq => update_of_ne hq _ _) (update_self ..), ?_⟩
    exact h.calm
  · split
    · rename_i hnone
      exact .inl ⟨hback _ (fun _ _ => rfl) hnone, h.calm⟩
    · rename_i hsome
      refine .inr ⟨hsome, fun hcalm => ?_⟩
      have hlast := hcalm (.op (.remove tmp)) (List.mem_append_right _ (List.mem_singleton_self _))
      rw [hbad] at hlast
      cases hlast

theorem Staged.published (h : Staged bad tmp w w₁) (hfresh : w.files tmp = none)
    (hcontent : w₁.files tmp = some content) (hdone : w₁.Done (.rename tmp dest) w') :
    w'.files = update w.files dest (some content) ∧ w'.faults = w₁.faults := by
  obtain ⟨found, hfound, rfl⟩ := hdone
  obtain rfl : found = content := Option.some.inj (hfound.symm.trans hcontent)
  refine ⟨?_, rfl⟩
  funext q
  show update (update w₁.files tmp none) dest (some found) q = _
  by_cases hdest : q = dest
  · rw [hdest, update_self, update_self]
  · rw [update_of_ne hdest, update_of_ne hdest]
    by_cases htmp : q = tmp
    · rw [htmp, update_self, hfresh]
    · rw [update_of_ne htmp, h.files q htmp]

theorem run_syncParent {y : Except StoreError Unit}
    (h : Prog.Run serve (syncParent dest).run w y w') : y = .ok () := by
  rw [syncParent, run_query_bind] at h
  obtain ⟨z, w₁, -, hend⟩ := h
  cases z with
  | ok => exact (run_attempt.mp hend).1
  | error e => exact (run_pure.mp hend).1

theorem run_readToEnd : Prog.Run serve (readToEnd path).run w (.ok content) w' ↔
    w' = w ∧ w.files path = some content := by
  rw [readToEnd, run_query_bind]
  constructor
  · rintro ⟨y, w₁, hserve, hend⟩
    obtain ⟨hy, rfl⟩ := run_ofExcept.mp hend
    cases y with
    | error e => cases hy
    | ok bytes =>
      cases hy
      exact hserve
  · exact fun h => ⟨.ok content, w', h, run_ofExcept.mpr ⟨rfl, rfl⟩⟩

theorem run_requireMatch (h : Prog.Run serve (requireMatch expected onDisk).run w (.ok ()) w') :
    onDisk = expected ∧ w' = w := by
  rw [requireMatch] at h
  split at h
  · rename_i hmatch
    exact ⟨hmatch, (run_pure.mp h).2.symm⟩
  · exact absurd (run_throw.mp h).1 nofun

theorem Staged.next {body : WriteM α} {f : α → WriteM PutOutcome} {x : Except StoreError PutOutcome}
    (h : Staged bad tmp w w₁) (hfresh : w.files tmp = none)
    (hbad : ∀ step, step.stages tmp → bad step = false) (hremove : bad (.op (.remove tmp)) = true)
    (hasks : body.run.Asks (Step.stages tmp))
    (hrun : Prog.Run serve (orRemove tmp body >>= f).run w₁ x w') :
    Ends digest bad tmp dest expected w x w' ∨ ∃ a w₂, Prog.Run serve body.run w₁ (.ok a) w₂ ∧
      Staged bad tmp w w₂ ∧ Prog.Run serve (f a).run w₂ x w' := by
  rcases run_fallible_bind.mp hrun with ⟨e, hpart, rfl⟩ | ⟨a, w₂, hpart, hrest⟩
  · rcases run_orRemove.mp hpart with ⟨a, hok, -⟩ | ⟨e', w₃, herr, hbody, hend⟩
    · cases hok
    · cases herr
      exact .inl ((h.run hbad hasks hbody).removed hfresh hremove hend)
  · rcases run_orRemove.mp hpart with ⟨a', hok, hbody⟩ | ⟨e', w₃, herr, -, -⟩
    · cases hok
      exact .inr ⟨a, w₂, hbody, h.run hbad hasks hbody, hrest⟩
    · cases herr

theorem still_of_stages (hbad : ∀ step, step.stages tmp → bad step = false) (step : Step)
    (h : step.still) : bad step = false :=
  hbad step h.stages

theorem asks_stages {body : WriteM α} (h : body.run.Asks Step.still) :
    body.run.Asks (Step.stages tmp) :=
  h.mono fun _ hstill => hstill.stages

variable {x : Except StoreError PutOutcome}

theorem Staged.publish (h : Staged bad tmp w w₁) (hfresh : w.files tmp = none)
    (hbad : ∀ step, step.stages tmp → bad step = false) (hcontent : w₁.files tmp = some content)
    (hrun : Prog.Run serve (perform (.rename tmp dest) >>= fun _ => syncParent dest >>= fun _ =>
      (pure outcome : WriteM PutOutcome)).run w₁ x w') :
    (∃ e, x = .error e ∧ w' = w₁.fail (.op (.rename tmp dest))) ∨
      x = .ok outcome ∧ Calm bad w' ∧ w'.files = update w.files dest (some content) := by
  rcases run_fallible_bind.mp hrun with ⟨e, hmove, rfl⟩ | ⟨⟨⟩, w₂, hmove, hrest⟩
  · rcases run_perform.mp hmove with ⟨hok, -⟩ | ⟨e', herr, hfailed⟩
    · cases hok
    · exact .inl ⟨e, rfl, hfailed⟩
  · rcases run_perform.mp hmove with ⟨-, hdone⟩ | ⟨e', herr, -⟩
    · obtain ⟨hfiles, hfaults⟩ := h.published hfresh hcontent hdone
      have hcalm : Calm bad w₂ := by
        rw [Calm, hfaults]
        exact h.calm
      rcases run_fallible_bind.mp hrest with ⟨e, hsync, -⟩ | ⟨⟨⟩, w₃, hsync, hend⟩
      · exact absurd (run_syncParent hsync) nofun
      · obtain ⟨hsame, hcalm'⟩ := run_still (still_of_stages hbad) asks_syncParent hsync hcalm
        obtain ⟨rfl, rfl⟩ := run_pure.mp hend
        exact .inr ⟨rfl, hcalm', hsame.trans hfiles⟩
    · cases herr

variable {modified : Option Int}

theorem Staged.commit {a b : Nat} (h : Staged bad tmp w w₁) (hfresh : w.files tmp = none)
    (hbad : ∀ step, step.stages tmp → bad step = false) (hremove : bad (.op (.remove tmp)) = true)
    (hrename : bad (.op (.rename tmp dest)) = true) (hcontent : w₁.files tmp = some content)
    (hverified : outcome.verified = onDisk)
    (honDisk : onDisk = compute digest expected.algo content)
    (hrun : Prog.Run serve (orRemove tmp (requireLength a b) >>= fun _ => orRemove tmp (requireMatch
      expected onDisk) >>= fun _ => orRemove tmp (stamp tmp modified) >>= fun _ =>
        perform (.rename tmp dest) >>= fun _ => syncParent dest >>= fun _ =>
          (pure outcome : WriteM PutOutcome)).run w₁ x w') :
    Ends digest bad tmp dest expected w x w' := by
  have hstill := still_of_stages hbad
  have keep : ∀ {body : WriteM Unit} {w₂ w₃ : World}, body.run.Asks Step.still →
      Staged bad tmp w w₂ → w₂.files tmp = some content → Prog.Run serve body.run w₂ (.ok ()) w₃ →
      w₃.files tmp = some content := by
    intro body w₂ w₃ hasks hw₂ hfile hbody
    rw [(run_still hstill hasks hbody hw₂.calm).1, hfile]
  rcases h.next hfresh hbad hremove (asks_stages asks_requireLength) hrun with
    hend | ⟨⟨⟩, w₂, hlength, h₂, hrun⟩
  · exact hend
  have hcontent₂ := keep asks_requireLength h hcontent hlength
  rcases h₂.next hfresh hbad hremove (asks_stages asks_requireMatch) hrun with
    hend | ⟨⟨⟩, w₃, hmatch, h₃, hrun⟩
  · exact hend
  obtain ⟨hexpected, hsame⟩ := run_requireMatch hmatch
  rcases h₃.next hfresh hbad hremove (asks_stages asks_stamp) hrun with
    hend | ⟨⟨⟩, w₄, hstamp, h₄, hrun⟩
  · exact hend
  have hcontent₄ := keep asks_stamp h₃ (hsame ▸ hcontent₂) hstamp
  rcases h₄.publish hfresh hbad hcontent₄ hrun with ⟨e, rfl, rfl⟩ | ⟨rfl, hcalm, hfiles⟩
  · refine .inr ⟨?_, fun hcalm => ?_⟩
    · rw [show (w₄.fail _).files = w₄.files from rfl, hcontent₄]
      exact Option.some_ne_none _
    · have hlast :=
        hcalm (.op (.rename tmp dest)) (List.mem_append_right _ (List.mem_singleton_self _))
      rw [hrename] at hlast
      cases hlast
  · exact ⟨hcalm, hverified.trans hexpected, content, hfiles, by rw [← honDisk, hexpected]⟩

theorem Staged.step {body : WriteM α} {f : α → WriteM PutOutcome} {x : Except StoreError PutOutcome}
    (h : Staged bad tmp w w₁) (hbad : ∀ step, step.stages tmp → bad step = false)
    (hasks : body.run.Asks (Step.stages tmp)) (hrun : Prog.Run serve (body >>= f).run w₁ x w') :
    (∃ e, x = .error e ∧ Staged bad tmp w w') ∨ ∃ a w₂, Prog.Run serve body.run w₁ (.ok a) w₂ ∧
      Staged bad tmp w w₂ ∧ Prog.Run serve (f a).run w₂ x w' := by
  rcases run_fallible_bind.mp hrun with ⟨e, hpart, rfl⟩ | ⟨a, w₂, hpart, hrest⟩
  · exact .inl ⟨e, rfl, h.run hbad hasks hpart⟩
  · exact .inr ⟨a, w₂, hpart, h.run hbad hasks hpart, hrest⟩

/-- The body of `put_stream` fails with at most a staging file to be removed, or publishes what was
agreed. -/
theorem Staged.stream {source : SourceStream} (h : Staged bad tmp w w₁)
    (hfresh : w.files tmp = none) (hbad : ∀ step, step.stages tmp → bad step = false)
    (hrename : bad (.op (.rename tmp dest)) = false)
    (hrun : Prog.Run serve (streamToStaging digest tmp source dest modified).run w₁ x w') :
    (∃ e, x = .error e ∧ Staged bad tmp w w') ∨ ∃ outcome expected, x = .ok outcome ∧
      source.agreed = .ok expected ∧ Ends digest bad tmp dest expected w (.ok outcome) w' := by
  have hstill := still_of_stages hbad
  rcases h.step hbad (asks_perform (o := .create tmp) rfl) hrun with hend | ⟨⟨⟩, w₂, -, h₂, hrun⟩
  · exact .inl hend
  rcases h₂.step hbad asks_writeAll hrun with hend | ⟨written, w₃, -, h₃, hrun⟩
  · exact .inl hend
  rcases h₃.step hbad (asks_perform (o := .flush tmp) rfl) hrun with hend | ⟨⟨⟩, w₄, -, h₄, hrun⟩
  · exact .inl hend
  rcases h₄.step hbad (asks_perform (o := .sync tmp) trivial) hrun with hend | ⟨⟨⟩, w₅, -, h₅, hrun⟩
  · exact .inl hend
  rcases h₅.step hbad (asks_ofExcept _) hrun with hend | ⟨expected, w₆, hagreed, h₆, hrun⟩
  · exact .inl hend
  rcases h₆.step hbad (asks_stages asks_hashFile) hrun with hend |
    ⟨⟨onDisk, size⟩, w₇, hhash, h₇, hrun⟩
  · exact .inl hend
  obtain ⟨content, w₈, hread, hhashed⟩ := run_bind_ok.mp hhash
  obtain ⟨hsame, hcontent⟩ := run_readToEnd.mp hread
  obtain ⟨hpair, hsame'⟩ := run_pure.mp hhashed
  have hcontent₇ : w₇.files tmp = some content := by rw [← hsame', hsame, hcontent]
  obtain ⟨honDisk, -⟩ := Prod.mk.inj (Except.ok.inj hpair)
  rcases h₇.step hbad (asks_stages asks_requireLength) hrun with hend | ⟨⟨⟩, w₉, hlength, h₉, hrun⟩
  · exact .inl hend
  rcases h₉.step hbad (asks_stages asks_requireMatch) hrun with hend | ⟨⟨⟩, w₁₀, hmatch, h₁₀, hrun⟩
  · exact .inl hend
  rcases h₁₀.step hbad (asks_stages asks_stamp) hrun with hend | ⟨⟨⟩, w₁₁, hstamp, h₁₁, hrun⟩
  · exact .inl hend
  have hcontent₁₁ : w₁₁.files tmp = some content := by
    rw [(run_still hstill asks_stamp hstamp h₁₀.calm).1, (run_requireMatch hmatch).2,
      (run_still hstill asks_requireLength hlength h₇.calm).1, hcontent₇]
  rcases h₁₁.publish hfresh hbad hcontent₁₁ hrun with ⟨e, rfl, rfl⟩ | ⟨rfl, hcalm, hfiles⟩
  · exact .inl ⟨e, rfl, h₁₁.calm.logs (.inr rfl) hrename, h₁₁.files⟩
  · refine .inr ⟨_, expected, rfl, (run_ofExcept.mp hagreed).1, hcalm, (run_requireMatch hmatch).1,
      content, hfiles, ?_⟩
    rw [← honDisk, (run_requireMatch hmatch).1]

/-- No file has changed, and nothing bad has failed. -/
structure Untouched (bad : Step → Bool) (w w' : World) : Prop where
  calm : Calm bad w'
  files : w'.files = w.files

theorem Untouched.staged (h : Untouched bad w w₁) : Staged bad tmp w w₁ :=
  ⟨h.calm, fun q _ => by rw [h.files]⟩

theorem Untouched.next {body : WriteM α} {f : α → WriteM PutOutcome}
    {x : Except StoreError PutOutcome} (h : Untouched bad w w₁)
    (hstill : ∀ step, step.still → bad step = false) (hasks : body.run.Asks Step.still)
    (hrun : Prog.Run serve (body >>= f).run w₁ x w') :
    (∃ e, x = .error e ∧ Untouched bad w w') ∨ ∃ a w₂, Prog.Run serve body.run w₁ (.ok a) w₂ ∧
      Untouched bad w w₂ ∧ Prog.Run serve (f a).run w₂ x w' := by
  have hkeep : ∀ {y : Except StoreError α} {w₂ : World}, Prog.Run serve body.run w₁ y w₂ →
      Untouched bad w w₂ := by
    intro y w₂ hpart
    obtain ⟨hfiles, hcalm⟩ := run_still hstill hasks hpart h.calm
    exact ⟨hcalm, hfiles.trans h.files⟩
  rcases run_fallible_bind.mp hrun with ⟨e, hpart, rfl⟩ | ⟨a, w₂, hpart, hrest⟩
  · exact .inl ⟨e, rfl, hkeep hpart⟩
  · exact .inr ⟨a, w₂, hpart, hkeep hpart, hrest⟩

section

variable (h : Untouched bad w w₁) (hfresh : w.files tmp = none)
  (hbad : ∀ step, step.stages tmp → bad step = false) (hremove : bad (.op (.remove tmp)) = true)
  (hrename : bad (.op (.rename tmp dest)) = true)
include h hfresh hbad hremove hrename

theorem ends_put {data : Bytes}
    (hrun : Prog.Run serve (requireMatch expected (compute digest expected.algo data) >>= fun _ =>
      perform (.createDirAll (parent dest)) >>= fun _ => orRemove tmp (writeStaging tmp data) >>=
        fun _ => orRemove tmp (readToEnd tmp) >>= fun bytes => orRemove tmp (requireLength
          data.length bytes.length) >>= fun _ => orRemove tmp (requireMatch expected (compute digest
            expected.algo bytes)) >>= fun _ => orRemove tmp (stamp tmp modified) >>= fun _ =>
              perform (.rename tmp dest) >>= fun _ => syncParent dest >>= fun _ =>
                (pure ⟨data.length, compute digest expected.algo bytes⟩ : WriteM PutOutcome)).run w₁
                  x w') :
    Ends digest bad tmp dest expected w x w' := by
  have hstill := still_of_stages hbad
  rcases h.next hstill asks_requireMatch hrun with ⟨e, rfl, hend⟩ | ⟨⟨⟩, w₂, -, h₂, hrun⟩
  · exact .inl ⟨hend.files, hend.calm⟩
  rcases h₂.next hstill (asks_perform (o := .createDirAll _) trivial) hrun with
    ⟨e, rfl, hend⟩ | ⟨⟨⟩, w₃, -, h₃, hrun⟩
  · exact .inl ⟨hend.files, hend.calm⟩
  rcases h₃.staged.next hfresh hbad hremove asks_writeStaging hrun with hend | ⟨⟨⟩, w₄, -, h₄, hrun⟩
  · exact hend
  rcases h₄.next hfresh hbad hremove (asks_stages asks_readToEnd) hrun with
    hend | ⟨content, w₅, hread, h₅, hrun⟩
  · exact hend
  obtain ⟨hsame, hcontent⟩ := run_readToEnd.mp hread
  have hcontent₅ : w₅.files tmp = some content := by rw [hsame, hcontent]
  refine h₅.commit hfresh hbad hremove hrename hcontent₅ ?_ ?_ hrun <;> rfl

theorem ends_putFromPath {source : SourceFile}
    (hrun : Prog.Run serve (perform (.createDirAll (parent dest)) >>= fun _ => orRemove tmp
      (streamCopyToTemp source tmp) >>= fun written => orRemove tmp (hashFile digest tmp
        expected.algo) >>= fun found => orRemove tmp (requireLength written found.2) >>= fun _ =>
          orRemove tmp (requireMatch expected found.1) >>= fun _ => orRemove tmp
            (stamp tmp modified) >>= fun _ => perform (.rename tmp dest) >>= fun _ => syncParent
              dest >>= fun _ => (pure ⟨found.2, found.1⟩ : WriteM PutOutcome)).run w₁ x w') :
    Ends digest bad tmp dest expected w x w' := by
  have hstill := still_of_stages hbad
  rcases h.next hstill (asks_perform (o := .createDirAll _) trivial) hrun with
    ⟨e, rfl, hend⟩ | ⟨⟨⟩, w₂, -, h₂, hrun⟩
  · exact .inl ⟨hend.files, hend.calm⟩
  rcases h₂.staged.next hfresh hbad hremove asks_streamCopyToTemp hrun with
    hend | ⟨written, w₃, -, h₃, hrun⟩
  · exact hend
  rcases h₃.next hfresh hbad hremove (asks_stages asks_hashFile) hrun with
    hend | ⟨⟨onDisk, size⟩, w₄, hhash, h₄, hrun⟩
  · exact hend
  obtain ⟨content, w₅, hread, hhashed⟩ := run_bind_ok.mp hhash
  obtain ⟨hsame, hcontent⟩ := run_readToEnd.mp hread
  obtain ⟨hpair, hsame'⟩ := run_pure.mp hhashed
  obtain ⟨honDisk, -⟩ := Prod.mk.inj (Except.ok.inj hpair)
  have hcontent₄ : w₄.files tmp = some content := by rw [← hsame', hsame, hcontent]
  refine h₄.commit hfresh hbad hremove hrename hcontent₄ ?_ honDisk hrun
  rfl

end

end Ends

section Whole

variable {digest : HashAlgo → Bytes → Bytes} {fs : Backend} {key : String} {modified : Option Int}
  {stagingName : Name} {writer : Writer} {outcome : Except StoreError PutOutcome}
    {bad : Step → Bool}

theorem strands_of_stages {step : Step} (h : step.stages tmp) : writer.strands step = false := by
  cases writer <;> cases step <;>
    first | rfl | (rename_i o; cases o <;> first | rfl | exact absurd h id)

theorem run_begin {rest : Path → WriteM PutOutcome} (hstill : ∀ step, step.still → bad step = false)
    (hcalm : Calm bad w)
    (hrun : Prog.Run serve (fs.requireSameRoot >>= fun _ =>
      Prog.ofExcept (resolve key) >>= rest).run w outcome w') :
    (∃ e, outcome = .error e ∧ Untouched bad w w') ∨ ∃ dest w₁, resolve key = .ok dest ∧
      Untouched bad w w₁ ∧ Prog.Run serve (rest dest).run w₁ outcome w' := by
  have h : Untouched bad w w := ⟨hcalm, rfl⟩
  rcases h.next hstill asks_requireSameRoot hrun with hend | ⟨⟨⟩, w₁, -, h₁, hrun⟩
  · exact .inl hend
  rcases h₁.next hstill (asks_ofExcept _) hrun with hend | ⟨dest, w₂, hkey, h₂, hrun⟩
  · exact .inl hend
  · exact .inr ⟨dest, w₂, (run_ofExcept.mp hkey).1, h₂, hrun⟩

theorem Untouched.kept_iff {e : StoreError} (h : Untouched writer.strands w w') :
    writer.Kept digest key w w' (.error e) ↔ Calm writer.strands w' :=
  ⟨fun _ => h.calm, fun _ => h.files⟩

theorem Ends.kept_iff {expected : ContentHash}
    (h : Ends digest writer.strands tmp dest expected w outcome w')
    (hfresh : w.files tmp = none) (hkey : resolve key = .ok dest)
    (hagreed : ∀ o, outcome = .ok o → writer.agreed = .ok expected) :
    writer.Kept digest key w w' outcome ↔ Calm writer.strands w' := by
  cases outcome with
  | ok o =>
    obtain ⟨hcalm, hverified, content, hfiles, hdigest⟩ := h
    exact ⟨fun _ => hcalm, fun _ =>
      ⟨dest, expected, content, hkey, hagreed o rfl, hfiles, hdigest, hverified⟩⟩
  | error e =>
    rcases h with ⟨hfiles, hcalm⟩ | ⟨hleft, hcalm⟩
    · exact ⟨fun _ => hcalm, fun _ => hfiles⟩
    · refine ⟨fun hkept => absurd ?_ hleft, fun h => absurd h hcalm⟩
      rw [show w'.files = w.files from hkept, hfresh]

/-- A write that starts without a staging file leaves the store as it was or publishes what was
agreed, if and only if neither the removal of its staging file fails nor, in `put` and
`put_from_path`, the rename. -/
theorem write_kept_iff
    (hfresh : ∀ dest, resolve key = .ok dest → w.files (tempPath dest stagingName) = none)
    (hstart : w.faults = [])
    (hrun : Prog.Run serve (writer.run digest fs key modified stagingName).run w outcome w') :
    writer.Kept digest key w w' outcome ↔ ∀ step ∈ w'.faults, writer.strands step = false := by
  have hcalm : Calm writer.strands w := by
    rw [Calm, hstart]
    exact nofun
  have hstill : ∀ step, Step.still step → writer.strands step = false :=
    fun step h => strands_of_stages (h.stages : step.stages [])
  cases writer with
  | put data expected =>
    rcases run_begin hstill hcalm hrun with ⟨e, rfl, hend⟩ | ⟨dest, w₁, hkey, h₁, hrun⟩
    · exact hend.kept_iff
    · exact (ends_put h₁ (hfresh dest hkey) (fun _ => strands_of_stages) rfl rfl hrun).kept_iff
        (hfresh dest hkey) hkey fun _ _ => rfl
  | putFromPath source expected =>
    rcases run_begin hstill hcalm hrun with ⟨e, rfl, hend⟩ | ⟨dest, w₁, hkey, h₁, hrun⟩
    · exact hend.kept_iff
    · exact (ends_putFromPath h₁ (hfresh dest hkey) (fun _ => strands_of_stages) rfl rfl
        hrun).kept_iff
        (hfresh dest hkey) hkey fun _ _ => rfl
  | putStream source =>
    rcases run_begin hstill hcalm hrun with ⟨e, rfl, hend⟩ | ⟨dest, w₁, hkey, h₁, hrun⟩
    · exact hend.kept_iff
    rcases h₁.next hstill (asks_perform (o := .createDirAll _) trivial) hrun with
      ⟨e, rfl, hend⟩ | ⟨⟨⟩, w₂, -, h₂, hrun⟩
    · exact hend.kept_iff
    have hbad : ∀ step, Step.stages (tempPath dest stagingName) step →
        (Writer.putStream source).strands step = false := fun _ => strands_of_stages
    rcases run_orRemove.mp hrun with ⟨o, rfl, hbody⟩ | ⟨e, w₃, rfl, hbody, hremove⟩
    · rcases h₂.staged.stream (hfresh dest hkey) hbad rfl hbody with
        ⟨e, herr, -⟩ | ⟨o', expected, hok, hagreed, hend⟩
      · cases herr
      · cases hok
        exact hend.kept_iff (hfresh dest hkey) hkey fun _ _ => hagreed
    · rcases h₂.staged.stream (hfresh dest hkey) hbad rfl hbody with
        ⟨e', -, h₃⟩ | ⟨o', expected, hok, -⟩
      · have hends : Ends digest (Writer.putStream source).strands (tempPath dest stagingName) dest
            ⟨.blake3, []⟩ w (.error e) w' := h₃.removed (hfresh dest hkey) rfl hremove
        exact hends.kept_iff (hfresh dest hkey) hkey nofun
      · cases hok

end Whole

def documentedSha1 (_ : HashAlgo) (_ : Bytes) : Bytes :=
  [0xda, 0x39, 0xa3, 0xee, 0x5e, 0x6b, 0x4b, 0x0d, 0x32, 0x55, 0xbf, 0xef, 0x95, 0x60,
    0x18, 0x90, 0xaf,
    0xd8, 0x07, 0x09]

def emptyPut : Writer := .put [] ⟨.sha1, documentedSha1 .sha1 []⟩

def firstStaging : Name := utf8 ".dctl-staging.1.0"

def emptyWorld : World := ⟨fun _ => none, []⟩

def stagedWorld : World :=
  ((emptyWorld.set [firstStaging] (some [])).set [firstStaging] (some [])).set
    [firstStaging] (some [])

theorem stagedWorld_files : stagedWorld.files [firstStaging] = some [] :=
  World.set_files_self ..

def strandedWorld : World := stagedWorld.fail (.op (.rename [firstStaging] [utf8 "a"]))

theorem run_stranded : Prog.Run serve (emptyPut.run documentedSha1 ⟨"/store", none⟩ "a" none
    firstStaging).run emptyWorld (.error (.io ⟨.permissionDenied, some 13⟩)) strandedWorld := by
  have hkey : resolve "a" = .ok [utf8 "a"] := resolve_eq_ok.mpr (by decide)
  have still : ∀ {o : Op} {w : World}, w.Done o w → Prog.Run serve (perform o).run w (.ok ()) w :=
    fun h => run_perform.mpr (.inl ⟨rfl, h⟩)
  have hstaged :
      Prog.Run serve (writeStaging [firstStaging] []).run emptyWorld (.ok ()) stagedWorld := by
    refine run_bind_ok.mpr ⟨(), _, run_perform.mpr (.inl ⟨rfl, rfl⟩), ?_⟩
    refine run_bind_ok.mpr ⟨(), _, run_perform.mpr (.inl ⟨rfl, [], rfl⟩), ?_⟩
    refine run_bind_ok.mpr ⟨(), _, run_perform.mpr (.inl ⟨rfl, [], rfl⟩), ?_⟩
    exact still rfl
  refine run_fallible_bind.mpr (.inr ⟨(), emptyWorld, run_query_bind.mpr
    ⟨none, _, rfl, run_pure.mpr ⟨rfl, rfl⟩⟩, ?_⟩)
  refine run_fallible_bind.mpr (.inr ⟨_, _, run_ofExcept.mpr ⟨hkey, rfl⟩, ?_⟩)
  refine run_fallible_bind.mpr (.inr ⟨(), emptyWorld, run_pure.mpr ⟨rfl, rfl⟩, ?_⟩)
  refine run_fallible_bind.mpr (.inr ⟨(), emptyWorld, still rfl, ?_⟩)
  refine run_fallible_bind.mpr
    (.inr ⟨(), stagedWorld, run_orRemove.mpr (.inl ⟨(), rfl, hstaged⟩), ?_⟩)
  refine run_fallible_bind.mpr (.inr ⟨[], _, run_orRemove.mpr (.inl ⟨[], rfl,
    run_readToEnd.mpr ⟨rfl, stagedWorld_files⟩⟩), ?_⟩)
  refine run_fallible_bind.mpr (.inr ⟨(), _, run_orRemove.mpr
    (.inl ⟨(), rfl, run_pure.mpr ⟨rfl, rfl⟩⟩), ?_⟩)
  refine run_fallible_bind.mpr (.inr ⟨(), _, run_orRemove.mpr
    (.inl ⟨(), rfl, run_pure.mpr ⟨rfl, rfl⟩⟩), ?_⟩)
  refine run_fallible_bind.mpr (.inr ⟨(), _, run_orRemove.mpr
    (.inl ⟨(), rfl, run_pure.mpr ⟨rfl, rfl⟩⟩), ?_⟩)
  exact run_fallible_bind.mpr (.inl ⟨_, run_perform.mpr (.inr ⟨_, rfl, rfl⟩), rfl⟩)

theorem stranded_not_kept : ¬emptyPut.Kept documentedSha1 "a" emptyWorld strandedWorld
    (.error (.io ⟨.permissionDenied, some 13⟩)) := by
  intro h
  have hleft : strandedWorld.files [firstStaging] = some [] := stagedWorld_files
  rw [show strandedWorld.files = emptyWorld.files from h] at hleft
  cases hleft

/-- One refused rename is enough: the staging file stays. -/
theorem rename_not_kept :
    ¬∀ (writer : Writer) (key : String) (modified : Option Int) (stagingName : Name)
    (fs : Backend) (w w' : World) (outcome : Except StoreError PutOutcome),
    (∀ dest, resolve key = .ok dest → w.files (tempPath dest stagingName) = none) → w.faults = [] →
    Prog.Run serve (writer.run documentedSha1 fs key modified stagingName).run w outcome w' →
    w'.faults.length ≤ 1 → writer.Kept documentedSha1 key w w' outcome :=
  fun h => stranded_not_kept (h _ _ _ _ _ _ _ _ (fun _ _ => rfl) rfl run_stranded (by decide))

theorem write_kept_iff_stranded :
    (emptyPut.Kept documentedSha1 "a" emptyWorld strandedWorld
      (.error (.io ⟨.permissionDenied, some 13⟩)) ↔
      ∀ step ∈ strandedWorld.faults, emptyPut.strands step = false) ∧
    strandedWorld.faults = [.op (.rename [firstStaging] [utf8 "a"])] :=
  ⟨write_kept_iff (fun _ _ => rfl) rfl run_stranded, rfl⟩

end Dctl.Store.LocalFs
