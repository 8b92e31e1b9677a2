import Dctl.Store.SftpHandles

/-! Which file a read of an SFTP backend serves after a write has returned. -/

namespace Dctl.Store.Sftp

open ProofKit RangeRead Function

variable {σ σ' σ₁ : State} {label : Label} {remote path : Text} {range : ByteRange} {link i j : Nat}
  {file : File} {current : Option File} {handle : OpenFile} {cache : HandleCache} {call new : Call}
    {stage : Reading}

theorem State.Link.same (h : σ.Link link σ') :
    σ'.files = σ.files ∧ σ'.made = σ.made ∧ σ'.caches = σ.caches ∧
    σ'.calls = σ.calls ∧ σ'.settled = σ.settled ∧ σ.dialled ≤ σ'.dialled := by
  cases h with
  | live _ _ => exact ⟨rfl, rfl, rfl, rfl, rfl, Nat.le_refl _⟩
  | dialled _ => exact ⟨rfl, rfl, rfl, rfl, rfl, Nat.le_succ _⟩

theorem mem_setCache {e : Text × OpenFile} (h : e ∈ (σ.setCache link cache).caches i) :
    (i = link ∧ e ∈ cache) ∨ e ∈ σ.caches i := by
  have h : e ∈ update σ.caches link cache i := h
  by_cases hi : i = link
  · subst hi
    rw [update_self] at h
    exact .inl ⟨rfl, h⟩
  · rw [update_of_ne hi] at h
    exact .inr h

theorem mem_forget {e : Text × OpenFile} (h : e ∈ (σ.forget remote).caches i) : e ∈ σ.caches i := by
  unfold State.forget at h
  split at h
  · exact h
  · rcases mem_setCache h with ⟨rfl, he⟩ | he
    · exact HandleCache.mem_of_mem_evict he
    · exact he

theorem Step.mem_caches (h : Step σ label σ') {e : Text × OpenFile} (he : e ∈ σ'.caches i) :
    e ∈ σ.caches i ∨ label = .keep e.1 e.2.file := by
  cases h with
  | link j _ hlink => exact .inl (hlink.same.2.2.1 ▸ he)
  | hit j _ hget =>
    rcases @mem_setCache σ _ _ _ _ he with ⟨rfl, hcache⟩ | he
    · exact .inl ((HandleCache.get_eq_some hget).2 _ hcache)
    · exact .inl he
  | keep j _ =>
    rcases @mem_setCache σ _ _ _ _ he with ⟨rfl, he⟩ | he
    · rcases HandleCache.mem_put he with rfl | he
      · exact .inr rfl
      · exact .inl he
    · exact .inl he
  | readFailed j _ =>
    rcases @mem_setCache σ _ _ _ _ he with ⟨rfl, he⟩ | he
    · exact .inl (HandleCache.mem_of_mem_evict he)
    · exact .inl he
  | @forget j remote file _ =>
    unfold State.settle at he
    split at he
    · exact .inl (mem_forget he)
    · exact .inl (mem_forget he)
  | @evict j remote link σ₁ _ hlink =>
    rcases @mem_setCache σ₁ _ _ _ _ he with ⟨rfl, he⟩ | he
    · exact .inl (hlink.same.2.2.1 ▸ HandleCache.mem_of_mem_evict he)
    · exact .inl (hlink.same.2.2.1 ▸ he)
  | failForgetting j _ => exact .inl (mem_forget he)
  | _ => exact .inl he

theorem forget_same (σ : State) (remote : Text) : (σ.forget remote).files = σ.files ∧
    (σ.forget remote).settled = σ.settled ∧ (σ.forget remote).made = σ.made ∧
      (σ.forget remote).calls = σ.calls ∧
    (σ.forget remote).dialled = σ.dialled ∧ (σ.forget remote).cell = σ.cell := by
  unfold State.forget
  split <;> exact ⟨rfl, rfl, rfl, rfl, rfl, rfl⟩

theorem settle_same (σ : State) (remote : Text) (file : File) :
    (σ.settle remote file).files = σ.files ∧
    (σ.settle remote file).caches = σ.caches ∧ (σ.settle remote file).made = σ.made ∧
    (σ.settle remote file).calls = σ.calls ∧ (σ.settle remote file).dialled = σ.dialled ∧
    (σ.settle remote file).cell = σ.cell := by
  unfold State.settle
  split <;> exact ⟨rfl, rfl, rfl, rfl, rfl, rfl⟩

theorem settled_settle (h : σ.settled path = true) :
    (σ.settle remote file).settled path = true := by
  unfold State.settle
  split
  · by_cases hpath : path = remote
    · subst hpath
      exact update_self ..
    · exact (update_of_ne hpath ..).trans h
  · exact h

theorem Step.spared (h : Step σ label σ') (hspares : label.Spares path) :
    σ'.files path = σ.files path ∧ (σ.settled path = true → σ'.settled path = true) := by
  cases h with
  | link j _ hlink =>
    obtain ⟨hfiles, -, -, -, hsettled, -⟩ := hlink.same
    exact ⟨congrFun hfiles path, fun h => (congrFun hsettled path).trans h⟩
  | @rename j remote object _ =>
    have hne : path ≠ remote := Ne.symm hspares
    exact ⟨update_of_ne hne .., fun h => (update_of_ne hne ..).trans h⟩
  | @forget j remote file _ =>
    obtain ⟨hfiles, hsettled, -⟩ := forget_same σ remote
    refine ⟨(congrFun (settle_same _ remote file).1 path).trans (congrFun hfiles path), fun h => ?_⟩
    exact settled_settle ((congrFun hsettled path).trans h)
  | evict j _ hlink =>
    obtain ⟨hfiles, -, -, -, hsettled, -⟩ := hlink.same
    exact ⟨congrFun hfiles path, fun h => (congrFun hsettled path).trans h⟩
  | @unlink j remote answered _ =>
    have hne : path ≠ remote := Ne.symm hspares
    exact ⟨update_of_ne hne .., fun h => (update_of_ne hne ..).trans h⟩
  | @failForgetting j remote _ =>
    obtain ⟨hfiles, hsettled, -⟩ := forget_same σ remote
    exact ⟨congrFun hfiles path, fun h => (congrFun hsettled path).trans h⟩
  | _ => exact ⟨rfl, id⟩

/-- Every handle for the path is of the file that the path names. -/
def Agrees (σ : State) (remote : Text) (link : Nat) : Prop :=
  ∀ handle, (remote, handle) ∈ σ.caches link → σ.files remote = some handle.file

theorem Agrees.step (h : Agrees σ path link) (hsettled : σ.settled path = true)
    (hstep : Step σ label σ') (hcareful : label.Careful σ) (hspares : label.Spares path) :
    Agrees σ' path link := by
  intro handle hmem
  rw [(hstep.spared hspares).1]
  rcases hstep.mem_caches hmem with hmem | rfl
  · exact h handle hmem
  · exact hcareful hsettled

/-- What holds of the files and the sessions in every run of careful steps.  A settled path has no
handle to another file on the live session. -/
structure Sound (σ : State) : Prop where
  single : ∀ link, (σ.caches link).Single
  fresh : ∀ link, σ.dialled ≤ link → σ.caches link = []
  cellDialled : ∀ link, σ.cell = some link → link < σ.dialled
  live : ∀ path link, σ.settled path = true → σ.cell = some link → Agrees σ path link
  absent : ∀ path, σ.files path = none → σ.settled path = true
  made : ∀ path file, σ.files path = some file → file.id < σ.made

def Reading.link? : Reading → Option Nat
  | .started => none
  | .linked link | .missed link | .opened link _ | .holding link _ => some link

/-- What holds of a call: its session was dialled, and a write that returned has settled its path,
unless another write came after it. -/
def Minds (σ : State) : Call → Prop
  | .reading _ _ stage => ∀ link, stage.link? = some link → link < σ.dialled
  | .renamed _ file => file.id < σ.made
  | .stored remote file => file.id < σ.made ∧ (σ.files remote = some file → σ.settled remote = true)
  | _ => True

section

variable (h : Sound σ)
include h

theorem Sound.setCall (i : Nat) (call : Call) : Sound (σ.setCall i call) :=
  ⟨h.single, h.fresh, h.cellDialled, h.live, h.absent, h.made⟩

theorem Sound.linked (hlink : σ.Link link σ') : Sound σ' ∧ link < σ'.dialled := by
  cases hlink with
  | live hcell _ => exact ⟨h, h.cellDialled link hcell⟩
  | dialled _ =>
    refine ⟨⟨h.single, fun link hlink => h.fresh link (Nat.le_of_succ_le hlink), ?_, ?_, h.absent,
      h.made⟩, Nat.lt_succ_self _⟩
    · rintro link ⟨⟩
      exact Nat.lt_succ_self _
    · rintro path link - ⟨⟩ handle hmem
      have hmem : (path, handle) ∈ σ.caches σ.dialled := hmem
      rw [h.fresh _ (Nat.le_refl _)] at hmem
      cases hmem

theorem Sound.setCache (hsingle : cache.Single) (hfresh : σ.dialled ≤ link → cache = [])
    (hmem : ∀ path handle, (path, handle) ∈ cache → (path, handle) ∈ σ.caches link ∨
      (σ.settled path = true → σ.files path = some handle.file)) :
    Sound (σ.setCache link cache) := by
  refine ⟨fun i => ?_, fun i hi => ?_, h.cellDialled, ?_, h.absent, h.made⟩
  · show (update σ.caches link cache i).Single
    by_cases hi : i = link
    · subst hi
      rwa [update_self]
    · rw [update_of_ne hi]
      exact h.single i
  · show update σ.caches link cache i = []
    by_cases heq : i = link
    · subst heq
      rw [update_self]
      exact hfresh hi
    · rw [update_of_ne heq]
      exact h.fresh i hi
  · intro path i hsettled hcell handle hin
    rcases mem_setCache hin with ⟨rfl, hcache⟩ | hin
    · rcases hmem path handle hcache with hold | hagrees
      · exact h.live path i hsettled hcell handle hold
      · exact hagrees hsettled
    · exact h.live path i hsettled hcell handle hin

theorem Sound.evict (link : Nat) (remote : Text) :
    Sound (σ.setCache link ((σ.caches link).evict remote)) := by
  refine h.setCache ((h.single link).evict remote) (fun hlink => ?_) fun path handle hmem =>
    .inl (HandleCache.mem_of_mem_evict hmem)
  rw [h.fresh link hlink]
  rfl

theorem Sound.keep (hlink : link < σ.dialled)
    (hcareful : σ.settled remote = true → σ.files remote = some handle.file) :
    Sound (σ.setCache link ((σ.caches link).put remote handle)) := by
  refine h.setCache ((h.single link).put remote handle) (fun hge =>
    absurd hlink (Nat.not_lt.mpr hge)) ?_
  intro path handle' hmem
  rcases HandleCache.mem_put hmem with heq | hmem
  · cases heq
    exact .inr hcareful
  · exact .inl hmem

theorem Sound.forget (remote : Text) : Sound (σ.forget remote) := by
  unfold State.forget
  split
  · exact h
  · exact h.evict _ remote

/-- A path gets another file, or none.  It may be settled if no handle of the live session is for
another one. -/
theorem Sound.setFile {made : Nat} {file : Option File} {settled : Bool} (hmade : σ.made ≤ made)
    (hnew : ∀ f, file = some f → f.id < made) (hsettled : file = none → settled = true)
    (hcareful : settled = true → ∀ link, σ.cell = some link →
      ∀ handle, (remote, handle) ∉ σ.caches link) :
    Sound ({ σ with made := made }.setFile remote file settled) := by
  refine ⟨h.single, h.fresh, h.cellDialled, ?_, ?_, ?_⟩
  · intro path link hpathSettled hcell handle hmem
    have hpathSettled : update σ.settled remote settled path = true := hpathSettled
    show update σ.files remote file path = _
    by_cases hpath : path = remote
    · subst hpath
      rw [update_self] at hpathSettled
      exact absurd hmem (hcareful hpathSettled link hcell handle)
    · rw [update_of_ne hpath] at hpathSettled ⊢
      exact h.live path link hpathSettled hcell handle hmem
  · intro path hnone
    have hnone : update σ.files remote file path = none := hnone
    show update σ.settled remote settled path = true
    by_cases hpath : path = remote
    · subst hpath
      rw [update_self] at hnone ⊢
      exact hsettled hnone
    · rw [update_of_ne hpath] at hnone ⊢
      exact h.absent path hnone
  · intro path f hfile
    have hfile : update σ.files remote file path = some f := hfile
    show f.id < made
    by_cases hpath : path = remote
    · subst hpath
      rw [update_self] at hfile
      exact hnew f hfile
    · rw [update_of_ne hpath] at hfile
      exact Nat.lt_of_lt_of_le (h.made path f hfile) hmade

theorem Sound.rename (remote : Text) (object : Bytes) :
    Sound ({ σ with made := σ.made + 1 }.setFile remote (some ⟨σ.made, object⟩) false) := by
  refine h.setFile (Nat.le_succ _) ?_ nofun nofun
  rintro f ⟨⟩
  exact Nat.lt_succ_self _

theorem Sound.unlink (remote : Text)
    (hcareful : ∀ link, σ.cell = some link → ∀ handle, (remote, handle) ∉ σ.caches link) :
    Sound (σ.setFile remote none true) :=
  h.setFile (Nat.le_refl _) nofun (fun _ => rfl) fun _ => hcareful

theorem Sound.settle (remote : Text) (file : File) :
    Sound ((σ.forget remote).settle remote file) := by
  have hforget := h.forget remote
  unfold State.settle
  split
  · refine ⟨hforget.single, hforget.fresh, hforget.cellDialled, ?_, ?_, hforget.made⟩
    · intro path link hsettled hcell handle hmem
      have hsettled : update (σ.forget remote).settled remote true path = true := hsettled
      by_cases hpath : path = remote
      · subst hpath
        exfalso
        have hcell : (σ.forget path).cell = some link := hcell
        have hmem : (path, handle) ∈ (σ.forget path).caches link := hmem
        rw [(forget_same σ path).2.2.2.2.2] at hcell
        rw [State.forget, hcell] at hmem
        have hmem : (path, handle) ∈ update σ.caches link ((σ.caches link).evict path) link := hmem
        rw [update_self] at hmem
        exact (h.single link).evict_ne hmem rfl
      · rw [update_of_ne hpath] at hsettled
        exact hforget.live path link hsettled hcell handle hmem
    · intro path hnone
      show update (σ.forget remote).settled remote true path = true
      by_cases hpath : path = remote
      · subst hpath
        exact update_self ..
      · rw [update_of_ne hpath]
        exact hforget.absent path hnone
  · exact hforget

end

theorem Label.not_spares (h : ¬ label.Spares path) :
    label = .rename path ∨ label = .unlink path := by
  cases label with
  | rename remote => exact .inl (congrArg _ (not_not.mp h))
  | unlink remote => exact .inr (congrArg _ (not_not.mp h))
  | keep remote file => exact absurd trivial h
  | other => exact absurd trivial h

theorem Step.dialled_le (h : Step σ label σ') : σ.dialled ≤ σ'.dialled ∧ σ.made ≤ σ'.made := by
  cases h with
  | link j _ hlink => exact ⟨hlink.same.2.2.2.2.2, Nat.le_of_eq hlink.same.2.1.symm⟩
  | evict j _ hlink => exact ⟨hlink.same.2.2.2.2.2, Nat.le_of_eq hlink.same.2.1.symm⟩
  | rename j _ => exact ⟨Nat.le_refl _, Nat.le_succ _⟩
  | @forget j remote file _ =>
    obtain ⟨-, -, hmade, -, hdialled, -⟩ := forget_same σ remote
    obtain ⟨-, -, hmade', -, hdialled', -⟩ := settle_same (σ.forget remote) remote file
    exact ⟨Nat.le_of_eq (hdialled'.trans hdialled).symm, Nat.le_of_eq (hmade'.trans hmade).symm⟩
  | @failForgetting j remote _ =>
    obtain ⟨-, -, hmade, -, hdialled, -⟩ := forget_same σ remote
    exact ⟨Nat.le_of_eq hdialled.symm, Nat.le_of_eq hmade.symm⟩
  | _ => exact ⟨Nat.le_refl _, Nat.le_refl _⟩

theorem Step.settled (h : Step σ label σ') (hmade : file.id < σ.made)
    (hsettled : σ.files path = some file → σ.settled path = true)
    (hfile : σ'.files path = some file) : σ'.settled path = true := by
  by_cases hspares : label.Spares path
  · obtain ⟨hfiles, hkept⟩ := h.spared hspares
    exact hkept (hsettled (hfiles ▸ hfile))
  · exfalso
    rcases Label.not_spares hspares with rfl | rfl
    · cases h with
      | rename j _ =>
        have hfile : update σ.files path _ path = some file := hfile
        rw [update_self] at hfile
        cases hfile
        exact Nat.lt_irrefl _ hmade
    · cases h with
      | unlink j answered _ =>
        have hfile : update σ.files path none path = some file := hfile
        rw [update_self] at hfile
        cases hfile

theorem Minds.step (h : Minds σ call) (hstep : Step σ label σ') : Minds σ' call := by
  obtain ⟨hdialled, hmade⟩ := hstep.dialled_le
  cases call with
  | reading remote range stage => exact fun link hlink => Nat.lt_of_lt_of_le (h link hlink) hdialled
  | renamed remote file => exact Nat.lt_of_lt_of_le h hmade
  | stored remote file => exact ⟨Nat.lt_of_lt_of_le h.1 hmade, hstep.settled h.1 h.2⟩
  | _ => trivial

theorem minds_setCall (hcalls : σ₁.calls = σ.calls)
    (hold : ∀ i, Minds (σ₁.setCall j new) (σ.calls i)) (hnew : Minds σ₁ new) (i : Nat) :
    Minds (σ₁.setCall j new) ((σ₁.setCall j new).calls i) := by
  show Minds (σ₁.setCall j new) (update σ₁.calls j new i)
  by_cases hi : i = j
  · subst hi
    rwa [update_self]
  · rw [update_of_ne hi, hcalls]
    exact hold i

/-- What holds in every run of careful steps. -/
structure Inv (σ : State) : Prop where
  sound : Sound σ
  minds : ∀ i, Minds σ (σ.calls i)

theorem Inv.step (h : Inv σ) (hstep : Step σ label σ') (hcareful : label.Careful σ) : Inv σ' := by
  have hold : ∀ i, Minds σ' (σ.calls i) := fun i => (h.minds i).step hstep
  have hs := h.sound
  cases hstep with
  | get j remote range _ => exact ⟨hs.setCall j _, minds_setCall rfl hold nofun⟩
  | link j _ hlink =>
    obtain ⟨hsound, hlt⟩ := hs.linked hlink
    refine ⟨hsound.setCall j _, minds_setCall hlink.same.2.2.2.1 hold ?_⟩
    rintro _ ⟨⟩
    exact hlt
  | @hit j remote range link handle cache hcall hget =>
    have hminds := h.minds j
    rw [hcall] at hminds
    have hlt := hminds link rfl
    refine ⟨Sound.setCall (hs.setCache ((hs.single link).get hget)
      (fun hge => absurd hlt (Nat.not_lt.mpr hge)) ?_) j _, minds_setCall rfl hold ?_⟩
    · exact fun path handle hmem => .inl ((HandleCache.get_eq_some hget).2 _ hmem)
    · rintro _ ⟨⟩
      exact hlt
  | @miss j remote range link hcall _ =>
    have hminds := h.minds j
    rw [hcall] at hminds
    exact ⟨hs.setCall j _, minds_setCall rfl hold hminds⟩
  | @openFile j remote range link file hcall _ =>
    have hminds := h.minds j
    rw [hcall] at hminds
    exact ⟨hs.setCall j _, minds_setCall rfl hold hminds⟩
  | notFound j _ _ => exact ⟨hs.setCall j _, minds_setCall rfl hold trivial⟩
  | @keep j remote range link handle hcall =>
    have hminds := h.minds j
    rw [hcall] at hminds
    exact ⟨(hs.keep (hminds link rfl) hcareful).setCall j _, minds_setCall rfl hold hminds⟩
  | read j _ => exact ⟨hs.setCall j _, minds_setCall rfl hold trivial⟩
  | readFailed j _ => exact ⟨(hs.evict _ _).setCall j _, minds_setCall rfl hold trivial⟩
  | put j remote object _ => exact ⟨hs.setCall j _, minds_setCall rfl hold trivial⟩
  | rename j _ => exact ⟨(hs.rename _ _).setCall j _, minds_setCall rfl hold (Nat.lt_succ_self _)⟩
  | @forget j remote file hcall =>
    have hminds : Minds σ (.renamed remote file) := hcall ▸ h.minds j
    obtain ⟨-, -, hmade, hcalls, -, -⟩ := settle_same (σ.forget remote) remote file
    refine ⟨(hs.settle remote file).setCall j _,
      minds_setCall (hcalls.trans (forget_same σ remote).2.2.2.1) hold ?_⟩
    refine ⟨hmade.trans (forget_same σ remote).2.2.1 ▸ hminds, fun hfile => ?_⟩
    rw [(settle_same _ _ _).1] at hfile
    rw [State.settle, if_pos hfile]
    exact update_self ..
  | delete j remote _ => exact ⟨hs.setCall j _, minds_setCall rfl hold trivial⟩
  | evict j _ hlink =>
    exact ⟨((hs.linked hlink).1.evict _ _).setCall j _,
      minds_setCall hlink.same.2.2.2.1 hold trivial⟩
  | unlink j answered _ =>
    refine ⟨(hs.unlink _ hcareful).setCall j _, minds_setCall rfl hold ?_⟩
    cases answered <;> trivial
  | fail j _ => exact ⟨hs.setCall j _, minds_setCall rfl hold trivial⟩
  | failForgetting j _ =>
    exact ⟨(hs.forget _).setCall j _, minds_setCall (forget_same σ _).2.2.2.1 hold trivial⟩
  | lose link => exact ⟨⟨hs.single, hs.fresh, hs.cellDialled, hs.live, hs.absent, hs.made⟩, hold⟩
  | discard link _ _ =>
    exact ⟨⟨hs.single, hs.fresh, nofun, (fun _ _ _ hcell => nomatch hcell), hs.absent, hs.made⟩,
      hold⟩

def State.start (files : Text → Option File) (made : Nat) : State :=
  ⟨files, made, some 0, 1, fun _ => false, fun _ => [], fun _ => .idle, fun _ => true⟩

theorem inv_start {files : Text → Option File} {made : Nat}
    (h : ∀ path file, files path = some file → file.id < made) : Inv (.start files made) := by
  refine ⟨⟨fun _ => List.nodup_nil, fun _ _ => rfl, ?_, fun _ _ _ _ => nofun, fun _ _ => rfl, h⟩,
    fun _ => trivial⟩
  rintro link ⟨⟩
  exact Nat.one_pos

theorem Inv.run (h : Inv σ) (hrun : Run (fun σ label => label.Careful σ) σ σ') : Inv σ' := by
  induction hrun with
  | refl => exact h
  | tail _ hstep ih =>
    obtain ⟨label, hstep, hcareful⟩ := hstep
    exact ih.step hstep hcareful

def answer (remote : Text) (range : ByteRange) : Option File → Except StoreError Bytes
  | none => .error (.notFound (String.ofList remote))
  | some file => readRange file.object file.object.length range

def Serves (σ : State) (path : Text) (current : Option File) : Call → Prop
  | .reading remote _ stage => remote = path →
    (∀ link, stage.link? = some link → Agrees σ path link) ∧
      ∀ link handle, stage = .opened link handle ∨ stage = .holding link handle →
        current = some handle.file
  | .got remote range result => remote = path → result = answer path range current
  | _ => True

structure After (path : Text) (current : Option File) (i : Nat) (σ : State) : Prop where
  settled : σ.settled path = true
  file : σ.files path = current
  serves : Serves σ path current (σ.calls i)

theorem Serves.step (h : Serves σ path current call) (hsettled : σ.settled path = true)
    (hstep : Step σ label σ') (hcareful : label.Careful σ) (hspares : label.Spares path) :
    Serves σ' path current call := by
  cases call with
  | reading remote range stage =>
    intro hpath
    obtain ⟨hlink, hhandle⟩ := h hpath
    exact ⟨fun link hl => (hlink link hl).step hsettled hstep hcareful hspares, hhandle⟩
  | got remote range result => exact h
  | _ => trivial

theorem serves_setCall (hcalls : σ₁.calls = σ.calls)
    (hold : Serves (σ₁.setCall j new) path current (σ.calls i))
    (hnew : i = j → Serves (σ₁.setCall j new) path current new) :
    Serves (σ₁.setCall j new) path current ((σ₁.setCall j new).calls i) := by
  show Serves _ _ _ (update σ₁.calls j new i)
  by_cases hi : i = j
  · subst hi
    rw [update_self]
    exact hnew rfl
  · rw [update_of_ne hi, hcalls]
    exact hold

theorem After.step (h : After path current i σ) (hinv : Inv σ) (hstep : Step σ label σ')
    (hcareful : label.Careful σ) (hspares : label.Spares path) : After path current i σ' := by
  obtain ⟨hfiles, hsettled⟩ := hstep.spared hspares
  have hold := h.serves.step h.settled hstep hcareful hspares
  refine ⟨hsettled h.settled, hfiles.trans h.file, ?_⟩
  have hs := h.serves
  cases hstep with
  | get j remote range _ =>
    refine serves_setCall rfl hold fun _ _ => ⟨nofun, ?_⟩
    rintro link handle (hstage | hstage) <;> cases hstage
  | @link j remote range link σ₁ hcall hlink =>
    refine serves_setCall hlink.same.2.2.2.1 hold fun _ hpath => ⟨?_, ?_⟩
    · rintro _ ⟨⟩
      have hcell : σ₁.cell = some link := by
        cases hlink with
        | live hcell _ => exact hcell
        | dialled _ => rfl
      exact (hinv.sound.linked hlink).1.live path link (hsettled h.settled) hcell
    · rintro link handle (hstage | hstage) <;> cases hstage
  | @hit j remote range link handle cache hcall hget =>
    refine serves_setCall rfl hold fun hi hpath => ?_
    subst hi hpath
    rw [hcall] at hold hs
    refine ⟨(hold rfl).1, ?_⟩
    rintro _ _ (hstage | hstage)
    · cases hstage
    · cases hstage
      rw [← h.file]
      exact (hs rfl).1 link rfl handle (HandleCache.get_eq_some hget).1
  | @miss j remote range link hcall _ =>
    refine serves_setCall rfl hold fun hi hpath => ?_
    subst hi hpath
    rw [hcall] at hold
    refine ⟨(hold rfl).1, ?_⟩
    rintro link handle (hstage | hstage) <;> cases hstage
  | @openFile j remote range link file hcall hfile =>
    refine serves_setCall rfl hold fun hi hpath => ?_
    subst hi hpath
    rw [hcall] at hold
    refine ⟨(hold rfl).1, ?_⟩
    rintro _ _ (hstage | hstage)
    · cases hstage
      exact h.file.symm.trans hfile
    · cases hstage
  | @notFound j remote range link hcall hfile =>
    refine serves_setCall rfl hold fun hi hpath => ?_
    subst hi hpath
    rw [← h.file, hfile]
    rfl
  | @keep j remote range link handle hcall =>
    refine serves_setCall rfl hold fun hi hpath => ?_
    subst hi hpath
    rw [hcall] at hold
    refine ⟨(hold rfl).1, ?_⟩
    rintro _ _ (hstage | hstage)
    · cases hstage
    · cases hstage
      exact (hold rfl).2 link handle (.inl rfl)
  | @read j remote range link handle hcall =>
    refine serves_setCall rfl hold fun hi hpath => ?_
    subst hi hpath
    rw [hcall] at hold
    rw [(hold rfl).2 link handle (.inr rfl), answer, handle.fits]
  | readFailed j _ => exact serves_setCall rfl hold fun _ => trivial
  | put j remote object _ => exact serves_setCall rfl hold fun _ => trivial
  | rename j _ => exact serves_setCall rfl hold fun _ => trivial
  | @forget j remote file _ =>
    exact serves_setCall ((settle_same (σ.forget remote) remote file).2.2.2.1.trans
      (forget_same σ remote).2.2.2.1)
      hold fun _ => trivial
  | delete j remote _ => exact serves_setCall rfl hold fun _ => trivial
  | evict j _ hlink => exact serves_setCall hlink.same.2.2.2.1 hold fun _ => trivial
  | unlink j answered _ =>
    refine serves_setCall rfl hold fun _ => ?_
    cases answered <;> trivial
  | fail j _ => exact serves_setCall rfl hold fun _ => trivial
  | failForgetting j _ => exact serves_setCall (forget_same σ _).2.2.2.1 hold fun _ => trivial
  | lose link => exact hold
  | discard link _ _ => exact hold

theorem After.run (h : After path current i σ) (hinv : Inv σ)
    (hrun : Run (fun σ label => label.Careful σ ∧ label.Spares path) σ σ') :
    After path current i σ' := by
  suffices hboth : Inv σ' ∧ After path current i σ' from hboth.2
  induction hrun with
  | refl => exact ⟨hinv, h⟩
  | tail _ hstep ih =>
    obtain ⟨label, hstep, hcareful, hspares⟩ := hstep
    exact ⟨ih.1.step hstep hcareful, ih.2.step ih.1 hstep hcareful hspares⟩

/-- In every run of careful steps: after a write of a path has returned, a read of it that begins
later, with no write of the path since, answers with the object that was stored, or that there is
none after a delete, or fails. -/
theorem read_after_write {files : Text → Option File} {made : Nat}
    (hfiles : ∀ path file, files path = some file → file.id < made)
    (hbefore : Run (fun σ label => label.Careful σ) (.start files made) σ) {path : Text}
    {current : Option File} {writer reader : Nat}
    (hwrite : (∃ file, σ.calls writer = .stored path file ∧ current = some file) ∨
      (σ.calls writer = .deleted path ∧ current = none))
    (hcurrent : σ.files path = current) (hidle : σ.calls reader = .idle)
    (hafter : Run (fun σ label => label.Careful σ ∧ label.Spares path) σ σ') {range : ByteRange}
    {result : Except StoreError Bytes} (hgot : σ'.calls reader = .got path range result) :
    result = answer path range current := by
  have hinv := (inv_start hfiles).run hbefore
  have hsettled : σ.settled path = true := by
    rcases hwrite with ⟨file, hstored, rfl⟩ | ⟨-, rfl⟩
    · have hminds := hinv.minds writer
      rw [hstored] at hminds
      exact hminds.2 hcurrent
    · exact hinv.sound.absent path hcurrent
  have hserves : Serves σ path current (σ.calls reader) := by
    rw [hidle]
    trivial
  have hend := (After.mk hsettled hcurrent hserves).run hinv hafter
  have hanswer := hend.serves
  rw [hgot] at hanswer
  exact hanswer rfl

/-- A file is stored, and read. -/
theorem read_after_write_once : ∃ σ σ' : State, σ.calls 0 = .stored ['a'] ⟨0, [7]⟩ ∧
    σ'.calls 1 = .got ['a'] ⟨0, none⟩ (.ok [7]) ∧
    (.ok [7] : Except StoreError Bytes) = answer ['a'] ⟨0, none⟩ (some ⟨0, [7]⟩) := by
  obtain ⟨σ, σ', hbefore, hafter, hstored, hfile, hidle, hgot⟩ : ∃ σ σ' : State,
      Run (fun σ label => label.Careful σ) (.start (fun _ => none) 0) σ ∧
      Run (fun σ label => label.Careful σ ∧ label.Spares ['a']) σ σ' ∧
      σ.calls 0 = .stored ['a'] ⟨0, [7]⟩ ∧ σ.files ['a'] = some ⟨0, [7]⟩ ∧ σ.calls 1 = .idle ∧
      σ'.calls 1 = .got ['a'] ⟨0, none⟩ (.ok [7]) :=
    ⟨_, _,
      .tail (.tail (.tail .refl ⟨_, .put 0 ['a'] [7] rfl, trivial⟩) ⟨_, .rename 0 rfl, trivial⟩)
      ⟨_, .forget 0 rfl, trivial⟩,
      .tail (.tail (.tail (.tail (.tail (.tail .refl
        ⟨_, .get 1 ['a'] ⟨0, none⟩ rfl, trivial, trivial⟩)
        ⟨_, .link 1 rfl (@State.Link.live _ 0 rfl rfl), trivial, trivial⟩)
        ⟨_, .miss 1 rfl rfl, trivial, trivial⟩)
        ⟨_, .openFile 1 rfl rfl, trivial, trivial⟩)
        ⟨_, .keep 1 rfl, fun _ => rfl, trivial⟩)
        ⟨_, .read 1 rfl, trivial, trivial⟩,
      rfl, rfl, rfl, rfl⟩
  exact ⟨σ, σ', hstored, hgot, read_after_write (by rintro _ _ ⟨⟩) hbefore (.inl ⟨_, hstored, rfl⟩)
    hfile hidle hafter hgot⟩

/-- A read has opened the file when a write renames another over it and makes the session forget the
path, and keeps its handle after the write has returned: a later read is served the old bytes. -/
theorem stale_read : ∃ σ σ' : State, Run (fun _ _ => True) (.start (fun _ => some ⟨0, [1]⟩) 1) σ ∧
    σ.calls 1 = .stored ['a'] ⟨1, [2]⟩ ∧ σ.files ['a'] = some ⟨1, [2]⟩ ∧ σ.calls 2 = .idle ∧
    Run (fun _ label => label.Spares ['a']) σ σ' ∧ σ'.calls 2 = .got ['a'] ⟨0, none⟩ (.ok [1]) ∧
    answer ['a'] ⟨0, none⟩ (some ⟨1, [2]⟩) = .ok [2] :=
  ⟨_, _, .tail (.tail (.tail (.tail (.tail (.tail (.tail .refl
      ⟨_, .get 0 ['a'] ⟨0, none⟩ rfl, trivial⟩)
      ⟨_, .link 0 rfl (@State.Link.live _ 0 rfl rfl), trivial⟩)
      ⟨_, .miss 0 rfl rfl, trivial⟩)
      ⟨_, .openFile 0 rfl rfl, trivial⟩)
      ⟨_, .put 1 ['a'] [2] rfl, trivial⟩)
      ⟨_, .rename 1 rfl, trivial⟩)
      ⟨_, .forget 1 rfl, trivial⟩,
    rfl, rfl, rfl,
    .tail (.tail (.tail (.tail (.tail .refl
      ⟨_, .keep 0 rfl, trivial⟩)
      ⟨_, .get 2 ['a'] ⟨0, none⟩ rfl, trivial⟩)
      ⟨_, .link 2 rfl (@State.Link.live _ 0 rfl rfl), trivial⟩)
      ⟨_, .hit 2 rfl rfl, trivial⟩)
      ⟨_, .read 2 rfl, trivial⟩,
    rfl, rfl⟩

end Dctl.Store.Sftp
