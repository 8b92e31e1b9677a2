import Dctl.Mount.Tree

/-! What the mount remembers between an open and its release (`mount/handle.rs`), and the read-ahead
of an open file: over any sequence of reads the windows it claims are disjoint, each claim stays
within its depth of the read, and only a run of contiguous reads earns one. -/

namespace Dctl.Mount

open ProofKit Cli.Paths

def absDiff (a b : Nat) : Nat := max a b - min a b

structure ReadAhead where
  prefetchedTo : Nat
  streakBase : Nat
  lastReadEnd : Nat
  deriving DecidableEq, Repr

def ReadAhead.fresh : ReadAhead := ⟨0, 0, 0⟩

def wholeWindows (window : Nat) : (count at' : Nat) → List (Nat × Nat) × Nat
  | 0, at' => ([], at')
  | count + 1, at' =>
    let (windows, reached) := wholeWindows window count (satAdd at' window)
    ((at', window) :: windows, reached)

def ReadAhead.claim (r : ReadAhead) (start window depth : Nat) : List (Nat × Nat) × ReadAhead :=
  if window = 0 then ([], r)
  else
    -- A jump: this reader's history no longer predicts anything.
    let streakBase := if absDiff start r.lastReadEnd > window then start else r.streakBase
    let r := { r with streakBase, lastReadEnd := start }
    let progressed := (start - r.streakBase) / window
    let earned := min progressed depth
    if earned = 0 then ([], r)
    else
      let target := satAdd start (satMul window earned)
      let first := max r.prefetchedTo start
      let missing := (target - first) / window
      if missing = 0 then ([], r)
      else
        let (windows, reached) := wholeWindows window missing first
        (windows, { r with prefetchedTo := reached })

/-- One directory, as it was listed.  A vector holds less than 2^63 elements. -/
structure Listing where
  children : List Child
  fits : children.length < 2 ^ 63

inductive Handle where
  | file (path : Path) (ahead : ReadAhead)
  | directory (listing : Listing)

structure HandleTable where
  opened : Table Nat Handle
  next : Nat

namespace HandleTable

def new : HandleTable := ⟨∅, 1⟩

def insert (t : HandleTable) (handle : Handle) : Nat × HandleTable :=
  (t.next, ⟨t.opened.insert t.next handle, saturatingSucc t.next⟩)

def openFile (t : HandleTable) (path : Path) : Nat × HandleTable := t.insert (.file path .fresh)

def openDirectory (t : HandleTable) (listing : Listing) : Nat × HandleTable :=
  t.insert (.directory listing)

def listingOf (t : HandleTable) (handle : Nat) : Option Listing :=
  match t.opened[handle]? with
  | some (.directory listing) => some listing
  | _ => none

def claimReadAhead (t : HandleTable) (handle start window depth : Nat) :
    List (Nat × Nat) × HandleTable :=
  match t.opened[handle]? with
  | some (.file path ahead) =>
    let (windows, ahead) := ahead.claim start window depth
    (windows, { t with opened := t.opened.insert handle (.file path ahead) })
  | _ => ([], t)

end HandleTable

structure Read where
  offset : UInt64
  size : UInt32

def Read.finish (r : Read) : Nat := satAdd r.offset.toNat r.size.toNat

def HandleTable.scheduleReadAhead (t : HandleTable) (handle window depth : Nat) (r : Read) :
    List (Nat × Nat) × HandleTable :=
  if window = 0 then ([], t) else t.claimReadAhead handle r.finish window depth

end Dctl.Mount

namespace Dctl.Mount

open ProofKit Cli.Paths

/-- Where the current run of reads began, by the ends of the reads so far, the latest first: at the
latest jump, or at the start of the file. -/
def runStart (window : Nat) : List Nat → Nat
  | [] => 0
  | start :: before =>
    if absDiff start (before.headD 0) > window then start else runStart window before

/-- The one window ends where the other begins, or before. -/
def Before (a b : Nat × Nat) : Prop := a.1 + a.2 ≤ b.1

/-- The read-ahead of a file after reads that ended at `ends`, the latest first, which claimed the
windows. -/
structure Tracked (window : Nat) (ends : List Nat) (claimed : List (Nat × Nat)) (r : ReadAhead) :
    Prop where
  base : r.streakBase = runStart window ends
  last : r.lastReadEnd = ends.headD 0
  ordered : claimed.Pairwise Before
  covered : ∀ w ∈ claimed, w.1 + w.2 ≤ r.prefetchedTo

/-- What one claim may hand out, for a read that ended at `start` in a run that began at `base`. -/
structure Claims (window depth base start : Nat) (windows : List (Nat × Nat)) (watermark : Nat) :
    Prop where
  whole : ∀ w ∈ windows, w.2 = window ∧ start ≤ w.1 ∧ w.1 + w.2 ≤ start + depth * window
  earned : windows ≠ [] → base + window ≤ start
  ahead : 0 < window → 0 < depth → base + depth * window ≤ start → start + depth * window < 2 ^ 64 →
    start + (depth - 1) * window < watermark

variable {window depth start count at' base : Nat} {ends : List Nat} {claimed : List (Nat × Nat)}
  {r : ReadAhead}

theorem tracked_fresh (window : Nat) : Tracked window [] [] .fresh :=
  ⟨rfl, rfl, .nil, by simp⟩

theorem wholeWindows_spec (h : at' + count * window ≤ maxU64) :
    (∀ w ∈ (wholeWindows window count at').1,
      w.2 = window ∧ at' ≤ w.1 ∧ w.1 + w.2 ≤ at' + count * window) ∧
    (wholeWindows window count at').1.Pairwise Before ∧
    (wholeWindows window count at').2 = at' + count * window := by
  induction count generalizing at' with
  | zero => simp [wholeWindows]
  | succ count ih =>
    rw [Nat.succ_mul] at h
    have hnext : satAdd at' window = at' + window := Nat.min_eq_left (by omega)
    obtain ⟨hin, hordered, hreached⟩ := @ih (at' + window) (by omega)
    rw [wholeWindows, hnext, Nat.succ_mul]
    refine ⟨?_, ?_, by simp only; omega⟩
    · intro w hw
      rcases List.mem_cons.mp hw with rfl | hw
      · exact ⟨rfl, Nat.le_refl _, by simp only; omega⟩
      · obtain ⟨hlen, hlow, hhigh⟩ := hin w hw
        exact ⟨hlen, by omega, by omega⟩
    · refine List.pairwise_cons.mpr ⟨?_, hordered⟩
      intro w hw
      exact (hin w hw).2.1

theorem le_progressed_iff (hwindow : 0 < window) {k : Nat} (hk : 0 < k) :
    k ≤ (start - base) / window ↔ base + k * window ≤ start := by
  have hpos := Nat.mul_pos hk hwindow
  rw [Nat.le_div_iff_mul_le hwindow]
  omega

theorem target_eq (start window earned : Nat) :
    satAdd start (satMul window earned) = min (start + earned * window) maxU64 := by
  rw [satAdd, satMul, Nat.mul_comm window]
  omega

theorem claimed_spec (hwindow : 0 < window) {first target missing : Nat} (htarget : target ≤ maxU64)
    (hmissing : missing = (target - first) / window) (hsome : missing ≠ 0) :
    (∀ w ∈ (wholeWindows window missing first).1,
      w.2 = window ∧ first ≤ w.1 ∧ w.1 + w.2 ≤ first + missing * window) ∧
    (wholeWindows window missing first).1.Pairwise Before ∧
    (wholeWindows window missing first).2 = first + missing * window ∧
    first + missing * window ≤ target := by
  have hfull : missing * window ≤ target - first := hmissing ▸ Nat.div_mul_le_self _ _
  have hone : window ≤ missing * window := Nat.le_mul_of_pos_left _ (by omega)
  obtain ⟨hin, hordered, hreached⟩ := @wholeWindows_spec window missing first (by omega)
  exact ⟨hin, hordered, hreached, by omega⟩

theorem Tracked.claim (h : Tracked window ends claimed r) (hwindow : 0 < window)
    (start depth : Nat) :
    Tracked window (start :: ends) (claimed ++ (r.claim start window depth).1)
        (r.claim start window depth).2 ∧
      Claims window depth (runStart window (start :: ends)) start (r.claim start window depth).1
        (r.claim start window depth).2.prefetchedTo := by
  have hbase : (if absDiff start r.lastReadEnd > window then start else r.streakBase) =
      runStart window (start :: ends) := by
    rw [runStart, ← h.last, ← h.base]
  unfold ReadAhead.claim
  rw [if_neg (by omega)]
  dsimp only
  rw [hbase, target_eq]
  generalize hrun : runStart window (start :: ends) = base
  have hearned : ∀ k, 0 < k → (k ≤ min ((start - base) / window) depth ↔
      base + k * window ≤ start ∧ k ≤ depth) := by
    intro k hk
    rw [le_min_iff, le_progressed_iff hwindow hk]
  generalize min ((start - base) / window) depth = earned at hearned
  split
  next hzero =>
    refine ⟨⟨hrun.symm, rfl, by simpa using h.ordered, by simpa using h.covered⟩,
      by simp, by simp, ?_⟩
    intro _ hdepth hrunning _
    have := (hearned depth hdepth).mpr ⟨hrunning, Nat.le_refl _⟩
    omega
  next hpos =>
    obtain ⟨hstarted, hle⟩ := (hearned earned (by omega)).mp (Nat.le_refl _)
    have hone : window ≤ earned * window := Nat.le_mul_of_pos_left _ (by omega)
    have hreach : earned * window ≤ depth * window := Nat.mul_le_mul_right _ hle
    -- A run that has made `depth` windows of progress has earned them all.
    have hall : 0 < depth → base + depth * window ≤ start → earned = depth := by
      intro hdepth hrunning
      have := (hearned depth hdepth).mpr ⟨hrunning, Nat.le_refl _⟩
      omega
    generalize hmissing :
        (min (start + earned * window) maxU64 - max r.prefetchedTo start) / window =
      missing
    have hrest : min (start + earned * window) maxU64 - max r.prefetchedTo start <
        missing * window + window := hmissing ▸ Nat.lt_div_mul_add hwindow
    have hahead : 0 < depth → base + depth * window ≤ start → start + depth * window < 2 ^ 64 →
        start + (depth - 1) * window < max r.prefetchedTo start + missing * window := by
      intro hdepth hrunning hbelow
      obtain ⟨d, rfl⟩ := Nat.exists_eq_succ_of_ne_zero (by omega : depth ≠ 0)
      rw [hall hdepth hrunning, Nat.succ_mul] at hrest
      rw [Nat.succ_mul] at hbelow
      simp only [maxU64] at hrest
      show start + d * window < _
      omega
    split
    next hnone =>
      refine ⟨⟨hrun.symm, rfl, by simpa using h.ordered, by simpa using h.covered⟩,
        by simp, by simp, ?_⟩
      intro _ hdepth hrunning hbelow
      have := hahead hdepth hrunning hbelow
      rw [hnone, Nat.zero_mul] at this
      simp only
      omega
    next hsome =>
      obtain ⟨hin, hordered, hreached, htarget⟩ :=
        claimed_spec hwindow (Nat.min_le_right _ _) hmissing.symm hsome
      refine ⟨⟨hrun.symm, rfl, ?_, ?_⟩, ?_, ?_, ?_⟩
      · refine List.pairwise_append.mpr ⟨h.ordered, hordered, ?_⟩
        intro a ha b hb
        have hcovered := h.covered a ha
        have hlow := (hin b hb).2.1
        rw [Before]
        omega
      · intro w hw
        simp only [hreached]
        rcases List.mem_append.mp hw with hold | hnew
        · have hcovered := h.covered w hold
          omega
        · exact (hin w hnew).2.2
      · intro w hw
        obtain ⟨hlen, hlow, hhigh⟩ := hin w hw
        exact ⟨hlen, by omega, by omega⟩
      · intro _
        omega
      · intro _ hdepth hrunning hbelow
        simp only [hreached]
        exact hahead hdepth hrunning hbelow

def HandleTable.readAll (t : HandleTable) (handle window depth : Nat) :
    List Read → List (Nat × Nat) × HandleTable
  | [] => ([], t)
  | r :: rest =>
    let (windows, t) := t.scheduleReadAhead handle window depth r
    let (more, t) := t.readAll handle window depth rest
    (windows ++ more, t)

def HandleTable.watermark (t : HandleTable) (handle : Nat) : Nat :=
  match t.opened[handle]? with
  | some (.file _ ahead) => ahead.prefetchedTo
  | _ => 0

variable {t : HandleTable} {handle : Nat} {path : Path}

theorem scheduleReadAhead_eq (ht : t.opened[handle]? = some (.file path r)) (hwindow : 0 < window)
    (depth : Nat) (read : Read) :
    t.scheduleReadAhead handle window depth read = ((r.claim read.finish window depth).1,
      { t with opened :=
          t.opened.insert handle (.file path (r.claim read.finish window depth).2) }) := by
  rw [HandleTable.scheduleReadAhead, if_neg (by omega), HandleTable.claimReadAhead, ht]

theorem Tracked.readAll (h : Tracked window ends claimed r) (hwindow : 0 < window)
    (ht : t.opened[handle]? = some (.file path r)) (depth : Nat) (reads : List Read) :
    ∃ r', (t.readAll handle window depth reads).2.opened[handle]? = some (.file path r') ∧
      Tracked window ((reads.map Read.finish).reverse ++ ends)
        (claimed ++ (t.readAll handle window depth reads).1) r' := by
  induction reads generalizing t r ends claimed with
  | nil => exact ⟨r, ht, by simpa [HandleTable.readAll] using h⟩
  | cons read rest ih =>
    rw [HandleTable.readAll, scheduleReadAhead_eq ht hwindow]
    have hclaim := (h.claim hwindow read.finish depth).1
    have hinsert : (t.opened.insert handle
        (.file path (r.claim read.finish window depth).2))[handle]? =
        some (.file path (r.claim read.finish window depth).2) := by simp
    obtain ⟨r', hr', htracked⟩ := ih (t := { t with opened := _ }) hclaim hinsert
    refine ⟨r', hr', ?_⟩
    rw [List.map_cons, List.reverse_cons, List.append_assoc, List.singleton_append,
      ← List.append_assoc]
    exact htracked

theorem readAll_of_off (t : HandleTable) (handle depth : Nat) (reads : List Read) :
    t.readAll handle 0 depth reads = ([], t) := by
  induction reads with
  | nil => rfl
  | cons read rest ih =>
    rw [HandleTable.readAll, HandleTable.scheduleReadAhead, if_pos rfl]
    simp only [ih, List.append_nil]

/-- Over all the reads of a handle the claimed windows are disjoint and in order; and each read
claims whole windows within its depth, only in a run that has read a whole window, and enough of
them to keep the watermark ahead. -/
theorem readAhead_claims (t : HandleTable) (path : Path) (window depth : Nat) (reads : List Read)
    (read : Read) :
    let opened := t.openFile path
    let earlier := opened.2.readAll opened.1 window depth reads
    let claim := earlier.2.scheduleReadAhead opened.1 window depth read
    (earlier.1 ++ claim.1).Pairwise Before ∧
      Claims window depth (runStart window ((reads ++ [read]).map Read.finish).reverse) read.finish
        claim.1 (claim.2.watermark opened.1) := by
  intro opened earlier claim
  by_cases hwindow : window = 0
  · subst hwindow
    have hearlier : earlier = ([], opened.2) := readAll_of_off _ _ _ _
    have hclaim : claim = ([], earlier.2) := by
      show HandleTable.scheduleReadAhead _ _ _ _ _ = _
      rw [HandleTable.scheduleReadAhead, if_pos rfl]
    rw [hclaim, hearlier]
    exact ⟨.nil, by simp, by simp, by omega⟩
  · have hopened : opened.2.opened[opened.1]? = some (.file path .fresh) := by
      simp [opened, HandleTable.openFile, HandleTable.insert]
    obtain ⟨r, hr, htracked⟩ :=
      (tracked_fresh window).readAll (by omega) hopened depth reads
    obtain ⟨hnext, hclaims⟩ := htracked.claim (by omega) read.finish depth
    have hclaim : claim = _ := scheduleReadAhead_eq hr (by omega) depth read
    rw [hclaim]
    refine ⟨hnext.ordered, ?_⟩
    simpa [HandleTable.watermark] using hclaims

/-- Near the end of the offsets there is nothing left to warm, and the watermark stays where it is.
-/
theorem readAhead_top : ¬∀ (t : HandleTable) (path : Path) (window depth : Nat) (reads : List Read)
    (read : Read),
    let opened := t.openFile path
    let earlier := opened.2.readAll opened.1 window depth reads
    let claim := earlier.2.scheduleReadAhead opened.1 window depth read
    0 < window → 0 < depth →
      runStart window ((reads ++ [read]).map Read.finish).reverse + depth * window ≤ read.finish →
      read.finish + (depth - 1) * window < claim.2.watermark opened.1 := by
  intro h
  have hlast := h .new [] 1 2 [⟨0xfffffffffffffffd, 0⟩, ⟨0xfffffffffffffffe, 0⟩]
    ⟨0xffffffffffffffff, 0⟩ (by decide) (by decide) (by decide +kernel)
  revert hlast
  decide +kernel

end Dctl.Mount
