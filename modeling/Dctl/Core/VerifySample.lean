import Mathlib.Data.Finset.Sort
import Dctl.Core.Get

/-! The sampled verification (`vault/verify_sample.rs`): the first and the last chunk of an object
and a bounded number of others, read in windows of neighbouring chunks. -/

namespace Dctl.Core

open ProofKit Crypto Object List

variable (L : Libraries)

def verifySampleKeyContext : String := "dctl-core verify-sample chunk selector v1"

def verifySampleDrawFactor : Nat := 8

def verifySampleDrawSlack : Nat := 16

structure SamplePlan where
  samples : UInt32
  seed : UInt64

structure SampledVerify where
  chunksTotal : Nat
  chunksRead : Nat
  seed : UInt64
  deriving DecidableEq

def selectorKey (seed : UInt64) : Key :=
  let hash := L.hash (utf8 verifySampleKeyContext)
  ⟨List.zipWith (· ^^^ ·) (hash.bytes.take 8) (le 8 seed.toNat) ++ hash.bytes.drop 8, by simp⟩

def selector (key : Key) (fileId : FileId) (draw : Nat) : Nat :=
  ofLe ((L.keyedHash key (fileId.bytes ++ le 8 draw)).bytes.take 8).reverse

def drawLoop (pick : Nat → Nat) (want : Nat) : (left draw : Nat) → Finset Nat → Finset Nat
  | 0, _, picked => picked
  | left + 1, draw, picked =>
    if picked.card < want then drawLoop pick want left (draw + 1) (insert (pick draw) picked)
    else picked

def sampleIndices (seed : UInt64) (fileId : FileId) (chunkCount : UInt64) (samples : UInt32) :
    Finset Nat :=
  if chunkCount = 0 then ∅
  else
    let picked : Finset Nat := {0, chunkCount.toNat - 1}
    let key := selectorKey L seed
    -- Neither bound comes near the 64 bits in which the source saturates.
    let want := min (samples.toNat + picked.card) chunkCount.toNat
    let budget := samples.toNat * verifySampleDrawFactor + verifySampleDrawSlack
    drawLoop (fun draw => selector L key fileId draw % chunkCount.toNat) want budget 0 picked

def addPick : List (Nat × Nat) → Nat → List (Nat × Nat)
  | [], index => [(index, 1)]
  | (first, count) :: runs, index =>
    if min (first + count) (2 ^ 64 - 1) = index then (first, count + 1) :: runs
    else (index, 1) :: (first, count) :: runs

def sampleRuns (picks : Finset Nat) : List (Nat × Nat) :=
  ((picks.sort (· ≤ ·)).foldl addPick []).reverse

namespace RangeReader

variable (r : RangeReader) (view : View)

def readChunks (first count : Nat) : Except CoreError (List DecryptedChunk) := do
  let (chunks, _) ← r.readChunksInner L view first count none
  pure chunks

def readRun (start left chunksRead : Nat) : Except CoreError Nat :=
  if _h : 0 < left then do
    let take := min left streamWindowChunks
    let chunks ← r.readChunks L view start take
    readRun (min (start + take) (2 ^ 64 - 1)) (left - take) (chunksRead + chunks.length)
  else pure chunksRead
termination_by left

def readRuns : List (Nat × Nat) → (chunksRead : Nat) → Except CoreError Nat
  | [], chunksRead => pure chunksRead
  | (first, count) :: runs, chunksRead => do
    let chunksRead ← r.readRun L view first count chunksRead
    readRuns runs chunksRead

end RangeReader

def Vault.verifyFileSampled (v : Vault) (view : View) (path : String) (plan : SamplePlan) :
    Except CoreError SampledVerify := do
  let normalized ← ofCrypto (Path.normalize L.toUnicode path)
  let reader ← v.openRangeReader L view normalized
  reader.confirmObjectLength view
  let chunkCount := reader.header.head.chunkCount
  let picks := sampleIndices L plan.seed reader.header.head.fileId chunkCount plan.samples
  let chunksRead ← reader.readRuns L view (sampleRuns picks) 0
  pure { chunksTotal := chunkCount.toNat, chunksRead, seed := plan.seed }

theorem drawLoop_spec (pick : Nat → Nat) (want : Nat) {n : Nat} (hpick : ∀ draw, pick draw < n)
    (left draw : Nat) {picked : Finset Nat} (hpicked : ∀ i ∈ picked, i < n)
    (hcard : picked.card ≤ want) :
    picked ⊆ drawLoop pick want left draw picked ∧
      (∀ i ∈ drawLoop pick want left draw picked, i < n) ∧
      (drawLoop pick want left draw picked).card ≤ want := by
  induction left generalizing draw picked with
  | zero => exact ⟨Finset.Subset.refl _, hpicked, hcard⟩
  | succ left ih =>
    rw [drawLoop]
    split
    next hmore =>
      have hinsert : (insert (pick draw) picked).card ≤ want :=
        (Finset.card_insert_le _ _).trans hmore
      have hrange : ∀ i ∈ insert (pick draw) picked, i < n := by
        intro i hi
        rcases Finset.mem_insert.mp hi with rfl | hi
        · exact hpick draw
        · exact hpicked i hi
      obtain ⟨hsub, hlt, hle⟩ := ih (draw + 1) hrange hinsert
      exact ⟨(Finset.subset_insert _ _).trans hsub, hlt, hle⟩
    next => exact ⟨Finset.Subset.refl _, hpicked, hcard⟩

theorem sampleIndices_spec (seed : UInt64) (fileId : FileId) (chunkCount : UInt64)
    (samples : UInt32) :
    (∀ i ∈ sampleIndices L seed fileId chunkCount samples, i < chunkCount.toNat) ∧
      (0 < chunkCount.toNat → 0 ∈ sampleIndices L seed fileId chunkCount samples ∧
        chunkCount.toNat - 1 ∈ sampleIndices L seed fileId chunkCount samples) ∧
      (sampleIndices L seed fileId chunkCount samples).card ≤
        min chunkCount.toNat (samples.toNat + 2) := by
  rw [sampleIndices]
  split
  next hzero =>
    rw [hzero]
    simp
  next hsome =>
    have hpos : 0 < chunkCount.toNat := by
      rw [Nat.pos_iff_ne_zero]
      exact fun h => hsome (UInt64.toNat_inj.mp h)
    generalize chunkCount.toNat = n at hpos ⊢
    have hends : ∀ i ∈ ({0, n - 1} : Finset Nat), i < n := by
      intro i hi
      rcases Finset.mem_insert.mp hi with rfl | hi
      · exact hpos
      · rw [Finset.mem_singleton.mp hi]
        omega
    have htwo : ({0, n - 1} : Finset Nat).card ≤ 2 := Finset.card_le_two
    have hfew : ({0, n - 1} : Finset Nat).card ≤ n := by
      have hsub : ({0, n - 1} : Finset Nat) ⊆ Finset.range n := fun i hi =>
        Finset.mem_range.mpr (hends i hi)
      simpa using Finset.card_le_card hsub
    obtain ⟨hsub, hlt, hcard⟩ := drawLoop_spec
      (fun draw => selector L (selectorKey L seed) fileId draw % n)
      (min (samples.toNat + ({0, n - 1} : Finset Nat).card) n) (fun draw => Nat.mod_lt _ hpos)
      (samples.toNat * verifySampleDrawFactor + verifySampleDrawSlack) 0 hends (by omega)
    refine ⟨hlt, fun _ => ⟨hsub (by simp), hsub (by simp)⟩, hcard.trans ?_⟩
    omega

/-- The chunks that runs or windows cover, in the order in which they are read. -/
def covered (runs : List (Nat × Nat)) : List Nat := runs.flatMap fun run => List.range' run.1 run.2

/-- The end of a run of chunks is below the number in which the source saturates. -/
def Bounded (runs : List (Nat × Nat)) : Prop := ∀ run ∈ runs, run.1 + run.2 < 2 ^ 64

theorem covered_append (runs runs' : List (Nat × Nat)) :
    covered (runs ++ runs') = covered runs ++ covered runs' := flatMap_append

theorem addPick_spec {runs : List (Nat × Nat)} {index : Nat} (hruns : Bounded runs)
    (hindex : index < 2 ^ 64 - 1) :
    covered (addPick runs index).reverse = covered runs.reverse ++ [index] ∧
      Bounded (addPick runs index) := by
  have hone : covered [(index, 1)] = [index] := rfl
  cases runs with
  | nil => exact ⟨hone, by simp [addPick, Bounded]; omega⟩
  | cons run runs =>
    obtain ⟨first, count⟩ := run
    have hrun : first + count < 2 ^ 64 := hruns _ mem_cons_self
    rw [addPick]
    split
    next hnext =>
      have hnext : first + count = index := by omega
      constructor
      · rw [reverse_cons, reverse_cons, covered_append, covered_append, append_assoc]
        simp [covered, List.range'_concat, hnext]
      · intro run hmem
        rcases mem_cons.mp hmem with rfl | hmem
        · omega
        · exact hruns run (mem_cons_of_mem _ hmem)
    next =>
      constructor
      · rw [reverse_cons, covered_append, hone]
      · intro run hmem
        rcases mem_cons.mp hmem with rfl | hmem
        · omega
        · exact hruns run hmem

theorem foldl_addPick_spec (runs : List (Nat × Nat)) (picks : List Nat) (hruns : Bounded runs)
    (hpicks : ∀ i ∈ picks, i < 2 ^ 64 - 1) :
    covered (picks.foldl addPick runs).reverse = covered runs.reverse ++ picks ∧
      Bounded (picks.foldl addPick runs) := by
  induction picks generalizing runs with
  | nil => exact ⟨(append_nil _).symm, hruns⟩
  | cons i picks ih =>
    obtain ⟨hi, hpicks⟩ := forall_mem_cons.mp hpicks
    obtain ⟨hcovered, hbounded⟩ := addPick_spec hruns hi
    obtain ⟨hrest, hend⟩ := ih _ hbounded hpicks
    exact ⟨by rw [foldl_cons, hrest, hcovered, append_assoc]; rfl, hend⟩

theorem sampleRuns_spec (picks : Finset Nat) (hpicks : ∀ i ∈ picks, i < 2 ^ 64 - 1) :
    covered (sampleRuns picks) = picks.sort (· ≤ ·) ∧ Bounded (sampleRuns picks) := by
  obtain ⟨hcovered, hbounded⟩ := foldl_addPick_spec [] (picks.sort (· ≤ ·))
    (by simp [Bounded]) (by simpa using hpicks)
  exact ⟨hcovered, fun run hrun => hbounded run (mem_reverse.mp hrun)⟩

def windows (first count : Nat) : List (Nat × Nat) :=
  if _h : 0 < count then
    (first, min count streamWindowChunks) ::
      windows (first + min count streamWindowChunks) (count - min count streamWindowChunks)
  else []
termination_by count

def sampleWindows (picks : Finset Nat) : List (Nat × Nat) :=
  (sampleRuns picks).flatMap fun run => windows run.1 run.2

theorem covered_windows (first count : Nat) :
    covered (windows first count) = List.range' first count := by
  induction first, count using windows.induct with
  | case1 first count hpos ih =>
    rw [windows, dif_pos hpos, covered, flatMap_cons, ← covered, ih, List.range'_append_1]
    congr 1
    omega
  | case2 first count hnone =>
    rw [windows, dif_neg hnone, show count = 0 by omega]
    rfl

theorem mem_windows {first count : Nat} {window : Nat × Nat} (h : window ∈ windows first count) :
    0 < window.2 ∧ window.2 ≤ streamWindowChunks := by
  induction first, count using windows.induct with
  | case1 first count hpos ih =>
    rw [windows, dif_pos hpos] at h
    rcases mem_cons.mp h with rfl | h
    · exact ⟨Nat.lt_min.mpr ⟨hpos, by decide⟩, Nat.min_le_right _ _⟩
    · exact ih h
  | case2 first count hnone =>
    rw [windows, dif_neg hnone] at h
    cases h

theorem covered_flatMap_windows (runs : List (Nat × Nat)) :
    covered (runs.flatMap fun run => windows run.1 run.2) = covered runs := by
  induction runs with
  | nil => rfl
  | cons run runs ih =>
    rw [flatMap_cons, covered_append, ih, covered_windows, covered, covered, flatMap_cons]

def RangeReader.readWindows (r : RangeReader) (view : View) (ws : List (Nat × Nat))
    (chunksRead : Nat) : Except CoreError Nat :=
  ws.foldlM (fun n w => do
    let chunks ← r.readChunks L view w.1 w.2
    pure (n + chunks.length)) chunksRead

namespace RangeReader

variable {r : RangeReader} {view : View} {L}

theorem openChunksLoop_collect {P : Primitives} {h : RangeHeader} {ciphertext : Bytes}
    {n index start : Nat} {chunks chunks' : List DecryptedChunk}
    (hloop : h.openChunksLoop P ciphertext
      (fun chunks index plaintext => pure (chunks ++ [{ index, plaintext }])) n index start chunks =
        .ok chunks') :
    chunks'.map DecryptedChunk.index = chunks.map DecryptedChunk.index ++ List.range' index n := by
  induction n generalizing index start chunks with
  | zero =>
    rw [RangeHeader.openChunksLoop, pure_eq_ok] at hloop
    rw [hloop]
    exact (append_nil _).symm
  | succ n ih =>
    simp only [RangeHeader.openChunksLoop, bind_eq_ok, pure_eq_ok] at hloop
    obtain ⟨_, -, plaintext, -, _, rfl, hrest⟩ := hloop
    rw [ih hrest, map_append, append_assoc, List.range'_succ]
    rfl

theorem index_readChunks {first count : Nat} {chunks : List DecryptedChunk}
    (hrange : ∀ i ∈ List.range' first count, i < r.header.head.chunkCount.toNat)
    (hread : r.readChunks L view first count = .ok chunks) :
    chunks.map DecryptedChunk.index = List.range' first count := by
  simp only [readChunks, readChunksInner, bind_eq_ok, ofCrypto_eq_ok, pure_eq_ok,
    Prod.exists] at hread
  obtain ⟨chunks', _, ⟨span, hspan, hinner⟩, rfl⟩ := hread
  by_cases hnone : count = 0
  · rw [RangeHeader.chunkSpan, if_pos (.inr hnone), pure_eq_ok] at hspan
    rw [← hspan, if_pos (show ChunkSpan.empty.chunkCount = 0 from rfl), pure_eq_ok,
      Prod.mk.injEq] at hinner
    rw [← hinner.1, hnone]
    rfl
  · have hlast := hrange (first + count - 1) (mem_range'_1.mpr (by omega))
    obtain ⟨-, rfl⟩ := (RangeHeader.chunkSpan_eq_ok (n := count) (by omega)
      (Nat.pos_of_ne_zero hnone) (by omega)).mp hspan
    rw [if_neg (show (r.header.run first count).chunkCount ≠ 0 from hnone)] at hinner
    simp only [bind_eq_ok, ofCrypto_eq_ok, pure_eq_ok, Prod.mk.injEq] at hinner
    obtain ⟨ct, -, chunks', hopen, rfl, -⟩ := hinner
    simp only [RangeHeader.openChunks, bind_eq_ok] at hopen
    obtain ⟨_, -, hloop⟩ := hopen
    exact openChunksLoop_collect hloop

theorem readRun_eq {start left : Nat} (hend : start + left < 2 ^ 64) (chunksRead : Nat) :
    r.readRun L view start left chunksRead =
      r.readWindows L view (windows start left) chunksRead := by
  induction start, left using windows.induct generalizing chunksRead with
  | case1 start left hpos ih =>
    have hnext : min (start + min left streamWindowChunks) (2 ^ 64 - 1) =
        start + min left streamWindowChunks := by omega
    rw [readRun, dif_pos hpos, windows, dif_pos hpos, readWindows, foldlM_cons, bind_assoc]
    simp only [pure_bind, hnext]
    congr 1
    funext chunks
    exact ih (by omega) _
  | case2 start left hnone =>
    rw [readRun, dif_neg hnone, windows, dif_neg hnone]
    rfl

theorem readRuns_eq {runs : List (Nat × Nat)} (hruns : Bounded runs) (chunksRead : Nat) :
    r.readRuns L view runs chunksRead =
      r.readWindows L view (runs.flatMap fun run => windows run.1 run.2) chunksRead := by
  induction runs generalizing chunksRead with
  | nil => rfl
  | cons run runs ih =>
    obtain ⟨first, count⟩ := run
    obtain ⟨hrun, hruns⟩ := forall_mem_cons.mp hruns
    rw [readRuns, readRun_eq hrun, flatMap_cons, readWindows, readWindows, foldlM_append]
    congr 1
    funext n
    exact ih hruns n

theorem readWindows_eq {ws : List (Nat × Nat)}
    (hws : ∀ i ∈ covered ws, i < r.header.head.chunkCount.toNat) (chunksRead : Nat) :
    r.readWindows L view ws chunksRead = (do
      let _ ← ws.mapM fun w => r.readChunks L view w.1 w.2
      pure (chunksRead + (covered ws).length)) := by
  induction ws generalizing chunksRead with
  | nil => rfl
  | cons w ws ih =>
    obtain ⟨first, count⟩ := w
    rw [covered, flatMap_cons, ← covered] at hws ⊢
    rw [readWindows, foldlM_cons, mapM_cons]
    cases hread : r.readChunks L view first count with
    | error e => rfl
    | ok chunks =>
      have hlen := congrArg List.length
        (index_readChunks (fun i hi => hws i (mem_append_left _ hi)) hread)
      rw [length_map, length_range'] at hlen
      have hrest := ih (fun i hi => hws i (mem_append_right _ hi)) (chunksRead + count)
      rw [readWindows] at hrest
      simp only [ok_bind, pure_bind, bind_assoc, length_append, length_range', hlen]
      rw [← Nat.add_assoc]
      exact hrest

end RangeReader

theorem sampleWindows_spec {picks : Finset Nat} {n : UInt64} (hpicks : ∀ i ∈ picks, i < n.toNat) :
    covered (sampleWindows picks) = picks.sort (· ≤ ·) ∧
      ∀ w ∈ sampleWindows picks, 0 < w.2 ∧ w.2 ≤ streamWindowChunks := by
  have hn := n.toNat_lt
  have hruns := sampleRuns_spec picks fun i hi => by
    have := hpicks i hi
    omega
  refine ⟨by rw [sampleWindows, covered_flatMap_windows, hruns.1], fun w hw => ?_⟩
  obtain ⟨run, -, hw⟩ := mem_flatMap.mp hw
  exact mem_windows hw

/-- The sampled verification reads the windows of its picks and nothing else, and if all of them can
be read it reports as many chunks as it picked.  The picks are in range, have both ends of the
object among them, and are no more than were asked for. -/
theorem verifyFileSampled_reads (v : Vault) (view : View) (path : String) (plan : SamplePlan) :
    (∀ fileId chunkCount, let picks := sampleIndices L plan.seed fileId chunkCount plan.samples
      (∀ i ∈ picks, i < chunkCount.toNat) ∧
      (0 < chunkCount.toNat → 0 ∈ picks ∧ chunkCount.toNat - 1 ∈ picks) ∧
      picks.card ≤ min chunkCount.toNat (plan.samples.toNat + 2) ∧
      covered (sampleWindows picks) = picks.sort (· ≤ ·) ∧
      ∀ w ∈ sampleWindows picks, 0 < w.2 ∧ w.2 ≤ streamWindowChunks) ∧
    v.verifyFileSampled L view path plan = (do
      let normalized ← ofCrypto (Path.normalize L.toUnicode path)
      let reader ← v.openRangeReader L view normalized
      reader.confirmObjectLength view
      let head := reader.header.head
      let picks := sampleIndices L plan.seed head.fileId head.chunkCount plan.samples
      let _ ← (sampleWindows picks).mapM fun w => reader.readChunks L view w.1 w.2
      pure { chunksTotal := head.chunkCount.toNat, chunksRead := picks.card,
             seed := plan.seed }) := by
  refine ⟨fun fileId chunkCount => ?_, ?_⟩
  · obtain ⟨hlt, hends, hcard⟩ := sampleIndices_spec L plan.seed fileId chunkCount plan.samples
    exact ⟨hlt, hends, hcard, sampleWindows_spec hlt⟩
  · rw [Vault.verifyFileSampled]
    congr 1
    funext normalized
    congr 1
    funext reader
    congr 1
    funext _
    simp only
    have hlt := (sampleIndices_spec L plan.seed reader.header.head.fileId
      reader.header.head.chunkCount plan.samples).1
    generalize sampleIndices L plan.seed reader.header.head.fileId
      reader.header.head.chunkCount plan.samples = picks at hlt ⊢
    have hcovered := (sampleWindows_spec hlt).1
    have hn := reader.header.head.chunkCount.toNat_lt
    have hruns := sampleRuns_spec picks fun i hi => by
      have := hlt i hi
      omega
    rw [RangeReader.readRuns_eq hruns.2, ← sampleWindows, RangeReader.readWindows_eq, hcovered]
    · simp only [bind_assoc, pure_bind, Finset.length_sort, Nat.zero_add]
    · intro i hi
      rw [hcovered, Finset.mem_sort] at hi
      exact hlt i hi

end Dctl.Core
