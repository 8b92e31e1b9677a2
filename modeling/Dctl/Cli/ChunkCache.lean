import Dctl.Crypto.Basic
import Dctl.ProofKit.Recency

/-! The cache of decrypted chunks and open readers (`source/chunk_cache.rs`), as a list in the order
of last use that sheds what is over its budget.  The chunks in flight play no part in what is
kept. -/

namespace Dctl.Cli

open Std (TransOrd TransCmp LawfulEqOrd)
open ProofKit Recency Crypto List

@[simp, reducible] def vaultChunkCacheBytes : Nat := 16 * 1024 * 1024
@[simp, reducible] def vaultChunkCacheMaxChunks : Nat := 256
@[simp, reducible] def vaultRangeReaderCacheMax : Nat := 64

structure ChunkKey where
  fileId : FileId
  index : Nat
  deriving DecidableEq

instance : Ord ChunkKey := ⟨compareLex (compareOn ChunkKey.fileId) (compareOn ChunkKey.index)⟩

instance : TransOrd ChunkKey :=
  inferInstanceAs (TransCmp (compareLex (compareOn ChunkKey.fileId) (compareOn ChunkKey.index)))

instance : LawfulEqOrd ChunkKey where
  eq_of_compare {a b} h := by
    simp only [compare, compareLex_eq_eq, compareOn] at h
    cases a
    cases b
    obtain ⟨hid, hindex⟩ := h
    rw [ChunkKey.mk.injEq]
    exact ⟨LawfulEqOrd.eq_of_compare hid, LawfulEqOrd.eq_of_compare hindex⟩

namespace ChunkCache

/-- The interior of the cache.  Of a reader it holds the id of the object it reads. -/
structure State where
  readers : Table String (Held FileId)
  chunks : Table ChunkKey (Held Bytes)
  bytes : Nat
  budgetBytes : Nat
  budgetChunks : Nat
  tick : Nat

namespace State

def new : State where
  readers := ∅
  chunks := ∅
  bytes := 0
  budgetBytes := vaultChunkCacheBytes
  budgetChunks := vaultChunkCacheMaxChunks
  tick := 0

def stamp (s : State) : State := { s with tick := (s.tick + 1) % 2 ^ 64 }

def takeChunk (s : State) (key : ChunkKey) : Option Bytes × State :=
  let s := s.stamp
  match s.chunks[key]? with
  | none => (none, s)
  | some held =>
    (some held.value, { s with chunks := s.chunks.insert key { held with used := s.tick } })

def exceeds (s : State) (bytes count : Nat) : Bool :=
  s.budgetBytes < bytes || s.budgetChunks < count

def storeChunk (s : State) (key : ChunkKey) (chunk : Bytes) : State :=
  let s := s.stamp
  let bytes := match s.chunks[key]? with
    | some previous => s.bytes - previous.value.length
    | none => s.bytes
  let chunks := s.chunks.insert key ⟨chunk, s.tick⟩
  -- `saturating_add` of a `usize`.
  let bytes := min (bytes + chunk.length) (2 ^ 64 - 1)
  let (chunks, bytes) := evict List.length s.exceeds chunks.size (chunks, bytes)
  { s with chunks, bytes }

def takeReader (s : State) (path : String) : Option FileId × State :=
  let s := s.stamp
  match s.readers[path]? with
  | none => (none, s)
  | some held =>
    (some held.value, { s with readers := s.readers.insert path { held with used := s.tick } })

def forgetReader (s : State) (path : String) : State :=
  match s.readers[path]? with
  | none => s
  | some stale =>
    let fileId := stale.value
    let gone : ChunkKey → Held Bytes → Nat :=
      fun key held => if key.fileId = fileId then held.value.length else 0
    { s with
      readers := s.readers.erase path
      chunks := s.chunks.filter fun key _ => key.fileId ≠ fileId
      bytes := s.bytes - s.chunks.sum gone }

def storeReader (s : State) (path : String) (reader : FileId) : State :=
  let s := s.stamp
  let readers := s.readers.insert path ⟨reader, s.tick⟩
  let (readers, _) := evict (fun _ => 0) (fun _ count => vaultRangeReaderCacheMax < count)
    readers.size (readers, 0)
  { s with readers }

def setBudget (s : State) (bytes maxChunks : Nat) : State :=
  { s with
    budgetBytes := max bytes vaultChunkCacheBytes
    budgetChunks := max maxChunks vaultChunkCacheMaxChunks }

end State

/-- What the cache is asked to do under its lock. -/
inductive Op where
  | storeChunk (key : ChunkKey) (chunk : Bytes)
  | takeChunk (key : ChunkKey)
  | storeReader (path : String) (reader : FileId)
  | takeReader (path : String)
  | forgetReader (path : String)
  | setBudget (bytes maxChunks : Nat)

def State.step (s : State) : Op → State
  | .storeChunk key chunk => s.storeChunk key chunk
  | .takeChunk key => (s.takeChunk key).2
  | .storeReader path reader => s.storeReader path reader
  | .takeReader path => (s.takeReader path).2
  | .forgetReader path => s.forgetReader path
  | .setBudget bytes maxChunks => s.setBudget bytes maxChunks

/-- A cache without stamps or counters: the entries used longest ago come first. -/
structure Lru where
  readers : List (String × FileId)
  chunks : List (ChunkKey × Bytes)
  budgetBytes : Nat
  budgetChunks : Nat

namespace Lru

def new : Lru where
  readers := []
  chunks := []
  budgetBytes := vaultChunkCacheBytes
  budgetChunks := vaultChunkCacheMaxChunks

def exceeds (l : Lru) (chunks : List (ChunkKey × Bytes)) : Bool :=
  l.budgetBytes < total List.length chunks || l.budgetChunks < chunks.length

def step (l : Lru) : Op → Lru
  | .storeChunk key chunk => { l with chunks := shed l.exceeds (put key chunk l.chunks) }
  | .takeChunk key => { l with chunks := touch key l.chunks }
  | .storeReader path reader =>
    { l with
      readers := shed (fun r => vaultRangeReaderCacheMax < r.length) (put path reader l.readers) }
  | .takeReader path => { l with readers := touch path l.readers }
  | .forgetReader path =>
    match get path l.readers with
    | none => l
    | some fileId =>
      { l with
        readers := without path l.readers
        chunks := l.chunks.filter fun e => e.1.fileId ≠ fileId }
  | .setBudget bytes maxChunks =>
    { l with
      budgetBytes := max bytes vaultChunkCacheBytes
      budgetChunks := max maxChunks vaultChunkCacheMaxChunks }

end Lru

/-- The state stands for the cache, with exact counters. -/
structure State.Refines (s : State) (l : Lru) : Prop where
  readers : Stands s.readers s.tick l.readers
  chunks : Stands s.chunks s.tick l.chunks
  bytes : s.bytes = total List.length l.chunks
  budgetBytes : s.budgetBytes = l.budgetBytes
  budgetChunks : s.budgetChunks = l.budgetChunks

/-- The recency clock does not wrap, and the bytes that are held with a new chunk fit a `usize`. -/
def State.Fits (s : State) : Op → Prop
  | .storeChunk _ chunk => s.tick + 1 < 2 ^ 64 ∧ s.bytes + chunk.length < 2 ^ 64
  | .takeChunk _ => s.tick + 1 < 2 ^ 64
  | .storeReader _ _ => s.tick + 1 < 2 ^ 64
  | .takeReader _ => s.tick + 1 < 2 ^ 64
  | .forgetReader _ => True
  | .setBudget _ _ => True

instance (s : State) : (op : Op) → Decidable (s.Fits op)
  | .storeChunk _ _ => inferInstanceAs (Decidable (_ ∧ _))
  | .takeChunk _ => inferInstanceAs (Decidable (_ < _))
  | .storeReader _ _ => inferInstanceAs (Decidable (_ < _))
  | .takeReader _ => inferInstanceAs (Decidable (_ < _))
  | .forgetReader _ => inferInstanceAs (Decidable True)
  | .setBudget _ _ => inferInstanceAs (Decidable True)

namespace State

variable {s : State} {l : Lru}

theorem refines_new : new.Refines Lru.new := ⟨stands_empty, stands_empty, rfl, rfl, rfl⟩

theorem tick_stamp (h : s.tick + 1 < 2 ^ 64) : s.stamp.tick = s.tick + 1 := Nat.mod_eq_of_lt h

theorem lt_tick_stamp (h : s.tick + 1 < 2 ^ 64) : s.tick < s.stamp.tick := by
  rw [tick_stamp h]
  exact Nat.lt_succ_self _

theorem Refines.stamp (h : s.Refines l) (htick : s.tick + 1 < 2 ^ 64) : s.stamp.Refines l :=
  ⟨h.readers.mono (lt_tick_stamp htick).le, h.chunks.mono (lt_tick_stamp htick).le, h.bytes,
    h.budgetBytes, h.budgetChunks⟩

theorem Refines.exceeds_eq (h : s.Refines l) :
    (fun chunks : List (ChunkKey × Bytes) => s.exceeds (total List.length chunks) chunks.length) =
      l.exceeds := by
  funext chunks
  rw [State.exceeds, Lru.exceeds, h.budgetBytes, h.budgetChunks]

section

variable (h : s.Refines l) (htick : s.tick + 1 < 2 ^ 64)
include h htick

theorem Refines.takeChunk (key : ChunkKey) :
    (s.takeChunk key).2.Refines (l.step (.takeChunk key)) := by
  have hstamp := h.stamp htick
  have htouch := h.chunks.touch key (lt_tick_stamp htick)
  have hbytes : total List.length (touch key l.chunks) = total List.length l.chunks := by
    rw [touch]
    cases hget : get key l.chunks with
    | none => rfl
    | some chunk =>
      have hput := h.chunks.total_put List.length key chunk
      rw [hget] at hput
      simp only [Option.map_some, Option.getD_some] at hput
      show total List.length (put key chunk l.chunks) = _
      omega
  unfold State.takeChunk
  have hrow : s.stamp.chunks[key]? = s.chunks[key]? := rfl
  cases hget : s.chunks[key]? with
  | none =>
    rw [hget] at htouch hrow
    simp only [hrow]
    exact ⟨hstamp.readers, htouch, h.bytes.trans hbytes.symm, h.budgetBytes, h.budgetChunks⟩
  | some held =>
    rw [hget] at htouch hrow
    simp only [hrow]
    exact ⟨hstamp.readers, htouch, h.bytes.trans hbytes.symm, h.budgetBytes, h.budgetChunks⟩

theorem Refines.takeReader (path : String) :
    (s.takeReader path).2.Refines (l.step (.takeReader path)) := by
  have hstamp := h.stamp htick
  have htouch := h.readers.touch path (lt_tick_stamp htick)
  unfold State.takeReader
  have hrow : s.stamp.readers[path]? = s.readers[path]? := rfl
  cases hget : s.readers[path]? with
  | none =>
    rw [hget] at htouch hrow
    simp only [hrow]
    exact ⟨htouch, hstamp.chunks, h.bytes, h.budgetBytes, h.budgetChunks⟩
  | some held =>
    rw [hget] at htouch hrow
    simp only [hrow]
    exact ⟨htouch, hstamp.chunks, h.bytes, h.budgetBytes, h.budgetChunks⟩

theorem Refines.storeReader (path : String) (reader : FileId) :
    (s.storeReader path reader).Refines (l.step (.storeReader path reader)) := by
  have hstamp := h.stamp htick
  have hput := h.readers.put path reader (lt_tick_stamp htick)
  have hnothing : total (fun _ => 0) (put path reader l.readers) = 0 := by simp [total]
  obtain ⟨readers, hevict, hreaders⟩ := hput.evict (fun _ => 0)
    fun _ count => vaultRangeReaderCacheMax < count
  rw [hnothing] at hevict
  unfold State.storeReader
  have hrows : s.stamp.readers = s.readers := rfl
  simp only [hrows, hevict]
  exact ⟨hreaders, hstamp.chunks, h.bytes, h.budgetBytes, h.budgetChunks⟩

theorem Refines.storeChunk (key : ChunkKey) (chunk : Bytes)
    (hroom : s.bytes + chunk.length < 2 ^ 64) :
    (s.storeChunk key chunk).Refines (l.step (.storeChunk key chunk)) := by
  have hstamp := h.stamp htick
  have hput := h.chunks.put key chunk (lt_tick_stamp htick)
  have htotal := h.chunks.total_put List.length key chunk
  have hbytes := h.bytes
  obtain ⟨chunks, hevict, hchunks⟩ := hput.evict List.length s.exceeds
  rw [h.exceeds_eq] at hevict hchunks
  have hcount : min ((match s.chunks[key]? with
      | some previous => s.bytes - previous.value.length
      | none => s.bytes) + chunk.length) (2 ^ 64 - 1) =
        total List.length (put key chunk l.chunks) := by
    rw [h.chunks.get] at htotal
    cases hrow : s.chunks[key]? with
    | none =>
      rw [hrow] at htotal
      simp only [Option.map_none, Option.getD_none] at htotal
      show min (s.bytes + chunk.length) (2 ^ 64 - 1) = _
      omega
    | some previous =>
      rw [hrow] at htotal
      simp only [Option.map_some, Option.getD_some] at htotal
      show min (s.bytes - previous.value.length + chunk.length) (2 ^ 64 - 1) = _
      omega
  unfold State.storeChunk
  have hrows : s.stamp.chunks = s.chunks := rfl
  have hover : s.stamp.exceeds = s.exceeds := rfl
  have hold : s.stamp.bytes = s.bytes := rfl
  simp only [hrows, hover, hold, hcount, hevict]
  exact ⟨hstamp.readers, hchunks, rfl, h.budgetBytes, h.budgetChunks⟩

end

theorem total_filter (fileId : FileId) (chunks : List (ChunkKey × Bytes)) :
    total List.length (chunks.filter fun e => e.1.fileId ≠ fileId) +
      (chunks.map fun e => if e.1.fileId = fileId then e.2.length else 0).sum =
        total List.length chunks := by
  induction chunks with
  | nil => rfl
  | cons e rest ih =>
    simp only [total, map_cons, sum_cons] at ih ⊢
    by_cases he : e.1.fileId = fileId
    · rw [filter_cons_of_neg (by simpa using he), if_pos he]
      omega
    · rw [filter_cons_of_pos (by simpa using he), if_neg he, map_cons, sum_cons]
      omega

theorem Refines.forgetReader (h : s.Refines l) (path : String) :
    (s.forgetReader path).Refines (l.step (.forgetReader path)) := by
  have hget := h.readers.get path
  unfold State.forgetReader Lru.step
  cases hrow : s.readers[path]? with
  | none =>
    rw [hrow, Option.map_none] at hget
    simp only [hget]
    exact h
  | some stale =>
    rw [hrow, Option.map_some] at hget
    simp only [hget]
    have hgone := h.chunks.sum fun key chunk => if key.fileId = stale.value then chunk.length else 0
    have hkept := total_filter stale.value l.chunks
    have hbytes := h.bytes
    refine ⟨h.readers.erase path, h.chunks.filter fun key => key.fileId ≠ stale.value, ?_,
      h.budgetBytes, h.budgetChunks⟩
    rw [hgone]
    show s.bytes - _ = total List.length (l.chunks.filter fun e => e.1.fileId ≠ stale.value)
    omega

theorem Refines.setBudget (h : s.Refines l) (bytes maxChunks : Nat) :
    (s.setBudget bytes maxChunks).Refines (l.step (.setBudget bytes maxChunks)) :=
  ⟨h.readers, h.chunks, h.bytes, rfl, rfl⟩

theorem Refines.step (h : s.Refines l) {op : Op} (hfits : s.Fits op) :
    (s.step op).Refines (l.step op) := by
  cases op with
  | storeChunk key chunk => exact h.storeChunk hfits.1 key chunk hfits.2
  | takeChunk key => exact h.takeChunk hfits key
  | storeReader path reader => exact h.storeReader hfits path reader
  | takeReader path => exact h.takeReader hfits path
  | forgetReader path => exact h.forgetReader path
  | setBudget bytes maxChunks => exact h.setBudget bytes maxChunks

/-- A budget change does not go below the bytes that are held. -/
def Raises (s : State) : Op → Prop
  | .setBudget bytes _ => s.bytes ≤ max bytes vaultChunkCacheBytes
  | _ => True

instance (s : State) : (op : Op) → Decidable (s.Raises op)
  | .setBudget _ _ => inferInstanceAs (Decidable (_ ≤ _))
  | .storeChunk _ _ => inferInstanceAs (Decidable True)
  | .takeChunk _ => inferInstanceAs (Decidable True)
  | .storeReader _ _ => inferInstanceAs (Decidable True)
  | .takeReader _ => inferInstanceAs (Decidable True)
  | .forgetReader _ => inferInstanceAs (Decidable True)

theorem budget_takeChunk (s : State) (key : ChunkKey) : (s.takeChunk key).2.bytes = s.bytes ∧
    (s.takeChunk key).2.budgetBytes = s.budgetBytes := by
  unfold State.takeChunk
  cases h : s.stamp.chunks[key]? <;> simp only [h] <;> exact ⟨rfl, rfl⟩

theorem budget_takeReader (s : State) (path : String) : (s.takeReader path).2.bytes = s.bytes ∧
    (s.takeReader path).2.budgetBytes = s.budgetBytes := by
  unfold State.takeReader
  cases h : s.stamp.readers[path]? <;> simp only [h] <;> exact ⟨rfl, rfl⟩

theorem budget_forgetReader (s : State) (path : String) : (s.forgetReader path).bytes ≤ s.bytes ∧
    (s.forgetReader path).budgetBytes = s.budgetBytes := by
  unfold State.forgetReader
  cases s.readers[path]? with
  | none => exact ⟨le_refl _, rfl⟩
  | some stale => exact ⟨Nat.sub_le _ _, rfl⟩

theorem Refines.within_step_iff (h : s.Refines l) {op : Op} (hfits : s.Fits op)
    (hwithin : s.bytes ≤ s.budgetBytes) :
    (s.step op).bytes ≤ (s.step op).budgetBytes ↔ s.Raises op := by
  cases op with
  | storeChunk key chunk =>
    have hstep := h.step hfits
    have hnil : l.exceeds [] = false := by simp [Lru.exceeds, total]
    have hshed := not_exceeds_shed l.exceeds (put key chunk l.chunks) hnil
    simp only [Lru.exceeds, Bool.or_eq_false_iff, decide_eq_false_iff_not, Nat.not_lt] at hshed
    rw [hstep.bytes, hstep.budgetBytes]
    exact iff_of_true hshed.1 trivial
  | takeChunk key =>
    obtain ⟨hbytes, hbudget⟩ := s.budget_takeChunk key
    refine iff_of_true ?_ trivial
    rw [State.step, hbytes, hbudget]
    exact hwithin
  | storeReader path reader => exact iff_of_true hwithin trivial
  | takeReader path =>
    obtain ⟨hbytes, hbudget⟩ := s.budget_takeReader path
    refine iff_of_true ?_ trivial
    rw [State.step, hbytes, hbudget]
    exact hwithin
  | forgetReader path =>
    obtain ⟨hbytes, hbudget⟩ := s.budget_forgetReader path
    refine iff_of_true ?_ trivial
    rw [State.step, hbudget]
    exact hbytes.trans hwithin
  | setBudget bytes maxChunks => exact Iff.rfl

end State

/-- The cache holds what the least-recently-used list holds, and its bytes are theirs and within the
budget. -/
structure Accurate (s : State) (l : Lru) : Prop where
  bytes : s.bytes = Table.sum (fun _ (held : Held Bytes) => held.value.length) s.chunks
  within : s.bytes ≤ s.budgetBytes
  entry : ∀ (key : ChunkKey) (held : Held Bytes), s.chunks[key]? = some held →
    held.value.length ≤ s.budgetBytes
  entries : ∀ key : ChunkKey, s.chunks[key]?.map Held.value = get key l.chunks
  nodup : (l.chunks.map Prod.fst).Nodup

/-- An insertion evicts the entries used longest ago, and not one more than it has to. -/
def Evicts (s : State) (l : Lru) : Op → Prop
  | .storeChunk key chunk => ∃ n,
      (∀ k, (s.storeChunk key chunk).chunks[k]?.map Held.value =
        get k ((put key chunk l.chunks).drop n)) ∧
      ∀ m < n, s.exceeds (total List.length ((put key chunk l.chunks).drop m))
        ((put key chunk l.chunks).drop m).length = true
  | _ => True

/-- The cache and the list agree before and after every operation, and evict the same. -/
def Keeps : State → Lru → List Op → Prop
  | s, l, [] => Accurate s l
  | s, l, op :: ops => Accurate s l ∧ Evicts s l op ∧ Keeps (s.step op) (l.step op) ops

/-- Every operation of a history has a property in the state that it meets. -/
def EachStep (p : State → Op → Prop) : State → List Op → Prop
  | _, [] => True
  | s, op :: ops => p s op ∧ EachStep p (s.step op) ops

instance decidableEachStep (p : State → Op → Prop) [∀ s op, Decidable (p s op)] :
    (s : State) → (ops : List Op) → Decidable (EachStep p s ops)
  | _, [] => inferInstanceAs (Decidable True)
  | s, op :: ops =>
    have := decidableEachStep p (s.step op) ops
    inferInstanceAs (Decidable (p s op ∧ EachStep p (s.step op) ops))

variable {s : State} {l : Lru}

theorem accurate_of_refines (h : s.Refines l) (hwithin : s.bytes ≤ s.budgetBytes) :
    Accurate s l := by
  have hsum : Table.sum (fun _ (held : Held Bytes) => held.value.length) s.chunks =
      total List.length l.chunks :=
    h.chunks.sum fun _ chunk => chunk.length
  refine ⟨h.bytes.trans hsum.symm, hwithin, ?_, fun key => (h.chunks.get key).symm, h.chunks.nodup⟩
  intro key held hrow
  have herase := Table.sum_erase (f := fun _ (held : Held Bytes) => held.value.length) hrow
  have hbytes := h.bytes
  omega

theorem evicts_of_refines (h : s.Refines l) {op : Op} (hfits : s.Fits op) : Evicts s l op := by
  cases op with
  | storeChunk key chunk =>
    obtain ⟨n, hdrop, hover⟩ := shed_eq_drop l.exceeds (put key chunk l.chunks)
    have hstep := (h.step hfits).chunks
    refine ⟨n, fun k => ?_, ?_⟩
    · rw [← hdrop]
      exact (hstep.get k).symm
    · rw [← h.exceeds_eq] at hover
      exact hover
  | _ => trivial

theorem Keeps.accurate {ops : List Op} (h : Keeps s l ops) : Accurate s l := by
  cases ops with
  | nil => exact h
  | cons op ops => exact h.1

theorem keeps_iff_of_refines {ops : List Op} (h : s.Refines l) (hwithin : s.bytes ≤ s.budgetBytes)
    (hfits : EachStep State.Fits s ops) : Keeps s l ops ↔ EachStep State.Raises s ops := by
  induction ops generalizing s l with
  | nil => exact iff_of_true (accurate_of_refines h hwithin) trivial
  | cons op ops ih =>
    obtain ⟨hop, hops⟩ := hfits
    have hiff := h.within_step_iff hop hwithin
    constructor
    · rintro ⟨-, -, hrest⟩
      have hwithin' := hrest.accurate.within
      exact ⟨hiff.mp hwithin', (ih (h.step hop) hwithin' hops).mp hrest⟩
    · rintro ⟨hraises, hrest⟩
      have hwithin' := hiff.mpr hraises
      exact ⟨accurate_of_refines h hwithin, evicts_of_refines h hop,
        (ih (h.step hop) hwithin' hops).mpr hrest⟩

/-- A history of the cache, from empty, is right throughout exactly if no budget change goes below
the bytes that are held when it is made. -/
theorem keeps_iff_raises {ops : List Op} (hfits : EachStep State.Fits State.new ops) :
    Keeps State.new Lru.new ops ↔ EachStep State.Raises State.new ops :=
  keeps_iff_of_refines State.refines_new (Nat.zero_le _) hfits

theorem keeps_iff_raises_stored : Keeps State.new Lru.new
    [.storeChunk ⟨default, 0⟩ [1, 2], .storeChunk ⟨default, 0⟩ [3], .takeChunk ⟨default, 0⟩,
      .setBudget (2 * vaultChunkCacheBytes) 0] := by
  exact (keeps_iff_raises (by decide +kernel)).mpr (by decide +kernel)

def loweredHistory (chunk : Bytes) : List Op :=
  [.setBudget (vaultChunkCacheBytes + 1) 0, .storeChunk ⟨default, 0⟩ chunk, .setBudget 0 0]

/-- A budget lowered below what is stored takes nothing out of the cache. -/
theorem lowered_budget_exceeded :
    EachStep State.Fits State.new
        (loweredHistory (List.replicate (vaultChunkCacheBytes + 1) 0)) ∧
      ¬Keeps State.new Lru.new (loweredHistory (List.replicate (vaultChunkCacheBytes + 1) 0)) := by
  have hlen : (List.replicate (vaultChunkCacheBytes + 1) (0 : UInt8)).length =
      vaultChunkCacheBytes + 1 := length_replicate
  generalize List.replicate (vaultChunkCacheBytes + 1) (0 : UInt8) = chunk at hlen
  have hraised : (State.new.step (.setBudget (vaultChunkCacheBytes + 1) 0)).Refines
      (Lru.new.step (.setBudget (vaultChunkCacheBytes + 1) 0)) := State.refines_new.step trivial
  have hfits : (State.new.step (.setBudget (vaultChunkCacheBytes + 1) 0)).Fits
      (.storeChunk ⟨default, 0⟩ chunk) := by
    refine ⟨by decide, ?_⟩
    rw [hlen]
    decide
  have hstored := (hraised.step hfits).bytes
  have hchunks : ((Lru.new.step (.setBudget (vaultChunkCacheBytes + 1) 0)).step
      (.storeChunk ⟨default, 0⟩ chunk)).chunks = [(⟨default, 0⟩, chunk)] := by
    simp [Lru.step, Lru.new, Lru.exceeds, put, without, shed, total, hlen]
  have hall : EachStep State.Fits State.new (loweredHistory chunk) :=
    ⟨trivial, hfits, trivial, trivial⟩
  refine ⟨hall, ?_⟩
  rw [keeps_iff_of_refines State.refines_new (Nat.zero_le _) hall]
  rintro ⟨-, -, hlowered, -⟩
  rw [hchunks] at hstored
  simp only [State.Raises, hstored, total, map_cons, map_nil, sum_cons, sum_nil,
    hlen] at hlowered
  omega

end ChunkCache

end Dctl.Cli
