import Mathlib.Data.Set.Lattice
import Dctl.Object.Range

/-! A ranged read returns exactly the window it was asked for, from exactly the chunks that cover
it. -/

namespace Dctl.Object

open ProofKit Crypto List

variable {P : Primitives}

def window (plaintext : Bytes) (offset : Nat) (length : Option Nat) : Bytes :=
  match length with
  | some len => (plaintext.drop offset).take len
  | none => plaintext.drop offset

theorem windowStep_eq (span : ChunkSpan) (out plaintext : Bytes) (seen : Nat)
    (hsum : span.windowOffset + span.windowLen < 2 ^ 64) :
    RangeHeader.windowStep span (out, seen) plaintext =
      (out ++ (plaintext.take (span.windowOffset + span.windowLen - seen)).drop
        (span.windowOffset - seen), seen + plaintext.length) := by
  simp only [RangeHeader.windowStep, Prod.mk.injEq, and_true]
  rw [Nat.min_eq_left (show span.windowOffset + span.windowLen ≤ 2 ^ 64 - 1 by omega)]
  have htake : plaintext.take (min (span.windowOffset + span.windowLen - seen) plaintext.length) =
      plaintext.take (span.windowOffset + span.windowLen - seen) := by
    rw [← take_take, take_length]
  rw [htake]
  split
  next hlt =>
    rw [Nat.min_eq_left (by omega)]
  next hge =>
    rw [drop_of_length_le, append_nil]
    rw [length_take]
    omega

theorem foldl_windowStep (span : ChunkSpan) (hsum : span.windowOffset + span.windowLen < 2 ^ 64)
    (pts : List Bytes) (out : Bytes) (seen : Nat) :
    pts.foldl (RangeHeader.windowStep span) (out, seen) =
      (out ++ (pts.flatten.take (span.windowOffset + span.windowLen - seen)).drop
        (span.windowOffset - seen), seen + pts.flatten.length) := by
  induction pts generalizing out seen with
  | nil => simp
  | cons pt pts ih =>
    rw [foldl_cons, windowStep_eq span out pt seen hsum, ih]
    generalize span.windowOffset = o
    generalize o + span.windowLen = w
    rw [flatten_cons, take_append, drop_append, length_append, append_assoc,
      Nat.add_assoc, Nat.sub_sub, Nat.sub_sub]
    -- Past the end of the window nothing is taken, wherever the rest of it would start.
    rcases Nat.lt_or_ge (w - seen) pt.length with hlt | hge
    · simp [show w - (seen + pt.length) = 0 by omega]
    · rw [length_take, Nat.min_eq_right hge]

theorem emitAll_pure {σ : Type} (step : σ → Bytes → σ) (index : Nat) (pts : List Bytes) (s : σ) :
    emitAll (fun s _ plaintext => pure (step s plaintext)) index pts s =
      .ok (pts.foldl step s) := by
  induction pts generalizing index s with
  | nil => rfl
  | cons pt pts ih =>
    simp only [emitAll, zipIdx_cons, foldlM_cons, pure_bind, foldl_cons]
    exact ih (index + 1) (step s pt)

/-- The header a ranged reader decoded is the one in front of the frame. -/
structure RangeHeader.Describes (r : RangeHeader) (f : Frame) (dek : Key) : Prop where
  head : r.head = f.head
  headBytes : r.headBytes = buildHead r.head
  dek : r.dek = dek
  payloadStart : r.payloadStart = f.header.length

section Extent

variable {key dek : Key} {f : Frame} {metadata : Option Metadata} {pts : List Bytes}
  {r : RangeHeader}

section

variable (hP : P.Lawful) (hf : f.Opens P key dek metadata pts) {k : Nat}
  (hk : k ≤ f.head.chunkCount.toNat)
include hP hf hk

theorem Frame.Opens.length_take_pts : (pts.take k).flatten.length =
      min f.head.plaintextLen.toNat (k * f.head.chunkSize.toNat) := by
  rw [(hf.chunks.take hk).length_flatten_pts hP]
  simp

theorem Frame.Opens.length_take_chunks : (f.chunks.take k).flatten.length =
      min f.head.plaintextLen.toNat (k * f.head.chunkSize.toNat) + k * tagLen := by
  rw [(hf.chunks.take hk).length_flatten_cts hP, hf.length_take_pts hP hk]

end

def Frame.chunkStart (f : Frame) (k : Nat) : Nat :=
  f.header.length + (f.chunks.take k).flatten.length

section

variable {α : Type} (xs : List (List α)) (a n : Nat)

theorem flatten_take_drop :
    ((xs.drop a).take n).flatten = (xs.flatten.take (xs.take (a + n)).flatten.length).drop
      (xs.take a).flatten.length := by
  have hxs : xs.flatten = (xs.take (a + n)).flatten ++ (xs.drop (a + n)).flatten := by
    rw [← flatten_append, take_append_drop]
  rw [hxs, take_left, take_add, flatten_append, drop_left]

theorem length_flatten_take_drop_le : ((xs.drop a).take n).flatten.length ≤ xs.flatten.length := by
  rw [flatten_take_drop, length_drop, length_take]
  omega

theorem length_flatten_take_drop :
    ((xs.drop a).take n).flatten.length =
      (xs.take (a + n)).flatten.length - (xs.take a).flatten.length := by
  rw [take_add, flatten_append, length_append, Nat.add_sub_cancel_left]

end

theorem checked_of_lt {what : String} {n : Nat} (h : n < 2 ^ 64) : checked what n = .ok n := by
  simp only [checked, checkedU64, if_pos h, okOr]

/-- A nonempty run of chunks has the extent of their ciphertexts, and its window is all their
plaintext. -/
theorem RangeHeader.Describes.chunkSpan_eq (hP : P.Lawful) (hr : r.Describes f dek)
    (hf : f.Opens P key dek metadata pts) (hlen : f.bytes.length < 2 ^ 64) (first count n : Nat)
    (hfirst : first < f.head.chunkCount.toNat) (hcount : 0 < count)
    (hn : n = min count (f.head.chunkCount.toNat - first)) :
    r.chunkSpan first count = .ok
      { firstChunk := first, chunkCount := n, ciphertextOffset := f.chunkStart first,
        ciphertextLen := ((f.chunks.drop first).take n).flatten.length,
        windowOffset := 0, windowLen := ((pts.drop first).take n).flatten.length } := by
  have hcs := f.head_valid.chunkSize_toNat_pos
  have hlast : (first + n - 1) * f.head.chunkSize.toNat < f.head.plaintextLen.toNat := by
    rw [← lt_divCeil_iff hcs, ← f.head_valid.chunkCount]
    omega
  have htotal : f.header.length + f.head.plaintextLen.toNat + f.head.chunkCount.toNat * tagLen ≤
      f.bytes.length := by
    rw [Frame.bytes, Frame.body, length_append, length_append,
      hf.chunks.length_flatten_cts hP, hf.produced]
    omega
  rw [Frame.chunkStart, length_flatten_take_drop, length_flatten_take_drop, hf.length_take_pts hP
    (by omega), hf.length_take_pts hP (by omega), hf.length_take_chunks hP (by omega),
    hf.length_take_chunks hP (by omega)]
  simp only [chunkSpan, hr.head, hr.payloadStart, ← hn]
  rw [if_neg (by omega), chunkPlaintextLen_eq f.head.plaintextLen.toNat_lt]
  have hstride : f.head.chunkSize.toNat ≤ maxChunkSize := f.head_valid.chunkSize_le
  generalize f.head.plaintextLen.toNat = total at *
  generalize f.head.chunkSize.toNat = cs at *
  have hmul : (first + n) * cs = (first + n - 1) * cs + cs := by
    rw [← Nat.succ_mul]
    congr 1
    omega
  have hmul' : (first + n - 1) * cs = first * cs + (n - 1) * cs := by
    rw [← Nat.add_mul]
    congr 1
    omega
  have hskip : first * (cs + tagLen) = first * cs + first * tagLen := Nat.mul_add ..
  have hfull : (n - 1) * (cs + tagLen) = (n - 1) * cs + (n - 1) * tagLen := Nat.mul_add ..
  simp only [maxChunkSize, tagLen] at *
  rw [checked_of_lt (by omega), ok_bind, hskip, checked_of_lt (by omega), ok_bind,
    checked_of_lt (by omega), ok_bind, checked_of_lt (by omega), ok_bind, hfull,
    checked_of_lt (by omega), ok_bind, checked_of_lt (by omega), ok_bind, checked_of_lt (by omega),
    ok_bind, reject, if_neg (by omega), ok_bind]
  simp only [pure, Except.pure, Except.ok.injEq, ChunkSpan.mk.injEq, true_and]
  omega

theorem Frame.take_drop_chunkStart (f : Frame) (first n : Nat) :
    (f.bytes.drop (f.chunkStart first)).take ((f.chunks.drop first).take n).flatten.length =
      ((f.chunks.drop first).take n).flatten := by
  have hflat : f.chunks.flatten = (f.chunks.take first).flatten ++
      (((f.chunks.drop first).take n).flatten ++ ((f.chunks.drop first).drop n).flatten) := by
    rw [← flatten_append, take_append_drop, ← flatten_append, take_append_drop]
  have hbytes : f.bytes = (f.header ++ (f.chunks.take first).flatten) ++
      (((f.chunks.drop first).take n).flatten ++
        (((f.chunks.drop first).drop n).flatten ++ f.footer)) := by
    rw [Frame.bytes, Frame.body, hflat]
    simp only [append_assoc]
  rw [hbytes, drop_left' (by simp [Frame.chunkStart]), take_left]

theorem RangeHeader.Describes.readWindow_eq (hr : r.Describes f dek)
    (hf : f.Opens P key dek metadata pts) (first n : Nat)
    (hn : first + n ≤ f.head.chunkCount.toNat) {span : ChunkSpan} (hfirst : span.firstChunk = first)
    (hcount : span.chunkCount = n) (hoffset : span.ciphertextOffset = f.chunkStart first)
    (hlen : span.ciphertextLen = ((f.chunks.drop first).take n).flatten.length)
    (hwindow : span.windowOffset + span.windowLen ≤ ((pts.drop first).take n).flatten.length)
    (hsum : span.windowOffset + span.windowLen < 2 ^ 64) :
    r.readWindow P span ((f.bytes.drop span.ciphertextOffset).take span.ciphertextLen) =
      .ok ((((pts.drop first).take n).flatten.drop span.windowOffset).take span.windowLen) := by
  have hopen : ChunksOpen P dek f.head first n ((f.chunks.drop first).take n)
      ((pts.drop first).take n) := by
    have h := (hf.chunks.drop (k := first) (by omega)).take (k := n) (by omega)
    rwa [Nat.zero_add] at h
  have hemit := emitAll_pure (RangeHeader.windowStep span) first ((pts.drop first).take n) ([], 0)
  rw [foldl_windowStep span hsum, Nat.sub_zero, Nat.sub_zero, nil_append] at hemit
  have hloop : r.openChunks P span ((f.chunks.drop first).take n).flatten
      (fun s _ plaintext => pure (windowStep span s plaintext)) ([], 0) = .ok _ :=
    (RangeHeader.openChunks_eq_ok hr.headBytes).mpr
      ⟨hlen.symm, _, _, [], by rw [hr.dek, hr.head, hfirst, hcount]; exact hopen,
        (append_nil _).symm, by rw [hfirst]; exact hemit⟩
  rw [hoffset, hlen, f.take_drop_chunkStart, readWindow, hloop, ok_bind]
  simp only [bind_eq_ok, reject_eq_ok, pure_eq_ok, ne_eq, not_not]
  refine ⟨(), ?_, ?_⟩
  · rw [length_drop, length_take]
    omega
  · rw [drop_take, Nat.add_sub_cancel_left]

theorem Frame.Opens.flatten_take_drop_pts (hP : P.Lawful) (hf : f.Opens P key dek metadata pts)
    {first n : Nat} (hn : first + n ≤ f.head.chunkCount.toNat) :
    ((pts.drop first).take n).flatten =
      (pts.flatten.drop (first * f.head.chunkSize.toNat)).take (n * f.head.chunkSize.toNat) := by
  rw [flatten_take_drop, hf.length_take_pts hP hn, hf.length_take_pts hP (by omega), ← hf.produced]
  have hdrop : ∀ k, pts.flatten.drop (min pts.flatten.length k) = pts.flatten.drop k := by
    intro k
    rw [drop_eq_drop_iff]
    omega
  rw [drop_take, hdrop, take_eq_take_iff, length_drop, Nat.add_mul]
  omega

end Extent

def ChunkSpan.extent (span : ChunkSpan) : Set Nat :=
  Set.Ico span.ciphertextOffset (span.ciphertextOffset + span.ciphertextLen)

/-- The byte positions of the ciphertext of chunk `k`. -/
def Frame.chunkExtent (f : Frame) (k : Nat) : Set Nat :=
  Set.Ico (f.chunkStart k) (f.chunkStart (k + 1))

def Frame.chunkRegion (f : Frame) : Set Nat := Set.Ico f.header.length f.body.length

/-- The span names exactly the bytes of the chunks in `covered`, all inside the chunk region, and
counts those chunks. -/
structure ChunkSpan.Covers (span : ChunkSpan) (f : Frame) (covered : Set Nat) : Prop where
  inside : span.extent ⊆ f.chunkRegion
  extent_eq : span.extent = ⋃ k ∈ covered, f.chunkExtent k
  numbers : covered = {k | span.firstChunk ≤ k ∧ k < span.firstChunk + span.chunkCount}

theorem mem_Ico_iff_exists_step {start : Nat → Nat} (hmono : Monotone start) (a n i : Nat) :
    i ∈ Set.Ico (start a) (start (a + n)) ↔
      ∃ k, (a ≤ k ∧ k < a + n) ∧ i ∈ Set.Ico (start k) (start (k + 1)) := by
  constructor
  · intro hi
    induction n with
    | zero => simp at hi
    | succ n ih =>
      by_cases hlt : i < start (a + n)
      · obtain ⟨k, hk, hmem⟩ := ih ⟨hi.1, hlt⟩
        exact ⟨k, ⟨hk.1, by omega⟩, hmem⟩
      · exact ⟨a + n, ⟨by omega, by omega⟩, not_lt.mp hlt, hi.2⟩
  · rintro ⟨k, ⟨hak, hkn⟩, hlow, hhigh⟩
    exact ⟨le_trans (hmono hak) hlow, lt_of_lt_of_le hhigh (hmono (by omega))⟩

theorem Frame.chunkStart_mono (f : Frame) : Monotone f.chunkStart := by
  refine monotone_nat_of_le_succ fun k => ?_
  rw [chunkStart, chunkStart, take_add, flatten_append, length_append]
  omega

theorem Frame.chunkStart_le_body (f : Frame) (k : Nat) : f.chunkStart k ≤ f.body.length := by
  have h := congrArg List.length (congrArg List.flatten (take_append_drop k f.chunks))
  rw [flatten_append, length_append] at h
  rw [chunkStart, body, length_append]
  omega

theorem ChunkSpan.covers_empty (f : Frame) : ChunkSpan.empty.Covers f ∅ where
  inside := by simp [extent, empty]
  extent_eq := by simp [extent, empty]
  numbers := by simp [empty]

theorem ChunkSpan.covers_run {f : Frame} (span : ChunkSpan)
    (hoffset : span.ciphertextOffset = f.chunkStart span.firstChunk)
    (hlen : span.ciphertextLen =
      ((f.chunks.drop span.firstChunk).take span.chunkCount).flatten.length) :
    span.Covers f {k | span.firstChunk ≤ k ∧ k < span.firstChunk + span.chunkCount} := by
  have hend : span.ciphertextOffset + span.ciphertextLen =
      f.chunkStart (span.firstChunk + span.chunkCount) := by
    rw [hoffset, hlen, Frame.chunkStart, Frame.chunkStart, take_add, flatten_append,
      length_append, Nat.add_assoc]
  refine ⟨?_, ?_, rfl⟩
  · rw [extent, hend, hoffset]
    refine Set.Ico_subset_Ico ?_ (f.chunkStart_le_body _)
    rw [Frame.chunkStart]
    omega
  · ext i
    rw [extent, hend, hoffset, mem_Ico_iff_exists_step f.chunkStart_mono]
    simp only [Set.mem_iUnion, Set.mem_ofPred_eq, exists_prop]
    rfl

theorem RangeHeader.readWindow_empty (r : RangeHeader) (ciphertext : Bytes) :
    r.readWindow P .empty (ciphertext.take 0) = .ok [] := by
  rfl

section Reads

variable {key dek : Key} {f : Frame} {metadata : Option Metadata} {pts : List Bytes}
  {r : RangeHeader}

theorem RangeHeader.Describes.chunkSpan_reads (hP : P.Lawful) (hr : r.Describes f dek)
    (hf : f.Opens P key dek metadata pts) (hlen : f.bytes.length < 2 ^ 64) (first count : Nat) :
    ∃ span, r.chunkSpan first count = .ok span ∧
      r.readWindow P span ((f.bytes.drop span.ciphertextOffset).take span.ciphertextLen) =
        .ok ((pts.flatten.drop (first * f.head.chunkSize.toNat)).take
          (count * f.head.chunkSize.toNat)) ∧
      span.Covers f {k | first ≤ k ∧ k < min (first + count) f.head.chunkCount.toNat} := by
  have hcs := f.head_valid.chunkSize_toNat_pos
  by_cases hempty : f.head.chunkCount.toNat ≤ first ∨ count = 0
  · refine ⟨.empty, ?_, ?_, ?_⟩
    · simp only [chunkSpan, hr.head, if_pos hempty]
      rfl
    · rw [show ChunkSpan.empty.ciphertextLen = 0 from rfl, readWindow_empty]
      rcases hempty with hfirst | rfl
      · rw [f.head_valid.chunkCount, divCeil_le_iff hcs, ← hf.produced] at hfirst
        rw [drop_of_length_le hfirst, take_nil]
      · simp
    · have hnone : {k | first ≤ k ∧ k < min (first + count) f.head.chunkCount.toNat} =
          (∅ : Set Nat) := by
        ext k
        simp only [Set.mem_ofPred_eq, Set.mem_empty_iff_false, iff_false]
        omega
      rw [hnone]
      exact ChunkSpan.covers_empty f
  · have hspan := hr.chunkSpan_eq hP hf hlen first count _ (by omega) (by omega) rfl
    generalize hn : min count (f.head.chunkCount.toNat - first) = n at hspan
    refine ⟨_, hspan, ?_, ?_⟩
    · have hall := length_flatten_take_drop_le pts first n
      rw [hf.produced] at hall
      have hlt := f.head.plaintextLen.toNat_lt
      rw [hr.readWindow_eq hf first n (by omega) rfl rfl rfl rfl (by simp)
        (by simp only; omega), drop_zero, take_length,
        hf.flatten_take_drop_pts hP (by omega), Except.ok.injEq, take_eq_take_iff,
        length_drop, hf.produced]
      rcases Nat.le_total count (f.head.chunkCount.toNat - first) with hle | hge
      · rw [show n = count by omega]
      · have htotal := (divCeil_le_iff hcs).mp (Nat.le_of_eq f.head_valid.chunkCount.symm)
        have hcount := Nat.mul_le_mul_right f.head.chunkSize.toNat hge
        rw [show n = f.head.chunkCount.toNat - first by omega]
        rw [Nat.sub_mul] at hcount ⊢
        omega
    · have hcovers := ChunkSpan.covers_run (f := f)
        { firstChunk := first, chunkCount := n, ciphertextOffset := f.chunkStart first,
          ciphertextLen := ((f.chunks.drop first).take n).flatten.length, windowOffset := 0,
          windowLen := ((pts.drop first).take n).flatten.length } rfl rfl
      have hset : {k | first ≤ k ∧ k < min (first + count) f.head.chunkCount.toNat} =
          {k | first ≤ k ∧ k < first + n} := by
        ext k
        simp only [Set.mem_ofPred_eq]
        omega
      rw [hset]
      exact hcovers

theorem window_eq_take_length (plaintext : Bytes) (offset : Nat) (length : Option Nat) :
    window plaintext offset length =
      (plaintext.drop offset).take (window plaintext offset length).length := by
  cases length with
  | some len => simp [window, take_eq_take_iff]
  | none => rw [window, take_length]

theorem RangeHeader.span_eq (r : RangeHeader) {plaintext : Bytes}
    (hlen : plaintext.length = r.head.plaintextLen.toNat) (offset : Nat) (length : Option Nat) :
    r.span offset length =
      (let want := (window plaintext offset length).length
      if want = 0 then pure .empty
      else do
        let first := offset / r.head.chunkSize.toNat
        let last := (offset + want - 1) / r.head.chunkSize.toNat
        let span ← r.chunkSpan first (last - first + 1)
        pure { span with
          windowOffset := offset - first * r.head.chunkSize.toNat, windowLen := want }) := by
  have hwant : (window plaintext offset length).length =
      length.elim (r.head.plaintextLen.toNat - offset) fun len =>
        min len (r.head.plaintextLen.toNat - offset) := by
    cases length <;> simp [window, hlen]
  simp only [span, ← hwant]
  split
  next hoffset =>
    have hzero : (window plaintext offset length).length = 0 := by
      rw [hwant]
      cases length <;> simp only [Option.elim] <;> omega
    rw [if_pos hzero]
  · rfl

theorem RangeHeader.Describes.span_reads (hP : P.Lawful) (hr : r.Describes f dek)
    (hf : f.Opens P key dek metadata pts) (hlen : f.bytes.length < 2 ^ 64) (offset : Nat)
    (length : Option Nat) :
    ∃ span, r.span offset length = .ok span ∧
      r.readWindow P span ((f.bytes.drop span.ciphertextOffset).take span.ciphertextLen) =
        .ok (window pts.flatten offset length) ∧
      span.Covers f {k | window pts.flatten offset length ≠ [] ∧
        offset / f.head.chunkSize.toNat ≤ k ∧
        k ≤ (offset + (window pts.flatten offset length).length - 1) / f.head.chunkSize.toNat} := by
  have hcs := f.head_valid.chunkSize_toNat_pos
  have hspan := r.span_eq (by rw [hf.produced, hr.head]) offset length
  have hwindow := window_eq_take_length pts.flatten offset length
  have hfits : (window pts.flatten offset length).length ≤ f.head.plaintextLen.toNat - offset := by
    rw [← hf.produced, ← length_drop, hwindow]
    exact length_take_le' _ _
  generalize window pts.flatten offset length = w at hspan hwindow hfits ⊢
  by_cases hempty : w = []
  · refine ⟨.empty, ?_, ?_, ?_⟩
    · rw [hspan, hempty]
      rfl
    · rw [show ChunkSpan.empty.ciphertextLen = 0 from rfl, readWindow_empty, hempty]
    · have hnone : {k | w ≠ [] ∧ offset / f.head.chunkSize.toNat ≤ k ∧
          k ≤ (offset + w.length - 1) / f.head.chunkSize.toNat} = (∅ : Set Nat) := by
        ext k
        simp [hempty]
      rw [hnone]
      exact ChunkSpan.covers_empty f
  · have hwant : 0 < w.length := length_pos_iff.mpr hempty
    have hlt := f.head.plaintextLen.toNat_lt
    have hlast : (offset + w.length - 1) / f.head.chunkSize.toNat < f.head.chunkCount.toNat := by
      rw [f.head_valid.chunkCount, lt_divCeil_iff hcs]
      have := Nat.div_mul_le_self (offset + w.length - 1) f.head.chunkSize.toNat
      omega
    have hle : offset / f.head.chunkSize.toNat ≤
        (offset + w.length - 1) / f.head.chunkSize.toNat :=
      Nat.div_le_div_right (by omega)
    have hend : offset + w.length - 1 <
        ((offset + w.length - 1) / f.head.chunkSize.toNat + 1) * f.head.chunkSize.toNat := by
      rw [← Nat.div_lt_iff_lt_mul hcs]
      omega
    have hstart := Nat.div_mul_le_self offset f.head.chunkSize.toNat
    simp only [if_neg (show ¬w.length = 0 by omega), hr.head] at hspan
    generalize (offset + w.length - 1) / f.head.chunkSize.toNat = last at *
    generalize offset / f.head.chunkSize.toNat = first at *
    rw [hr.chunkSpan_eq hP hf hlen first (last - first + 1) (last - first + 1) (by omega)
      (by omega) (by omega), ok_bind] at hspan
    refine ⟨_, hspan, ?_, ?_⟩
    · have hcount : first * f.head.chunkSize.toNat +
          (last - first + 1) * f.head.chunkSize.toNat = (last + 1) * f.head.chunkSize.toNat := by
        rw [← Nat.add_mul]
        congr 1
        omega
      have hpart : ((pts.drop first).take (last - first + 1)).flatten.length =
          min (pts.flatten.length - first * f.head.chunkSize.toNat)
            ((last - first + 1) * f.head.chunkSize.toNat) := by
        rw [hf.flatten_take_drop_pts hP (by omega), length_take, length_drop, Nat.min_comm]
      rw [hf.produced] at hpart
      rw [hr.readWindow_eq hf first (last - first + 1) (by omega) rfl rfl rfl rfl
        (by simp only [hpart]; omega) (by simp only; omega),
        hf.flatten_take_drop_pts hP (by omega), Except.ok.injEq]
      conv_rhs => rw [hwindow]
      simp only [drop_take, drop_drop, take_take]
      rw [show first * f.head.chunkSize.toNat + (offset - first * f.head.chunkSize.toNat) = offset
        by omega]
      rw [Nat.min_eq_left (by omega)]
    · have hcovers := ChunkSpan.covers_run (f := f)
        { firstChunk := first, chunkCount := last - first + 1,
          ciphertextOffset := f.chunkStart first,
          ciphertextLen := ((f.chunks.drop first).take (last - first + 1)).flatten.length,
          windowOffset := offset - first * f.head.chunkSize.toNat, windowLen := w.length } rfl rfl
      have hset : {k | w ≠ [] ∧ first ≤ k ∧ k ≤ last} =
          {k | first ≤ k ∧ k < first + (last - first + 1)} := by
        ext k
        simp only [Set.mem_ofPred_eq, ne_eq, hempty, not_false_eq_true, true_and]
        omega
      rw [hset]
      exact hcovers

end Reads

theorem Frame.Opens.openRoot {key dek : Key} {f : Frame} {metadata : Option Metadata}
    {pts : List Bytes} (hf : f.Opens P key dek metadata pts) (hkem : f.head.kemId = kemIdNone)
    (hwrap : f.kemWrap = []) {n : Nat} (hn : f.header.length ≤ n) :
    ∃ r, RangeHeader.openRoot P key (f.bytes.take n) = .ok r ∧ r.Describes f dek ∧
      r.metadata = metadata := by
  refine ⟨{ head := f.head, headBytes := buildHead f.head, dek, payloadStart := f.header.length,
            metadata }, ?_, ⟨rfl, rfl, rfl, rfl⟩, rfl⟩
  refine RangeHeader.decode_eq_ok.mpr ⟨f.toHeader, (f.chunks.flatten ++ f.footer).take
    (n - f.header.length), ?_, ⟨fun _ => hwrap, fun h => ?_⟩, hkem, hf.toOpens, rfl, rfl, rfl⟩
  · rw [f.bytes_eq, take_append, take_of_length_le (l := f.toHeader.bytes) hn]
    rfl
  · rw [hkem] at h
    cases h

/-- For every object that opens, every window and every run of chunks: the ranged reader, given any
prefix that holds the header and then exactly the bytes a span names, returns the plaintext of the
window or the run; the span lies inside the chunk region and covers exactly the chunks the window
touches. -/
theorem ranged_read_agrees (hP : P.Lawful) (key : Key) (blob : Bytes) (hlen : blob.length < 2 ^ 64)
    (o : Opened) (hopen : openObject P key blob = .ok o) :
    ∃ (f : Frame) (dek : Key) (pts : List Bytes), blob = f.bytes ∧
      f.Opens P key dek o.metadata pts ∧ o.plaintext = pts.flatten ∧
      ∀ n, f.header.length ≤ n → ∃ r, RangeHeader.openRoot P key (blob.take n) = .ok r ∧
        (∀ offset length, ∃ span, r.span offset length = .ok span ∧
          r.readWindow P span ((blob.drop span.ciphertextOffset).take span.ciphertextLen) =
            .ok (window o.plaintext offset length) ∧
          span.Covers f {k | window o.plaintext offset length ≠ [] ∧
            offset / f.head.chunkSize.toNat ≤ k ∧
            k ≤ (offset + (window o.plaintext offset length).length - 1) /
              f.head.chunkSize.toNat}) ∧
        ∀ first count, ∃ span, r.chunkSpan first count = .ok span ∧
          r.readWindow P span ((blob.drop span.ciphertextOffset).take span.ciphertextLen) =
            .ok ((o.plaintext.drop (first * f.head.chunkSize.toNat)).take
              (count * f.head.chunkSize.toNat)) ∧
          span.Covers f {k | first ≤ k ∧ k < min (first + count) f.head.chunkCount.toNat} := by
  obtain ⟨pts, ⟨f, dek, hkem, hwrap, hf, rfl⟩, hplain⟩ := openObject_eq_ok.mp hopen
  refine ⟨f, dek, pts, rfl, hf, hplain, fun n hn => ?_⟩
  obtain ⟨r, hr, hdescribes, -⟩ := hf.openRoot hkem hwrap hn
  rw [hplain]
  exact ⟨r, hr, hdescribes.span_reads hP hf hlen, hdescribes.chunkSpan_reads hP hf hlen⟩

theorem ranged_read_agrees_sample :
    ∃ r span, RangeHeader.openRoot clearPrimitives default (sampleObject.take 4096) = .ok r ∧
      r.span 1 (some 5) = .ok span ∧
      r.readWindow clearPrimitives span
        ((sampleObject.drop span.ciphertextOffset).take span.ciphertextLen) = .ok [2, 3] := by
  obtain ⟨f, dek, pts, hbytes, -, -, hranged⟩ := ranged_read_agrees clearPrimitives_lawful default
    sampleObject (by decide +kernel) sampleOpened openObject_sampleObject
  have hle : f.header.length ≤ 4096 := by
    have hlen : sampleObject.length = 330 := by decide +kernel
    rw [hbytes, Frame.bytes, Frame.body, length_append, length_append] at hlen
    omega
  obtain ⟨r, hr, hwindows, -⟩ := hranged 4096 hle
  obtain ⟨span, hspan, hread, -⟩ := hwindows 1 (some 5)
  exact ⟨r, span, hr, hspan, hread⟩

end Dctl.Object
