import Dctl.ProofKit.Machine
import Dctl.Object.Range

/-! The arithmetic behind the extent of a run of chunks (`object/range.rs`), in 64 bits: where the
code checks a sum or product the overflow is an error, everywhere else it would trap.  Nothing traps
and every number of an extent is exact, but the end of the extent is a sum that nobody checks. -/

namespace Dctl.Object

open ProofKit Crypto Machine

namespace RangeHeader

variable (h : RangeHeader)

def chunkSpanU64 (first count : Nat) : Except (Trap CryptoError) ChunkSpan :=
  let chunkCount := h.head.chunkCount.toNat
  let chunkSize := h.head.chunkSize.toNat
  if chunkCount ≤ first ∨ count = 0 then pure .empty
  else do
    let left ← sub chunkCount first
    let count := min count left
    let past ← add 64 first count
    let last ← sub past 1
    let stride ← lift (checked "chunk stride" (chunkSize + tagLen))
    let skip ← lift (checked "chunk offset" (first * stride))
    let ciphertextOffset ← lift (checked "chunk offset" (h.payloadStart + skip))
    let lastCt ← lift (checked "chunk length"
      (chunkPlaintextLen h.head.plaintextLen.toNat chunkSize last + tagLen))
    let before ← sub count 1
    let full ← lift (checked "span length" (before * stride))
    let ciphertextLen ← lift (checked "span length" (full + lastCt))
    let tags ← lift (checked "span plaintext" (count * tagLen))
    lift (reject (ciphertextLen < tags)
      (.format "object geometry overflows a byte offset (span plaintext)"))
    pure { firstChunk := first, chunkCount := count, ciphertextOffset, ciphertextLen,
           windowOffset := 0, windowLen := ciphertextLen - tags }

def spanU64 (offset : Nat) (length : Option Nat) : Except (Trap CryptoError) ChunkSpan :=
  let plaintextLen := h.head.plaintextLen.toNat
  if plaintextLen ≤ offset then pure .empty
  else do
    let available ← sub plaintextLen offset
    let want := length.elim available fun len => min len available
    if want = 0 then pure .empty
    else do
      let chunkSize := h.head.chunkSize.toNat
      let first := offset / chunkSize
      let past ← add 64 offset want
      let lastByte ← sub past 1
      let last := lastByte / chunkSize
      let between ← sub last first
      let count ← add 64 between 1
      let span ← h.chunkSpanU64 first count
      let start ← mul 64 first chunkSize
      let windowOffset ← sub offset start
      pure { span with windowOffset, windowLen := want }

variable {h}

theorem chunkSpanU64_eq {first count : Nat} (hfirst : first < 2 ^ 64) :
    h.chunkSpanU64 first count = lift (h.chunkSpan first count) := by
  simp only [chunkSpanU64, chunkSpan]
  split
  · rfl
  next hsome =>
    rw [not_or, not_le] at hsome
    obtain ⟨hlt, hcount⟩ := hsome
    have hcc : h.head.chunkCount.toNat < 2 ^ 64 := h.head.chunkCount.toNat_lt
    have hpast : first + min count (h.head.chunkCount.toNat - first) < 2 ^ 64 := by omega
    have hone : 1 ≤ first + min count (h.head.chunkCount.toNat - first) := by omega
    have hn : 1 ≤ min count (h.head.chunkCount.toNat - first) := by omega
    simp only [sub_of_le hlt.le, add_of_lt hpast, sub_of_le hone, sub_of_le hn, ok_bind, lift_bind]
    rfl

theorem want_le (length : Option Nat) (available : Nat) :
    (length.elim available fun len => min len available) ≤ available := by
  cases length with
  | none => exact Nat.le_refl _
  | some len => exact Nat.min_le_right _ _

theorem spanU64_eq {offset : Nat} {length : Option Nat} :
    h.spanU64 offset length = lift (h.span offset length) := by
  simp only [spanU64, span]
  split
  · rfl
  next hoffset =>
    rw [not_le] at hoffset
    have hpt : h.head.plaintextLen.toNat < 2 ^ 64 := h.head.plaintextLen.toNat_lt
    rw [sub_of_le hoffset.le, ok_bind]
    have hwant := want_le length (h.head.plaintextLen.toNat - offset)
    generalize length.elim _ _ = want at hwant ⊢
    split
    · rfl
    next hzero =>
      generalize h.head.chunkSize.toNat = cs
      have hfirst : offset / cs < 2 ^ 64 := by
        have := Nat.div_le_self offset cs
        omega
      have hlast : (offset + want - 1) / cs < 2 ^ 64 - 1 := by
        have := Nat.div_le_self (offset + want - 1) cs
        omega
      have hle : offset / cs ≤ (offset + want - 1) / cs := Nat.div_le_div_right (by omega)
      have hback : offset / cs * cs ≤ offset := Nat.div_mul_le_self offset cs
      have hbetween := Nat.sub_le ((offset + want - 1) / cs) (offset / cs)
      have hcount : (offset + want - 1) / cs - offset / cs + 1 < 2 ^ 64 := by omega
      simp only [add_of_lt (show offset + want < 2 ^ 64 by omega),
        sub_of_le (show 1 ≤ offset + want by omega), sub_of_le hle, add_of_lt hcount, ok_bind,
        chunkSpanU64_eq hfirst, mul_of_lt (show offset / cs * cs < 2 ^ 64 by omega),
        sub_of_le hback, lift_bind]
      rfl

variable (h) in
def chunkEnd (k : Nat) : Nat :=
  h.payloadStart + (min h.head.plaintextLen.toNat (k * h.head.chunkSize.toNat) + k * tagLen)

variable (h) in
/-- The extent of `n` chunks from `first` on, in exact numbers; no chunks have the empty extent. -/
def Spans (first n : Nat) (span : ChunkSpan) : Prop :=
  if n = 0 then span = .empty
  else span.firstChunk = first ∧ span.chunkCount = n ∧ span.ciphertextOffset = h.chunkEnd first ∧
    span.ciphertextOffset + span.ciphertextLen = h.chunkEnd (first + n)

variable (h) in
def chunksFrom (first count : Nat) : Nat := min count (h.head.chunkCount.toNat - first)

variable (h) in
def chunksOver (offset : Nat) (length : Option Nat) : Nat :=
  let available := h.head.plaintextLen.toNat - offset
  let want := length.elim available fun len => min len available
  if want = 0 then 0
  else (offset + want - 1) / h.head.chunkSize.toNat - offset / h.head.chunkSize.toNat + 1

/-- A computed extent is exact, with nothing overflowing on the way, and its end fits 64 bits. -/
def EndKept (h : RangeHeader) (first n : Nat) (x : Except (Trap CryptoError) ChunkSpan) : Prop :=
  Exact x ∧ ∀ span, x = .ok span →
    h.Spans first n span ∧ span.ciphertextOffset + span.ciphertextLen < 2 ^ 64

/-- The end of `n` chunks from `first` on fits 64 bits, unless already their start or their length
does not. -/
def EndFits (h : RangeHeader) (first n : Nat) : Prop :=
  n = 0 ∨ 2 ^ 64 ≤ h.chunkEnd first ∨ 2 ^ 64 ≤ h.chunkEnd (first + n) - h.chunkEnd first ∨
    h.chunkEnd (first + n) < 2 ^ 64

theorem run_ends (hv : h.head.Valid) (first : Nat) {n : Nat} (hn : 0 < n)
    (hlast : first + n ≤ h.head.chunkCount.toNat) :
    (h.run first n).ciphertextOffset = h.chunkEnd first ∧
      (h.run first n).ciphertextOffset + (h.run first n).ciphertextLen =
        h.chunkEnd (first + n) := by
  obtain ⟨hoffset, hlen⟩ := run_eq hv hn hlast
  have hbefore : first * h.head.chunkSize.toNat < h.head.plaintextLen.toNat := by
    rw [← lt_divCeil_iff hv.chunkSize_toNat_pos, ← hv.chunkCount]
    omega
  have hmono : first * h.head.chunkSize.toNat ≤ (first + n) * h.head.chunkSize.toNat :=
    Nat.mul_le_mul_right _ (by omega)
  refine ⟨hoffset, ?_⟩
  rw [hoffset, hlen]
  simp only [chunkEnd, tagLen]
  omega

/-- What a computation does that answers with the extent of `n` chunks from `first` on, and refuses
exactly those whose start or whose length does not fit. -/
structure Answers (h : RangeHeader) (first n : Nat) (x : Except CryptoError ChunkSpan) : Prop where
  empty : n = 0 → x = .ok .empty
  ok : n ≠ 0 → h.chunkEnd first < 2 ^ 64 → h.chunkEnd (first + n) - h.chunkEnd first < 2 ^ 64 →
    ∃ span, x = .ok span
  spans : n ≠ 0 → ∀ span, x = .ok span → h.Spans first n span ∧ h.chunkEnd first < 2 ^ 64 ∧
    h.chunkEnd (first + n) - h.chunkEnd first < 2 ^ 64

theorem Answers.endKept_iff {first n : Nat} {x : Except CryptoError ChunkSpan}
    (hx : Answers h first n x) : EndKept h first n (lift x) ↔ EndFits h first n := by
  by_cases hn : n = 0
  · have hempty : ∀ span, lift x = .ok span → span = .empty := by
      intro span hspan
      rw [lift_eq_ok, hx.empty hn] at hspan
      exact (Except.ok.inj hspan).symm
    refine iff_of_true ⟨exact_lift x, fun span hspan => ?_⟩ (.inl hn)
    rw [hempty span hspan, Spans, if_pos hn]
    exact ⟨rfl, by decide⟩
  constructor
  · rintro ⟨-, hkept⟩
    by_cases hstart : h.chunkEnd first < 2 ^ 64
    · by_cases hlen : h.chunkEnd (first + n) - h.chunkEnd first < 2 ^ 64
      · obtain ⟨span, hspan⟩ := hx.ok hn hstart hlen
        obtain ⟨hspans, hend⟩ := hkept span (lift_eq_ok.mpr hspan)
        rw [Spans, if_neg hn] at hspans
        rw [hspans.2.2.2] at hend
        exact .inr (.inr (.inr hend))
      · exact .inr (.inr (.inl (not_lt.mp hlen)))
    · exact .inr (.inl (not_lt.mp hstart))
  · intro hfits
    refine ⟨exact_lift x, fun span hspan => ?_⟩
    obtain ⟨hspans, hstart, hlen⟩ := hx.spans hn span (lift_eq_ok.mp hspan)
    refine ⟨hspans, ?_⟩
    rw [Spans, if_neg hn] at hspans
    rw [hspans.2.2.2]
    rcases hfits with h0 | hstart' | hlen' | hend
    · exact absurd h0 hn
    · omega
    · omega
    · exact hend

theorem chunkSpan_answers (hv : h.head.Valid) (first count : Nat) :
    Answers h first (h.chunksFrom first count) (h.chunkSpan first count) where
  empty hn := by
    rw [chunkSpan]
    simp only [chunksFrom] at hn
    exact if_pos (by omega)
  ok hn hstart hlen := by
    simp only [chunksFrom] at hn hlen
    obtain ⟨hoffset, hend⟩ := run_ends hv first (Nat.pos_of_ne_zero hn) (by omega)
    exact ⟨_, (chunkSpan_eq_ok (by omega) (by omega) rfl).mpr ⟨⟨by omega, by omega⟩, rfl⟩⟩
  spans hn span hspan := by
    simp only [chunksFrom] at hn ⊢
    obtain ⟨⟨hstart, hlen⟩, rfl⟩ :=
      (chunkSpan_eq_ok (n := min count (h.head.chunkCount.toNat - first)) (by omega) (by omega)
        rfl).mp hspan
    obtain ⟨hoffset, hend⟩ := run_ends hv first (Nat.pos_of_ne_zero hn) (by omega)
    rw [Spans, if_neg hn]
    exact ⟨⟨rfl, rfl, hoffset, hend⟩, by omega, by omega⟩

theorem span_answers (hv : h.head.Valid) (offset : Nat) (length : Option Nat) :
    Answers h (offset / h.head.chunkSize.toNat) (h.chunksOver offset length)
      (h.span offset length) := by
  have hcs := hv.chunkSize_toNat_pos
  have hwant := want_le length (h.head.plaintextLen.toNat - offset)
  simp only [chunksOver, span]
  generalize length.elim _ _ = want at hwant ⊢
  by_cases hzero : want = 0
  · rw [if_pos hzero, if_pos hzero, ite_self]
    exact ⟨fun _ => rfl, fun hn => absurd rfl hn, fun hn => absurd rfl hn⟩
  rw [if_neg hzero, if_neg hzero, if_neg (by omega)]
  -- The run of chunks from the first byte to the last is not cut short by the end of the object.
  have hle : offset / h.head.chunkSize.toNat ≤ (offset + want - 1) / h.head.chunkSize.toNat :=
    Nat.div_le_div_right (by omega)
  have hlast : (offset + want - 1) / h.head.chunkSize.toNat < h.head.chunkCount.toNat := by
    rw [hv.chunkCount, lt_divCeil_iff hcs]
    have := Nat.div_mul_le_self (offset + want - 1) h.head.chunkSize.toNat
    omega
  have hrun := chunkSpan_answers hv (offset / h.head.chunkSize.toNat)
    ((offset + want - 1) / h.head.chunkSize.toNat - offset / h.head.chunkSize.toNat + 1)
  have hfrom : h.chunksFrom (offset / h.head.chunkSize.toNat)
      ((offset + want - 1) / h.head.chunkSize.toNat - offset / h.head.chunkSize.toNat + 1) =
        (offset + want - 1) / h.head.chunkSize.toNat - offset / h.head.chunkSize.toNat + 1 := by
    simp only [chunksFrom]
    omega
  rw [hfrom] at hrun
  have hpos :
      (offset + want - 1) / h.head.chunkSize.toNat - offset / h.head.chunkSize.toNat + 1 ≠ 0 :=
    Nat.succ_ne_zero _
  generalize (offset + want - 1) / h.head.chunkSize.toNat - offset / h.head.chunkSize.toNat + 1 = n
    at hrun hpos
  refine ⟨fun hn => absurd hn hpos, fun hn hstart hlen => ?_, fun hn span hspan => ?_⟩
  · obtain ⟨span, hspan⟩ := hrun.ok hn hstart hlen
    exact ⟨_, by rw [hspan]; rfl⟩
  · simp only [bind_eq_ok, pure_eq_ok] at hspan
    obtain ⟨inner, hinner, rfl⟩ := hspan
    have hspans := hrun.spans hn inner hinner
    rw [Spans, if_neg hn] at hspans ⊢
    exact hspans

/-- An extent is exact throughout, and the only thing that can go wrong is its end: a sum of two
numbers that each fit 64 bits. -/
theorem ends_fit_iff {bytes : Bytes} (hhead : parseHead bytes = .ok h.head) {first : Nat}
    (hfirst : first < 2 ^ 64) (count offset : Nat) (length : Option Nat) :
    (EndKept h first (h.chunksFrom first count) (h.chunkSpanU64 first count) ↔
      EndFits h first (h.chunksFrom first count)) ∧
    (EndKept h (offset / h.head.chunkSize.toNat) (h.chunksOver offset length)
        (h.spanU64 offset length) ↔
      EndFits h (offset / h.head.chunkSize.toNat) (h.chunksOver offset length)) := by
  obtain ⟨_, -, hv⟩ := parseHead_eq_ok.mp hhead
  rw [chunkSpanU64_eq hfirst, spanU64_eq]
  exact ⟨(chunkSpan_answers hv first count).endKept_iff,
    (span_answers hv offset length).endKept_iff⟩

/-- An object of `n` bytes in chunks of one byte each, behind a header of 262 bytes. -/
def oneByteChunks (n : Nat) : RangeHeader where
  head := { algo := algoXchacha20Poly1305, kemId := kemIdNone, flags := 0, chunkSize := 1,
            plaintextLen := .ofNat n, chunkCount := .ofNat n,
            baseNonce := Block.slice nonceLen [] 0, fileId := Block.slice fileIdLen [] 0 }
  headBytes := []
  dek := Block.slice keyLen [] 0
  payloadStart := 262
  metadata := none

theorem oneByteChunks_valid (n : Nat) : (oneByteChunks n).head.Valid where
  algo := rfl
  kemId := .inl rfl
  flags := by simp [oneByteChunks]
  chunkSize_pos := by simp [oneByteChunks]
  chunkSize_le := by simp [oneByteChunks, maxChunkSize]
  chunkCount := by simp [oneByteChunks, divCeil, Nat.mod_one]

theorem ends_fit_iff_one :
    EndKept (oneByteChunks 3) 1 ((oneByteChunks 3).chunksFrom 1 2)
      ((oneByteChunks 3).chunkSpanU64 1 2) := by
  have hparse := (oneByteChunks_valid 3).parseHead []
  exact (ends_fit_iff hparse (show 1 < 2 ^ 64 by decide) 2 1 (some 2)).1.mpr
    (.inr (.inr (.inr (by decide))))

/-- Half of the largest object of one-byte chunks is an extent whose end does not fit. -/
theorem chunkSpan_end_wraps :
    parseHead (buildHead (oneByteChunks (2 ^ 63)).head ++ []) = .ok (oneByteChunks (2 ^ 63)).head ∧
    ∃ span, (oneByteChunks (2 ^ 63)).chunkSpanU64 (2 ^ 59) (2 ^ 59) = .ok span ∧
      2 ^ 64 ≤ span.ciphertextOffset + span.ciphertextLen := by
  refine ⟨(oneByteChunks_valid _).parseHead [],
    (oneByteChunks (2 ^ 63)).run (2 ^ 59) (2 ^ 59), ?_, by decide +kernel⟩
  rw [chunkSpanU64_eq (by decide), lift_eq_ok]
  exact (chunkSpan_eq_ok (by decide) (by decide) (by decide)).mpr
    ⟨⟨by decide +kernel, by decide +kernel⟩, rfl⟩

end RangeHeader

end Dctl.Object
