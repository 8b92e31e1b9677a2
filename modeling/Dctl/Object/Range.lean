import Dctl.Object.Reader

/-! Random access to a DSF1 object (`object/range.rs`): a header decoded from a prefix of the
object, the byte extent of the chunks that cover a window, and the window read from exactly those
bytes. -/

namespace Dctl.Object

open ProofKit Crypto List

variable (P : Primitives)

/-- Whether a prefix holds the whole header, whose length is given, or how many bytes to ask for. -/
inductive HeaderExtent where
  | complete (len : Nat)
  | short (need : Nat)
  deriving DecidableEq, Repr

@[simp, reducible] def minProbeLen : Nat := objectHeadLen + 2

def headerExtent (bytes : Bytes) : Except CryptoError HeaderExtent :=
  if bytes.length < minProbeLen then pure (.short minProbeLen)
  else do
    let head ← parseHead bytes
    let kemCtLen ← readU16 bytes objectHeadLen
    reject (head.kemId = kemIdNone ∧ kemCtLen ≠ 0) (.format "kem_ct_len must be 0 for kem_id=0")
    reject (head.kemId = kemIdHybrid ∧ kemCtLen = 0)
      (.format "kem_ct_len must be non-zero for kem_id=1")
    let metaLenAt := minProbeLen + kemCtLen + wrappedDekLen
    let throughMetaLen := metaLenAt + 4
    if bytes.length < throughMetaLen then pure (.short throughMetaLen)
    else
      let metaLen ← readU32 bytes metaLenAt
      reject (metaLen < metaMinLen ∨ metaMaxLen < metaLen) (.format "meta_len out of range")
      let headerLen := throughMetaLen + metaLen
      if bytes.length < headerLen then pure (.short headerLen) else pure (.complete headerLen)

/-- A decoded header: the data key and the geometry of an object. -/
structure RangeHeader where
  head : Head
  headBytes : Bytes
  dek : Key
  payloadStart : Nat
  metadata : Option Metadata

/-- The byte extent that covers a window, and where the window sits in its plaintext. -/
structure ChunkSpan where
  firstChunk : Nat
  chunkCount : Nat
  ciphertextOffset : Nat
  ciphertextLen : Nat
  windowOffset : Nat
  windowLen : Nat
  deriving DecidableEq, Repr

def ChunkSpan.empty : ChunkSpan where
  firstChunk := 0
  chunkCount := 0
  ciphertextOffset := 0
  ciphertextLen := 0
  windowOffset := 0
  windowLen := 0

def checked (what : String) (n : Nat) : Except CryptoError Nat :=
  okOr (.format ("object geometry overflows a byte offset (" ++ what ++ ")")) (checkedU64 n)

namespace RangeHeader

def decode (wrappingKey : Key) (bytes : Bytes) (expectedKemId : UInt8) :
    Except CryptoError RangeHeader := do
  match ← headerExtent bytes with
  | .short _ => throw (.format "object header prefix too short to decode")
  | .complete headerLen =>
    let head ← parseHead bytes
    reject (head.kemId ≠ expectedKemId)
      (.format ("object kem_id " ++ toString head.kemId ++ " needs the other range opener"))
    let kemCtLen ← readU16 bytes objectHeadLen
    let dekOffset := minProbeLen + kemCtLen
    let (dek, metadata, payloadStart) ←
      decodeDekAndMeta P wrappingKey (bytes.take headerLen) head dekOffset
    reject (payloadStart ≠ headerLen)
      (.format "object header length disagrees with its own field walk")
    pure { head, headBytes := bytes.take objectHeadLen, dek, payloadStart, metadata }

def openRoot (rootKey : Key) (bytes : Bytes) : Except CryptoError RangeHeader :=
  decode P rootKey bytes kemIdNone

def openWithKw (kw : Key) (bytes : Bytes) : Except CryptoError RangeHeader :=
  decode P kw bytes kemIdHybrid

variable (h : RangeHeader)

/-- The extent of `count` chunks from chunk `first` on, with all their plaintext as the window. -/
def chunkSpan (first count : Nat) : Except CryptoError ChunkSpan :=
  let chunkCount := h.head.chunkCount.toNat
  let chunkSize := h.head.chunkSize.toNat
  if chunkCount ≤ first ∨ count = 0 then pure .empty
  else do
    let count := min count (chunkCount - first)
    let last := first + count - 1
    let stride ← checked "chunk stride" (chunkSize + tagLen)
    let skip ← checked "chunk offset" (first * stride)
    let ciphertextOffset ← checked "chunk offset" (h.payloadStart + skip)
    let lastCt ← checked "chunk length"
      (chunkPlaintextLen h.head.plaintextLen.toNat chunkSize last + tagLen)
    let full ← checked "span length" ((count - 1) * stride)
    let ciphertextLen ← checked "span length" (full + lastCt)
    let tags ← checked "span plaintext" (count * tagLen)
    reject (ciphertextLen < tags)
      (.format "object geometry overflows a byte offset (span plaintext)")
    pure { firstChunk := first, chunkCount := count, ciphertextOffset, ciphertextLen,
           windowOffset := 0, windowLen := ciphertextLen - tags }

/-- The extent that covers the bytes from `offset` on, `length` of them or all. -/
def span (offset : Nat) (length : Option Nat) : Except CryptoError ChunkSpan :=
  let plaintextLen := h.head.plaintextLen.toNat
  if plaintextLen ≤ offset then pure .empty
  else
    let available := plaintextLen - offset
    let want := length.elim available fun len => min len available
    if want = 0 then pure .empty
    else do
      let chunkSize := h.head.chunkSize.toNat
      let first := offset / chunkSize
      let last := (offset + want - 1) / chunkSize
      let span ← h.chunkSpan first (last - first + 1)
      pure { span with windowOffset := offset - first * chunkSize, windowLen := want }

variable {σ : Type}

def openChunksLoop (ciphertext : Bytes) (emit : σ → Nat → Bytes → Except CryptoError σ) :
    (remaining index start : Nat) → σ → Except CryptoError σ
  | 0, _, _, s => pure s
  | remaining + 1, index, start, s => do
    let thisPt := chunkPlaintextLen h.head.plaintextLen.toNat h.head.chunkSize.toNat index
    reject (ciphertext.length < start + (thisPt + tagLen))
      (.format "ranged read truncated (chunk)")
    let plaintext ← decryptChunk P h.dek h.head h.headBytes index
      ((ciphertext.drop start).take (thisPt + tagLen))
    let s ← emit s index plaintext
    openChunksLoop ciphertext emit remaining (index + 1) (start + (thisPt + tagLen)) s

def openChunks (span : ChunkSpan) (ciphertext : Bytes)
    (emit : σ → Nat → Bytes → Except CryptoError σ) (s : σ) : Except CryptoError σ := do
  reject (ciphertext.length ≠ span.ciphertextLen)
    (.format "ranged read returned the wrong number of bytes")
  h.openChunksLoop P ciphertext emit span.chunkCount span.firstChunk 0 s

def windowStep (span : ChunkSpan) (s : Bytes × Nat) (plaintext : Bytes) : Bytes × Nat :=
  let (out, seen) := s
  let windowEnd := min (span.windowOffset + span.windowLen) (2 ^ 64 - 1)
  let start := min (span.windowOffset - seen) plaintext.length
  let stop := min (windowEnd - seen) plaintext.length
  (if start < stop then out ++ (plaintext.take stop).drop start else out, seen + plaintext.length)

def readWindow (span : ChunkSpan) (ciphertext : Bytes) : Except CryptoError Bytes := do
  let (out, _) ← h.openChunks P span ciphertext
    (fun s _ plaintext => pure (windowStep span s plaintext)) ([], 0)
  reject (out.length ≠ span.windowLen) (.format "ranged read length mismatch")
  pure out

end RangeHeader

variable {P : Primitives}

/-- The recipient-wrap block is there exactly when the head says so. -/
structure Header.KemMatches (h : Header) : Prop where
  none : h.head.kemId = kemIdNone → h.kemWrap = []
  hybrid : h.head.kemId = kemIdHybrid → h.kemWrap ≠ []

theorem Header.KemMatches.kemCtLen {h : Header} (hk : h.KemMatches) :
    ¬(h.head.kemId = kemIdNone ∧ h.kemWrap.length ≠ 0) ∧
      ¬(h.head.kemId = kemIdHybrid ∧ h.kemWrap.length = 0) := by
  refine ⟨fun ⟨hid, hlen⟩ => hlen (by simp [hk.none hid]), fun ⟨hid, hlen⟩ => hk.hybrid hid ?_⟩
  exact length_eq_zero_iff.mp hlen

/-- What is measured of a prefix of `n` bytes of an object. -/
theorem Header.headerExtent_take {h : Header} (hk : h.KemMatches) (extra : Bytes) {n : Nat}
    (hn : n ≤ (h.bytes ++ extra).length) :
    headerExtent ((h.bytes ++ extra).take n) = .ok (
      if n < 70 then .short 70
      else if n < 146 + h.kemWrap.length then .short (146 + h.kemWrap.length)
      else if n < h.bytes.length then .short h.bytes.length
      else .complete h.bytes.length) := by
  have hlen : ((h.bytes ++ extra).take n).length = n := by
    rw [length_take, Nat.min_eq_left hn]
  have hm := h.metaBlob_len
  rw [headerExtent, hlen]
  split
  · rfl
  next hprobe =>
    have hprobe : 70 ≤ n := not_lt.mp hprobe
    have hfront : (h.bytes ++ extra).take n = buildHead h.head ++ (le 2 h.kemWrap.length ++
        (h.kemWrap ++ (h.wrappedDek.bytes ++ (le 4 h.metaBlob.length ++
          (h.metaBlob ++ extra)))).take (n - 70)) := by
      rw [h.bytes_append, take_append, take_append, length_buildHead, length_le,
        take_of_length_le (by simp; omega), take_of_length_le (by simp; omega)]
      simp only [objectHeadLen, Nat.sub_sub]
    obtain ⟨hhead, hkemCtLen⟩ := parseHead_readU16_eq_ok.mpr
      ⟨_, hfront, h.head_valid, h.kemWrap_le⟩
    have hmetaAt : leAt (h.bytes ++ extra) (142 + h.kemWrap.length) 4 = h.metaBlob.length := by
      refine leAt_eq (t := h.metaBlob ++ extra) ?_ (by simp only [metaMaxLen] at hm; omega)
      have hdrop : (h.bytes ++ extra).drop (142 + h.kemWrap.length) =
          ((h.preamble ++ h.wrappedDek.bytes) ++ (le 4 h.metaBlob.length ++
            (h.metaBlob ++ extra))).drop (142 + h.kemWrap.length) := by
        simp [Header.bytes]
      rw [hdrop, drop_left']
      simp
      omega
    rw [hhead, ok_bind, hkemCtLen, ok_bind]
    simp only [reject, if_neg hk.kemCtLen.1, if_neg hk.kemCtLen.2, ok_bind]
    have hthrough : minProbeLen + h.kemWrap.length + wrappedDekLen + 4 =
        146 + h.kemWrap.length := by
      simp only [minProbeLen, objectHeadLen, wrappedDekLen]
      omega
    rw [hthrough]
    split
    · rfl
    next hmeta =>
      have hread : readU32 ((h.bytes ++ extra).take n)
          (minProbeLen + h.kemWrap.length + wrappedDekLen) = .ok h.metaBlob.length := by
        rw [show minProbeLen + h.kemWrap.length + wrappedDekLen = 142 + h.kemWrap.length by omega]
        simp only [readU32, bind_eq_ok, reject_eq_ok, pure_eq_ok]
        exact ⟨(), by omega, by rw [leAt_take (by omega), hmetaAt]⟩
      rw [hread, ok_bind, if_neg (by omega), ok_bind, h.length_bytes]
      split <;> rfl

theorem headerExtent_eq_complete {bytes : Bytes} {len : Nat} :
    headerExtent bytes = .ok (.complete len) ↔
      ∃ (h : Header) (extra : Bytes), bytes = h.bytes ++ extra ∧ h.KemMatches ∧
        len = h.bytes.length := by
  constructor
  · intro hext
    simp only [headerExtent] at hext
    split at hext
    · cases hext
    simp only [bind_eq_ok, reject_eq_ok, not_and] at hext
    obtain ⟨head, hhead, kemCtLen, hkem, _, hnone, _, hhybrid, hext⟩ := hext
    obtain ⟨rest, hbytes, hv, hk⟩ := parseHead_readU16_eq_ok.mp ⟨hhead, hkem⟩
    split at hext
    · cases hext
    next hthrough =>
    simp only [bind_eq_ok, reject_eq_ok, readU32, pure_eq_ok] at hext
    obtain ⟨metaLen, ⟨_, -, hmeta⟩, _, hmetaLen, hext⟩ := hext
    split at hext
    · cases hext
    next hlen =>
    simp only [pure_eq_ok, HeaderExtent.complete.injEq] at hext
    simp only [minProbeLen, objectHeadLen, wrappedDekLen, not_lt] at hthrough hmeta hlen hext
    have hfront : bytes = buildHead head ++ (le 2 kemCtLen ++ bytes.drop 70) := by
      have hdrop : bytes.drop 70 = rest := by
        rw [hbytes, ← append_assoc, drop_left' (by simp)]
      rw [hdrop, ← hbytes]
    have hwrapLen : ((bytes.drop 70).take kemCtLen).length = kemCtLen := by
      simp only [length_take, length_drop]
      omega
    have hmetaBlobLen : ((bytes.drop (68 + 2 + kemCtLen + 72 + 4)).take metaLen).length =
        metaLen := by
      simp only [length_take, length_drop]
      omega
    obtain ⟨h, rfl, hwrap, hdek, hblob⟩ : ∃ h : Header, h.head = head ∧
        h.kemWrap = (bytes.drop 70).take kemCtLen ∧
        h.wrappedDek = Block.slice wrappedDekLen bytes (70 + kemCtLen) ∧
        h.metaBlob = (bytes.drop (68 + 2 + kemCtLen + 72 + 4)).take metaLen :=
      ⟨{ head, kemWrap := _, wrappedDek := _, metaBlob := _, head_valid := hv,
         kemWrap_le := by rw [hwrapLen]; exact hk
         metaBlob_len := by rw [hmetaBlobLen]; omega }, rfl, rfl, rfl, rfl⟩
    rw [← hwrap] at hwrapLen
    rw [← hblob] at hmetaBlobLen
    refine ⟨h, bytes.drop (70 + kemCtLen + wrappedDekLen + 4 + metaLen), ?_, ⟨?_, ?_⟩, ?_⟩
    · rw [Header.bytes_append, hwrapLen, hmetaBlobLen]
      conv_lhs =>
        rw [hfront, drop_eq_take_append (i := 70) (n := kemCtLen) hwrap.symm,
          Block.drop_eq_slice_append (i := 70 + kemCtLen) wrappedDekLen (by simp; omega), ← hdek,
          drop_eq_le_append (i := 70 + kemCtLen + wrappedDekLen) 4 (by simp; omega), hmeta,
          drop_eq_take_append (i := 70 + kemCtLen + wrappedDekLen + 4) (n := metaLen) hblob.symm]
    · intro hid
      have := hnone hid
      exact length_eq_zero_iff.mp (by omega)
    · intro hid hnil
      rw [hnil] at hwrapLen
      exact hhybrid hid hwrapLen.symm
    · rw [Header.length_bytes, hwrapLen, hmetaBlobLen, ← hext]
      omega
  · rintro ⟨h, extra, rfl, hkem, rfl⟩
    have hfull := h.headerExtent_take hkem extra (Nat.le_refl _)
    have hlen : 70 ≤ h.bytes.length ∧ 146 + h.kemWrap.length ≤ h.bytes.length := by
      rw [h.length_bytes]
      omega
    rw [take_length, length_append, if_neg (by omega), if_neg (by omega),
      if_neg (by omega)] at hfull
    exact hfull

theorem Header.decode_append_eq_ok {h : Header} (hk : h.KemMatches) (extra : Bytes) {key : Key}
    {kemId : UInt8} {r : RangeHeader} :
    RangeHeader.decode P key (h.bytes ++ extra) kemId = .ok r ↔
      h.head.kemId = kemId ∧ h.Opens P key r.dek r.metadata ∧ r.head = h.head ∧
        r.headBytes = buildHead h.head ∧ r.payloadStart = h.bytes.length := by
  have hext := headerExtent_eq_complete.mpr ⟨h, extra, rfl, hk, rfl⟩
  obtain ⟨hparse, hkemCtLen⟩ := parseHead_readU16_eq_ok.mpr
    ⟨_, h.bytes_append extra, h.head_valid, h.kemWrap_le⟩
  simp only [RangeHeader.decode, hext, hparse, hkemCtLen, ok_bind, bind_eq_ok, reject_eq_ok,
    pure_eq_ok, Prod.exists, ne_eq, not_not, take_left, h.take_bytes,
    h.decodeDekAndMeta_bytes_eq_ok]
  constructor
  · rintro ⟨_, rfl, dek, metadata, _, ⟨hopen, rfl⟩, _, -, rfl⟩
    exact ⟨rfl, hopen, rfl, rfl, rfl⟩
  · rintro ⟨rfl, hopen, hhead, hheadBytes, hstart⟩
    refine ⟨(), rfl, r.dek, r.metadata, _, ⟨hopen, rfl⟩, (), rfl, ?_⟩
    cases r
    simp only at hhead hheadBytes hstart
    simp only [hhead, hheadBytes, hstart]

variable {r : RangeHeader}

theorem Header.decode_bytes_eq_ok {h : Header} (hk : h.KemMatches) {key : Key} {kemId : UInt8} :
    RangeHeader.decode P key h.bytes kemId = .ok r ↔
      h.head.kemId = kemId ∧ h.Opens P key r.dek r.metadata ∧ r.head = h.head ∧
        r.headBytes = buildHead h.head ∧ r.payloadStart = h.bytes.length := by
  have hdecode := @decode_append_eq_ok P h hk [] key kemId r
  rwa [append_nil] at hdecode

theorem RangeHeader.decode_eq_ok {key : Key} {bytes : Bytes} {kemId : UInt8} :
    RangeHeader.decode P key bytes kemId = .ok r ↔
      ∃ (h : Header) (extra : Bytes), bytes = h.bytes ++ extra ∧ h.KemMatches ∧
        h.head.kemId = kemId ∧ h.Opens P key r.dek r.metadata ∧ r.head = h.head ∧
        r.headBytes = buildHead h.head ∧ r.payloadStart = h.bytes.length := by
  constructor
  · intro hdecode
    have hdecode' := hdecode
    simp only [RangeHeader.decode, bind_eq_ok] at hdecode
    obtain ⟨ext, hext, hdecode⟩ := hdecode
    cases ext with
    | short need => exact absurd hdecode throw_ne_ok
    | complete len =>
      obtain ⟨h, extra, rfl, hk, rfl⟩ := headerExtent_eq_complete.mp hext
      exact ⟨h, extra, rfl, hk, (Header.decode_append_eq_ok hk extra).mp hdecode'⟩
  · rintro ⟨h, extra, rfl, hk, hdecoded⟩
    exact (Header.decode_append_eq_ok hk extra).mpr hdecoded

/-- The extent of `n` chunks from chunk `first` on, of which every one in front of the last is full.
-/
def RangeHeader.run (r : RangeHeader) (first n : Nat) : ChunkSpan :=
  let stride := r.head.chunkSize.toNat + tagLen
  let last := chunkPlaintextLen r.head.plaintextLen.toNat r.head.chunkSize.toNat (first + n - 1)
  { firstChunk := first, chunkCount := n, ciphertextOffset := r.payloadStart + first * stride,
    ciphertextLen := (n - 1) * stride + (last + tagLen), windowOffset := 0,
    windowLen := (n - 1) * stride + (last + tagLen) - n * tagLen }

theorem checked_eq_ok {what : String} {n m : Nat} :
    checked what n = .ok m ↔ n < 2 ^ 64 ∧ m = n := by
  simp only [checked, checkedU64, okOr_eq_ok, Option.ite_none_right_eq_some, Option.some.injEq]
  exact and_congr_right fun _ => eq_comm

theorem RangeHeader.chunkSpan_eq_ok {r : RangeHeader} {first count n : Nat} {span : ChunkSpan}
    (hfirst : first < r.head.chunkCount.toNat) (hcount : 0 < count)
    (hn : n = min count (r.head.chunkCount.toNat - first)) :
    r.chunkSpan first count = .ok span ↔
      ((r.run first n).ciphertextOffset < 2 ^ 64 ∧ (r.run first n).ciphertextLen < 2 ^ 64) ∧
        span = r.run first n := by
  simp only [chunkSpan, if_neg (show ¬(r.head.chunkCount.toNat ≤ first ∨ count = 0) by omega), ← hn,
    bind_eq_ok, checked_eq_ok, reject_eq_ok, pure_eq_ok, run]
  have hcs : r.head.chunkSize.toNat < 2 ^ 32 := r.head.chunkSize.toNat_lt
  have htags : n * tagLen ≤ (n - 1) * (r.head.chunkSize.toNat + tagLen) + tagLen := by
    obtain ⟨k, rfl⟩ : ∃ k, n = k + 1 := ⟨n - 1, by omega⟩
    rw [Nat.add_sub_cancel, Nat.succ_mul]
    exact Nat.add_le_add_right (Nat.mul_le_mul_left k (Nat.le_add_left _ _)) _
  generalize hlast : chunkPlaintextLen r.head.plaintextLen.toNat r.head.chunkSize.toNat
    (first + n - 1) = last
  generalize hstride : r.head.chunkSize.toNat + tagLen = stride at *
  simp only [tagLen] at *
  constructor
  · rintro ⟨_, ⟨-, rfl⟩, _, ⟨-, rfl⟩, _, ⟨hoffset, rfl⟩, _, ⟨-, rfl⟩, _, ⟨-, rfl⟩, _, ⟨hlen, rfl⟩,
      _, ⟨-, rfl⟩, _, -, rfl⟩
    exact ⟨⟨hoffset, hlen⟩, rfl⟩
  · rintro ⟨⟨hoffset, hlen⟩, rfl⟩
    exact ⟨stride, ⟨by omega, rfl⟩, _, ⟨by omega, rfl⟩, _, ⟨hoffset, rfl⟩, _, ⟨by omega, rfl⟩, _,
      ⟨by omega, rfl⟩, _, ⟨hlen, rfl⟩, _, ⟨by omega, rfl⟩, (), by omega, rfl⟩

theorem RangeHeader.run_eq (hv : r.head.Valid) {first n : Nat} (hn : 0 < n)
    (hlast : first + n ≤ r.head.chunkCount.toNat) :
    (r.run first n).ciphertextOffset = r.payloadStart +
        (min r.head.plaintextLen.toNat (first * r.head.chunkSize.toNat) + first * tagLen) ∧
      (r.run first n).ciphertextLen =
        min r.head.plaintextLen.toNat ((first + n) * r.head.chunkSize.toNat) -
          first * r.head.chunkSize.toNat + n * tagLen := by
  have hcs := hv.chunkSize_toNat_pos
  have hbefore : (first + n - 1) * r.head.chunkSize.toNat < r.head.plaintextLen.toNat := by
    rw [← lt_divCeil_iff hcs, ← hv.chunkCount]
    omega
  obtain ⟨k, rfl⟩ : ∃ k, n = k + 1 := ⟨n - 1, by omega⟩
  simp only [run, chunkPlaintextLen_eq r.head.plaintextLen.toNat_lt, Nat.add_sub_cancel,
    show first + (k + 1) - 1 = first + k by omega] at hbefore ⊢
  generalize r.head.chunkSize.toNat = cs at *
  have hsum : (first + k) * cs = first * cs + k * cs := Nat.add_mul ..
  have hsucc : (first + (k + 1)) * cs = first * cs + k * cs + cs := by
    rw [← Nat.add_assoc, Nat.succ_mul, hsum]
  have hskip : first * (cs + tagLen) = first * cs + first * tagLen := Nat.mul_add ..
  have hfull : k * (cs + tagLen) = k * cs + k * tagLen := Nat.mul_add ..
  have htags : (k + 1) * tagLen = k * tagLen + tagLen := Nat.succ_mul ..
  simp only [hsum, hsucc, hskip, hfull, htags] at *
  omega

variable {σ : Type}

/-- The consumer of a span's chunks, from number `index` on. -/
def emitAll (emit : σ → Nat → Bytes → Except CryptoError σ) (index : Nat) (pts : List Bytes)
    (s : σ) : Except CryptoError σ :=
  (pts.zipIdx index).foldlM (fun s p => emit s p.2 p.1) s

theorem RangeHeader.openChunksLoop_eq_ok (hhead : r.headBytes = buildHead r.head)
    {ciphertext : Bytes} {emit : σ → Nat → Bytes → Except CryptoError σ} {n index start : Nat}
    (hstart : start ≤ ciphertext.length) {s s' : σ} :
    r.openChunksLoop P ciphertext emit n index start s = .ok s' ↔
      ∃ cts pts tail, ChunksOpen P r.dek r.head index n cts pts ∧
        ciphertext.drop start = cts.flatten ++ tail ∧ emitAll emit index pts s = .ok s' := by
  induction n generalizing index start s with
  | zero =>
    simp only [openChunksLoop, pure_eq_ok]
    constructor
    · rintro rfl
      exact ⟨[], [], _, .nil _, rfl, rfl⟩
    · rintro ⟨cts, pts, tail, hopen, -, hfold⟩
      cases hopen
      simpa [emitAll, pure, Except.pure] using hfold
  | succ n ih =>
    simp only [openChunksLoop, bind_eq_ok, reject_eq_ok, not_lt, hhead]
    generalize hctLen : chunkPlaintextLen r.head.plaintextLen.toNat r.head.chunkSize.toNat index +
      tagLen = ctLen
    constructor
    · rintro ⟨_, hfits, pt, hpt, s1, hs1, hrest⟩
      obtain ⟨cts, pts, tail, hopen, hbytes, hfold⟩ := (ih hfits).mp hrest
      have hlen : ((ciphertext.drop start).take ctLen).length = ctLen := by simp; omega
      refine ⟨(ciphertext.drop start).take ctLen :: cts, pt :: pts, tail,
        .cons (by rw [hlen, hctLen]) hpt hopen, ?_, ?_⟩
      · conv_lhs => rw [drop_eq_take_append (n := ctLen) rfl, hbytes]
        rw [flatten_cons, append_assoc]
      · simp only [emitAll, zipIdx_cons, foldlM_cons, hs1, ok_bind]
        exact hfold
    · rintro ⟨cts, pts, tail, hopen, hbytes, hfold⟩
      cases hopen with
      | @cons _ _ ct pt cts pts hlen hdecrypt hopen =>
        rw [hctLen] at hlen
        rw [flatten_cons, append_assoc] at hbytes
        simp only [emitAll, zipIdx_cons, foldlM_cons, bind_eq_ok] at hfold
        obtain ⟨s1, hs1, hfold⟩ := hfold
        have hfits : start + ctLen ≤ ciphertext.length := by
          have h := congrArg List.length hbytes
          simp only [length_drop, length_append] at h
          omega
        have hct : (ciphertext.drop start).take ctLen = ct := by
          rw [hbytes, take_left' hlen]
        have hnext : ciphertext.drop (start + ctLen) = cts.flatten ++ tail := by
          rw [← drop_drop, hbytes, drop_left' hlen]
        exact ⟨(), hfits, pt, by rw [hct]; exact hdecrypt, s1, hs1, (ih hfits).mpr
          ⟨cts, pts, tail, hopen, hnext, hfold⟩⟩

theorem RangeHeader.openChunks_eq_ok (hhead : r.headBytes = buildHead r.head) {span : ChunkSpan}
    {ciphertext : Bytes} {emit : σ → Nat → Bytes → Except CryptoError σ} {s s' : σ} :
    r.openChunks P span ciphertext emit s = .ok s' ↔
      ciphertext.length = span.ciphertextLen ∧
      ∃ cts pts tail, ChunksOpen P r.dek r.head span.firstChunk span.chunkCount cts pts ∧
        ciphertext = cts.flatten ++ tail ∧ emitAll emit span.firstChunk pts s = .ok s' := by
  simp only [openChunks, bind_eq_ok, reject_eq_ok, ne_eq, not_not,
    openChunksLoop_eq_ok hhead (Nat.zero_le _), drop_zero]
  constructor
  · rintro ⟨_, hlen, h⟩
    exact ⟨hlen, h⟩
  · rintro ⟨hlen, h⟩
    exact ⟨(), hlen, h⟩

theorem Frame.Opens.length_eq_of_append {P : Primitives} {f f' : Frame} {key key' dek dek' : Key}
    {metadata metadata' : Option Metadata} {pts pts' : List Bytes}
    (hf : f.Opens P key dek metadata pts) (hf' : f'.Opens P key' dek' metadata' pts')
    (hk : f.toHeader.KemMatches) (hk' : f'.toHeader.KemMatches) {extra extra' : Bytes}
    (h : f.bytes ++ extra = f'.bytes ++ extra') : f.bytes.length = f'.bytes.length := by
  rw [f.bytes_eq, f'.bytes_eq, append_assoc f.toHeader.bytes,
    append_assoc f'.toHeader.bytes] at h
  have hext : headerExtent (f.toHeader.bytes ++ (f.chunks.flatten ++ f.footer ++ extra)) =
      .ok (.complete f.toHeader.bytes.length) :=
    headerExtent_eq_complete.mpr ⟨f.toHeader, _, rfl, hk, rfl⟩
  have hheader : f.toHeader.bytes.length = f'.toHeader.bytes.length := by
    rw [headerExtent_eq_complete.mpr ⟨f'.toHeader, _, h, hk', rfl⟩, Except.ok.injEq,
      HeaderExtent.complete.injEq] at hext
    exact hext.symm
  have hhead : f.head = f'.head := by
    have hparse := f.head_valid.parseHead
    have hparse' := f'.head_valid.parseHead
    rw [f.toHeader.bytes_append, f'.toHeader.bytes_append] at h
    have heq := hparse (le 2 f.kemWrap.length ++ (f.kemWrap ++ (f.wrappedDek.bytes ++
      (le 4 f.metaBlob.length ++ (f.metaBlob ++ (f.chunks.flatten ++ f.footer ++ extra))))))
    rw [h, hparse', Except.ok.injEq] at heq
    exact heq.symm
  rw [f.bytes_eq, f'.bytes_eq, length_append, length_append, length_append,
    length_append, hheader, hf.chunks.length_flatten_cts_eq, hf'.chunks.length_flatten_cts_eq,
    hf.length_footer, hf'.length_footer, hhead]

end Dctl.Object
