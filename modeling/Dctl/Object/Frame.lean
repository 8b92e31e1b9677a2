import Dctl.Object.Stream

/-! What a DSF1 object is, apart from any procedure that reads one: a frame of fields whose bytes
are their concatenation, and what it means for the fields to open under a key.  The chunk loops of
the readers are related to this here; `Dctl.Object.Reader` shows that each reader accepts exactly
the frames that open. -/

namespace Dctl.Object

open ProofKit Crypto List

structure Header where
  head : Head
  kemWrap : Bytes
  wrappedDek : Block wrappedDekLen
  metaBlob : Bytes
  head_valid : head.Valid
  kemWrap_le : kemWrap.length ≤ 65535
  metaBlob_len : metaMinLen ≤ metaBlob.length ∧ metaBlob.length ≤ metaMaxLen

namespace Header

def headBytes (h : Header) : Bytes := buildHead h.head

def preamble (h : Header) : Bytes := h.headBytes ++ le 2 h.kemWrap.length ++ h.kemWrap

def bytes (h : Header) : Bytes :=
  h.preamble ++ h.wrappedDek.bytes ++ le 4 h.metaBlob.length ++ h.metaBlob

@[simp] theorem length_preamble (h : Header) : h.preamble.length = 70 + h.kemWrap.length := by
  simp [preamble, headBytes]
  omega

@[simp] theorem length_bytes (h : Header) :
    h.bytes.length = 146 + h.kemWrap.length + h.metaBlob.length := by
  simp [bytes]
  omega

theorem bytes_append (h : Header) (extra : Bytes) : h.bytes ++ extra =
    buildHead h.head ++ (le 2 h.kemWrap.length ++ (h.kemWrap ++ (h.wrappedDek.bytes ++
      (le 4 h.metaBlob.length ++ (h.metaBlob ++ extra))))) := by
  simp [bytes, preamble, headBytes]

theorem take_bytes (h : Header) (extra : Bytes) :
    (h.bytes ++ extra).take objectHeadLen = buildHead h.head := by
  rw [bytes_append, take_left' (length_buildHead h.head)]

end Header

structure Frame extends Header where
  chunks : List Bytes
  footer : Bytes

namespace Frame

def header (f : Frame) : Bytes := f.toHeader.bytes

def body (f : Frame) : Bytes := f.header ++ f.chunks.flatten

def bytes (f : Frame) : Bytes := f.body ++ f.footer

@[simp] theorem length_header (f : Frame) :
    f.header.length = 146 + f.kemWrap.length + f.metaBlob.length := f.toHeader.length_bytes

theorem bytes_eq (f : Frame) : f.bytes = f.toHeader.bytes ++ (f.chunks.flatten ++ f.footer) := by
  simp [bytes, body, header]

theorem bytes_append_eq (f : Frame) (extra : Bytes) :
    f.bytes ++ extra = f.toHeader.bytes ++ (f.chunks.flatten ++ f.footer ++ extra) := by
  rw [f.bytes_eq, append_assoc]

end Frame

variable (P : Primitives)

/-- The ciphertexts of `n` consecutive chunks from number `index` on have the lengths that the head
gives them and decrypt to the plaintexts. -/
inductive ChunksOpen (dek : Key) (head : Head) : (index n : Nat) → (cts pts : List Bytes) → Prop
  | nil (index : Nat) : ChunksOpen dek head index 0 [] []
  | cons {index n : Nat} {ct pt : Bytes} {cts pts : List Bytes}
      (length : ct.length =
        chunkPlaintextLen head.plaintextLen.toNat head.chunkSize.toNat index + tagLen)
      (decrypt : decryptChunk P dek head (buildHead head) index ct = .ok pt)
      (tail : ChunksOpen dek head (index + 1) n cts pts) :
      ChunksOpen dek head index (n + 1) (ct :: cts) (pt :: pts)

/-- The header opens under `key` to the data key and the metadata. -/
structure Header.Opens (key : Key) (h : Header) (dek : Key) (metadata : Option Metadata) :
    Prop where
  unwrap : Aead.decrypt P key h.wrappedDek.bytes (prefixedAad dekWrapAadPrefix h.headBytes) =
    .ok dek.bytes
  decode : decodeMeta P dek h.head h.headBytes h.metaBlob = .ok metadata

/-- The frame opens under `key` to the data key, the metadata and the plaintext of each chunk. -/
structure Frame.Opens (key : Key) (f : Frame) (dek : Key) (metadata : Option Metadata)
    (pts : List Bytes) : Prop extends f.toHeader.Opens P key dek metadata where
  chunks : ChunksOpen P dek f.head 0 f.head.chunkCount.toNat f.chunks pts
  produced : pts.flatten.length = f.head.plaintextLen.toNat
  footer : f.footer = if f.head.hasFooter then (P.hash f.body).bytes else []

def OpensTo (key : Key) (blob : Bytes) (metadata : Option Metadata) (pts : List Bytes) : Prop :=
  ∃ (f : Frame) (dek : Key), f.head.kemId = kemIdNone ∧ f.kemWrap = [] ∧
    f.Opens P key dek metadata pts ∧ blob = f.bytes

variable {P} {σ : Type} {dek : Key} {head : Head}

/-- The chunk loop over a byte string in memory succeeds exactly when the bytes in front of
`bodyEnd` go on with chunks that open and the consumer takes their plaintexts. -/
theorem openChunks_eq_ok {blob : Bytes} {bodyEnd : Nat} {emit : σ → Bytes → Except CryptoError σ}
    (hend : bodyEnd ≤ blob.length) {n index p produced : Nat} {s : σ} (hp : p ≤ bodyEnd)
    {p' produced' : Nat} {s' : σ} :
    openChunks P id dek head (buildHead head) blob bodyEnd emit n index p produced s =
        .ok (p', produced', s') ↔
      ∃ cts pts tail, ChunksOpen P dek head index n cts pts ∧
        (blob.take bodyEnd).drop p = cts.flatten ++ tail ∧ p' = p + cts.flatten.length ∧
        produced' = produced + pts.flatten.length ∧ pts.foldlM emit s = .ok s' := by
  induction n generalizing index p produced s with
  | zero =>
    simp only [openChunks, pure_eq_ok, Prod.mk.injEq]
    constructor
    · rintro ⟨rfl, rfl, rfl⟩
      exact ⟨[], [], _, .nil _, rfl, rfl, rfl, rfl⟩
    · rintro ⟨cts, pts, tail, hopen, -, rfl, rfl, hfold⟩
      cases hopen
      exact ⟨rfl, rfl, by simpa using hfold⟩
  | succ n ih =>
    simp only [openChunks, bind_eq_ok, reject_eq_ok, mapError_eq_ok, not_lt]
    generalize hctLen : chunkPlaintextLen head.plaintextLen.toNat head.chunkSize.toNat index +
      tagLen = ctLen
    constructor
    · rintro ⟨_, hfits, pt, hpt, s1, hs1, hrest⟩
      obtain ⟨cts, pts, tail, hopen, hbytes, rfl, rfl, hfold⟩ := (ih hfits).mp hrest
      have hct : ((blob.take bodyEnd).drop p).take ctLen = (blob.drop p).take ctLen := by
        rw [drop_take, take_take, Nat.min_eq_left (by omega)]
      have hlen : ((blob.drop p).take ctLen).length = ctLen := by simp; omega
      refine ⟨(blob.drop p).take ctLen :: cts, pt :: pts, tail,
        .cons (by rw [hlen, hctLen]) hpt hopen, ?_, ?_, ?_, ?_⟩
      · rw [drop_eq_take_append hct, hbytes, flatten_cons, append_assoc]
      · rw [flatten_cons, length_append, hlen, Nat.add_assoc]
      · rw [flatten_cons, length_append, Nat.add_assoc]
      · rw [foldlM_cons, hs1, ok_bind, hfold]
    · rintro ⟨cts, pts, tail, hopen, hbytes, rfl, rfl, hfold⟩
      cases hopen with
      | @cons _ _ ct pt cts pts hlen hdecrypt hopen =>
        rw [hctLen] at hlen
        rw [flatten_cons, append_assoc] at hbytes
        rw [foldlM_cons, bind_eq_ok] at hfold
        obtain ⟨s1, hs1, hfold⟩ := hfold
        have hfits : p + ctLen ≤ bodyEnd := by
          have h := congrArg List.length hbytes
          simp only [length_drop, length_take, length_append] at h
          omega
        have hct : (blob.drop p).take ctLen = ct := by
          have h : ((blob.take bodyEnd).drop p).take ctLen = ct := by
            rw [hbytes, take_left' hlen]
          rwa [drop_take, take_take, Nat.min_eq_left (by omega)] at h
        have hnext : (blob.take bodyEnd).drop (p + ctLen) = cts.flatten ++ tail := by
          rw [← drop_drop, hbytes, drop_left' hlen]
        refine ⟨(), hfits, pt, by rw [hct]; exact hdecrypt, s1, hs1, (ih hfits).mpr
          ⟨cts, pts, tail, hopen, hnext, ?_, ?_, hfold⟩⟩
        · rw [flatten_cons, length_append, hlen, Nat.add_assoc]
        · rw [flatten_cons, length_append, Nat.add_assoc]

theorem readFull_eq_ok {r r' : Source} {n : Nat} {bs : Bytes} (h : readFull r n = .ok (bs, r')) :
    r.rest = bs ++ r'.rest ∧ bs.length = n := by
  obtain ⟨hrest, hlen, -⟩ := Source.readExact_eq_some (okOr_eq_ok.mp h)
  exact ⟨hrest, hlen⟩

theorem readFull_append {r : Source} {n : Nat} {bs tail : Bytes} (hlen : bs.length = n)
    (h : r.rest = bs ++ tail) : ∃ r', readFull r n = .ok (bs, r') ∧ r'.rest = tail := by
  subst hlen
  obtain ⟨r', hread, hrest, -⟩ := Source.readExact_append h
  exact ⟨r', by rw [readFull, hread]; rfl, hrest⟩

theorem readChunks_eq_ok {write : Sink σ} {n index : Nat} {s s' : ReadState σ}
    (h : readChunks P dek head (buildHead head) write n index s = .ok s') :
    ∃ cts pts, ChunksOpen P dek head index n cts pts ∧
      s.object.rest = cts.flatten ++ s'.object.rest ∧ s'.hashed = s.hashed ++ cts.flatten ∧
      s'.produced = s.produced + pts.flatten.length ∧
      pts.foldlM (writeOut write) s.out = .ok s'.out := by
  induction n generalizing index s with
  | zero =>
    simp only [readChunks, pure_eq_ok] at h
    subst h
    exact ⟨[], [], .nil _, by simp, by simp, by simp, rfl⟩
  | succ n ih =>
    simp only [readChunks, bind_eq_ok, Prod.exists] at h
    obtain ⟨ct, object, hread, pt, hpt, out, hout, hrest⟩ := h
    obtain ⟨cts, pts, hopen, hbytes, hhashed, hproduced, hfold⟩ := ih hrest
    obtain ⟨hct, hlen⟩ := readFull_eq_ok hread
    refine ⟨ct :: cts, pt :: pts, .cons hlen hpt hopen, ?_, ?_, ?_, ?_⟩
    · rw [hct, hbytes, flatten_cons, append_assoc]
    · rw [hhashed, flatten_cons, append_assoc]
    · rw [hproduced, flatten_cons, length_append, Nat.add_assoc]
    · rw [foldlM_cons, hout, ok_bind, hfold]

theorem ChunksOpen.readChunks {write : Sink σ} {n index : Nat} {cts pts : List Bytes}
    (hopen : ChunksOpen P dek head index n cts pts) {s : ReadState σ} {tail : Bytes} {out' : σ}
    (hrest : s.object.rest = cts.flatten ++ tail)
    (hfold : pts.foldlM (writeOut write) s.out = .ok out') :
    ∃ object, object.rest = tail ∧
      readChunks P dek head (buildHead head) write n index s = .ok
        { object, hashed := s.hashed ++ cts.flatten,
          produced := s.produced + pts.flatten.length, out := out' } := by
  induction hopen generalizing s with
  | nil index =>
    refine ⟨s.object, by simpa using hrest, ?_⟩
    have hout : s.out = out' := by simpa [pure, Except.pure] using hfold
    simp [Object.readChunks, pure, Except.pure, ← hout]
  | @cons index n ct pt cts pts hlen hdecrypt hopen ih =>
    rw [flatten_cons, append_assoc] at hrest
    rw [foldlM_cons, bind_eq_ok] at hfold
    obtain ⟨out, hout, hfold⟩ := hfold
    obtain ⟨object, hread, htail⟩ := readFull_append hlen hrest
    obtain ⟨object', hrest', hloop⟩ := ih
      (s := { object, hashed := s.hashed ++ ct, produced := s.produced + pt.length, out })
      htail hfold
    refine ⟨object', hrest', ?_⟩
    simp only [Object.readChunks, hread, ok_bind, hdecrypt, hout, hloop, flatten_cons,
      append_assoc, length_append, Nat.add_assoc]

namespace ChunksOpen

variable {index n : Nat} {cts pts : List Bytes}

section

variable (h : ChunksOpen P dek head index n cts pts)
include h

theorem length_pts : pts.length = n := by
  induction h with
  | nil => rfl
  | cons _ _ _ ih => rw [length_cons, ih]

theorem take {k : Nat} (hk : k ≤ n) : ChunksOpen P dek head index k (cts.take k) (pts.take k) := by
  induction h generalizing k with
  | nil index =>
    obtain rfl : k = 0 := by omega
    exact .nil index
  | cons hlen hdecrypt _ ih =>
    cases k with
    | zero => exact .nil _
    | succ k => exact .cons hlen hdecrypt (ih (by omega))

theorem drop {k : Nat} (hk : k ≤ n) :
    ChunksOpen P dek head (index + k) (n - k) (cts.drop k) (pts.drop k) := by
  induction h generalizing k with
  | nil index =>
    obtain rfl : k = 0 := by omega
    exact .nil index
  | @cons index n ct pt cts pts hlen hdecrypt htail ih =>
    cases k with
    | zero => exact .cons hlen hdecrypt htail
    | succ k =>
      rw [show index + (k + 1) = index + 1 + k by omega, Nat.add_sub_add_right]
      exact ih (by omega)

theorem append {m : Nat} {cts' pts' : List Bytes}
    (h' : ChunksOpen P dek head (index + n) m cts' pts') :
    ChunksOpen P dek head index (n + m) (cts ++ cts') (pts ++ pts') := by
  induction h with
  | nil index => simpa using h'
  | @cons index n ct pt cts pts hlen hdecrypt _ ih =>
    rw [show n + 1 + m = n + m + 1 by omega]
    exact .cons hlen hdecrypt (ih (by rwa [show index + 1 + n = index + (n + 1) by omega]))

theorem length_flatten_cts_eq :
    cts.flatten.length = min head.plaintextLen.toNat ((index + n) * head.chunkSize.toNat) -
      index * head.chunkSize.toNat + n * tagLen := by
  induction h with
  | nil index => simp
  | @cons index n ct pt cts pts hlen _ _ ih =>
    rw [flatten_cons, length_append, ih, hlen, chunkPlaintextLen_eq head.plaintextLen.toNat_lt,
      show index + 1 + n = index + (n + 1) by omega, Nat.add_mul index 1, Nat.one_mul]
    have hmono : index * head.chunkSize.toNat + head.chunkSize.toNat ≤
        (index + (n + 1)) * head.chunkSize.toNat := by
      rw [← Nat.succ_mul]
      exact Nat.mul_le_mul_right _ (by omega)
    simp only [tagLen]
    omega

end

theorem length_flatten_cts (hP : P.Lawful) (h : ChunksOpen P dek head index n cts pts) :
    cts.flatten.length = pts.flatten.length + n * tagLen := by
  induction h with
  | nil index => simp
  | @cons index n ct pt cts pts hlen hdecrypt _ ih =>
    have hpt := (hP.decrypt_length _ _ _ _ _ ((Aead.decryptWithNonce_eq_ok hP).mp hdecrypt))
    rw [flatten_cons, flatten_cons, length_append, length_append, ih, hpt,
      Nat.succ_mul]
    omega

theorem length_flatten_pts (hP : P.Lawful) (h : ChunksOpen P dek head index n cts pts) :
    pts.flatten.length = min head.plaintextLen.toNat ((index + n) * head.chunkSize.toNat) -
      index * head.chunkSize.toNat := by
  have hcts := h.length_flatten_cts_eq
  rw [h.length_flatten_cts hP] at hcts
  omega

end ChunksOpen

end Dctl.Object
