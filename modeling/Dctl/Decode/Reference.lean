import Dctl.Object.Reader

/-! The reference decoder in C (`dctl-decode/reference/dctl-decode.c`), on the symmetric path, and
that it decodes every object the Rust opener opens.  Its primitives are taken to be the same; memory
is not exhausted and the output takes what is written to it. -/

namespace Dctl.Decode

open ProofKit Crypto Object List

variable (P : Primitives)

/-- `fread`: as many bytes as were asked for, unless the input ends first. -/
def fread (input : Bytes) (n : Nat) : Bytes × Bytes := (input.take n, input.drop n)

def freadOrFail (input : Bytes) (n : Nat) (message : String) : Except String (Bytes × Bytes) := do
  let (bytes, rest) := fread input n
  reject (bytes.length ≠ n) message
  pure (bytes, rest)

def xchachaOpen (key : Key) (nonce : Nonce) (ct tag aad : Bytes) : Option Bytes :=
  P.decrypt key nonce (ct ++ tag) aad

def xchachaOpenBlob (key : Key) (blob aad : Bytes) : Option (Bytes × Nat) :=
  if blob.length < 24 + 16 then none
  else
    let ctLen := blob.length - 24 - 16
    (xchachaOpen P key (Block.slice nonceLen blob 0) ((blob.drop 24).take ctLen)
      (blob.drop (blob.length - 16)) aad).map fun out => (out, ctLen)

def checkMetadata (m : Bytes) (plaintextLen : Nat) : Except String Unit := do
  let len := m.length
  reject (len < metaMinPlaintextLen) "metadata plaintext too short"
  if byteAt m 0 ≠ metaSchemaV1 then pure ()
  else
    reject (leAt m 18 8 ≠ plaintextLen) "meta.size != plaintext_len"
    let pathLen := leAt m 70 2
    reject (len < 72 + pathLen + 2) "metadata truncated (ct_len)"
    let ctOff := 72 + pathLen
    let ctLen := leAt m ctOff 2
    reject (len < ctOff + 2 + ctLen + 2) "metadata truncated (ext_len)"
    let extOff := ctOff + 2 + ctLen
    let extLen := leAt m extOff 2
    reject (extOff + 2 + extLen ≠ len) "metadata length != 76 + P + T + E"

def chunkFailure : String :=
  "chunk decode/authentication failed (tampered, truncated, or short read)"

def decodeChunks (dek : Key) (head : Bytes) (plaintextLen cs : Nat) :
    (remaining idx : Nat) → (input : Bytes) → (written : Nat) → (out : Bytes) →
      Except String (Nat × Bytes)
  | 0, _, _, written, out => pure (written, out)
  | n + 1, idx, input, written, out => do
    let remaining := plaintextLen - written
    let thisPt := if remaining < cs then remaining else cs
    let need := thisPt + tagLen
    let (ct, input) ← freadOrFail input need chunkFailure
    let pt ← okOr chunkFailure (xchachaOpen P dek
      (chunkNonce (Block.slice nonceLen head 28) idx) (ct.take thisPt) (ct.drop thisPt)
      (head ++ le 8 idx))
    decodeChunks dek head plaintextLen cs n (idx + 1) input (written + thisPt)
      (out ++ pt.take thisPt)

/-- `decode_object_stream`: the bytes written when it returns success, or the message it fails with.
-/
def decodeObjectStream (root : Key) (input : Bytes) : Except String Bytes := do
  let (head, input) ← freadOrFail input objectHeadLen "object truncated (head)"
  reject (head.take 4 ≠ objectMagic) "bad object magic"
  reject (byteAt head 4 ≠ 1) "unsupported object version"
  reject (byteAt head 5 ≠ algoXchacha20Poly1305)
    "unsupported algo (this decoder is XChaCha20-Poly1305 only)"
  reject (byteAt head 6 ≠ kemIdNone)
    ("unsupported kem_id (C reference decoder is kem_id=0 only; " ++
      "kem_id=1 needs the full X25519+ML-KEM-768 implementation)")
  reject (byteAt head 7 &&& ~~~flagFooter ≠ 0) "unknown critical object flag"
  let chunkSize := leAt head 8 4
  let plaintextLen := leAt head 12 8
  let chunkCount := leAt head 20 8
  reject (chunkSize = 0 ∨ maxChunkSize < chunkSize) "chunk_size out of range (0, 16 MiB]"
  let expectedCount := plaintextLen / chunkSize + if plaintextLen % chunkSize ≠ 0 then 1 else 0
  reject (chunkCount ≠ expectedCount) "chunk_count != ceil(plaintext_len / chunk_size)"
  let (kct, input) ← freadOrFail input 2 "object truncated (kem_ct_len)"
  reject (ofLe kct ≠ 0) "kem_ct_len must be 0 for kem_id=0"
  let (wdek, input) ← freadOrFail input wrappedDekLen "object truncated (wrapped_dek)"
  let (dek, dekLen) ← okOr "failed to unwrap DEK (wrong root, or tampered header)"
    (xchachaOpenBlob P root wdek (dekWrapAadPrefix ++ head))
  reject (dekLen ≠ keyLen) "failed to unwrap DEK (wrong root, or tampered header)"
  let dek := Block.slice keyLen dek 0
  let (ml, input) ← freadOrFail input 4 "object truncated (meta_len)"
  let metaLen := ofLe ml
  reject (metaLen < metaMinLen ∨ metaMaxLen < metaLen) "meta_len out of range [116, 262144]"
  let (metaBlob, input) ← freadOrFail input metaLen "object truncated (enc_metadata)"
  let (metaPt, _) ← okOr "failed to decrypt metadata (wrong DEK or tampered)"
    (xchachaOpenBlob P dek metaBlob (metaAadPrefix ++ head))
  checkMetadata metaPt plaintextLen
  let (written, out) ← decodeChunks P dek head plaintextLen chunkSize chunkCount 0 input 0 []
  reject (written ≠ plaintextLen) "decoded length != plaintext_len"
  pure out

variable {P}

theorem freadOrFail_eq_ok {input bytes rest : Bytes} {n : Nat} {message : String}
    (hlen : bytes.length = n) (h : input = bytes ++ rest) :
    freadOrFail input n message = .ok (bytes, rest) := by
  subst h hlen
  simp [freadOrFail, fread]

theorem xchachaOpenBlob_eq_some (hP : P.Lawful) {key : Key} {nonce : Nonce} {ct aad pt : Bytes}
    (h : P.decrypt key nonce ct aad = some pt) :
    xchachaOpenBlob P key (nonce.bytes ++ ct) aad = some (pt, pt.length) := by
  have hlen := hP.decrypt_length _ _ _ _ _ h
  have hnonce : Block.slice nonceLen (nonce.bytes ++ ct) 0 = nonce :=
    Block.slice_eq (t := ct) (by simp)
  have htotal : (nonce.bytes ++ ct).length = 24 + pt.length + 16 := by
    simp [hlen]
    omega
  have hct : (ct.take pt.length) ++ (nonce.bytes ++ ct).drop (24 + pt.length) = ct := by
    rw [← drop_drop, drop_left' nonce.length, take_append_drop]
  rw [xchachaOpenBlob, htotal, if_neg (by omega), hnonce, drop_left' nonce.length,
    show 24 + pt.length + 16 - 24 - 16 = pt.length by omega,
    show 24 + pt.length + 16 - 16 = 24 + pt.length by omega]
  simp only [xchachaOpen, hct, h, Option.map_some]

theorem xchachaOpenBlob_of_decrypt (hP : P.Lawful) {key : Key} {blob aad pt : Bytes}
    (h : Aead.decrypt P key blob aad = .ok pt) :
    xchachaOpenBlob P key blob aad = some (pt, pt.length) := by
  simp only [Aead.decrypt, bind_eq_ok, reject_eq_ok, okOr_eq_ok, not_lt] at h
  obtain ⟨_, hlen, h⟩ := h
  simp only [nonceLen, tagLen] at hlen
  have hblob : blob.drop 0 = (Block.slice nonceLen blob 0).bytes ++ blob.drop nonceLen := by
    rw [Block.drop_eq_slice_append nonceLen (by simp; omega), Nat.zero_add]
  rw [drop_zero] at hblob
  conv_lhs => rw [hblob]
  exact xchachaOpenBlob_eq_some hP h

theorem xchachaOpenBlob_of_decodeMeta (hP : P.Lawful) {dek : Key} {head : Head}
    {headBytes metaBlob : Bytes} {metadata : Option Metadata}
    (hlen : metaMinLen ≤ metaBlob.length)
    (h : decodeMeta P dek head headBytes metaBlob = .ok metadata) :
    ∃ metaPt, xchachaOpenBlob P dek metaBlob (prefixedAad metaAadPrefix headBytes) =
        some (metaPt, metaPt.length) ∧
      metaMinPlaintextLen ≤ metaPt.length ∧ decodeSchema head metaPt = .ok metadata := by
  simp only [decodeMeta, bind_eq_ok] at h
  obtain ⟨metaPt, hdecrypt, hschema⟩ := h
  have hdec := (Aead.decryptWithNonce_eq_ok hP).mp hdecrypt
  have hpt := hP.decrypt_length _ _ _ _ _ hdec
  simp only [metaMinLen, length_drop, nonceLen, tagLen] at hlen hpt
  have hblob : metaBlob.drop 0 =
      (Block.slice nonceLen metaBlob 0).bytes ++ metaBlob.drop nonceLen := by
    rw [Block.drop_eq_slice_append nonceLen (by simp; omega), Nat.zero_add]
  rw [drop_zero] at hblob
  refine ⟨metaPt, ?_, by simp only [metaMinPlaintextLen]; omega, hschema⟩
  conv_lhs => rw [hblob]
  exact xchachaOpenBlob_eq_some hP hdec

theorem checkMetadata_eq_ok {metaPt : Bytes} {head : Head} {metadata : Option Metadata}
    (hlen : metaMinPlaintextLen ≤ metaPt.length)
    (h : decodeSchema head metaPt = .ok metadata) :
    checkMetadata metaPt head.plaintextLen.toNat = .ok () := by
  have hfirst : metaPt.head? = some (byteAt metaPt 0) := by
    cases metaPt with
    | nil => simp at hlen
    | cons b rest => rfl
  simp only [checkMetadata, bind_eq_ok, reject_eq_ok]
  refine ⟨(), not_lt.mpr hlen, ?_⟩
  simp only [decodeSchema, hfirst, Option.some.injEq] at h
  split at h
  next hschema =>
    simp only [parseMetadata, bind_eq_ok, reject_eq_ok, pure_eq_ok] at h
    obtain ⟨md, ⟨_, -, _, -, _, hpEnd, path, -, _, hctEnd, ct, -, _, hext, _, -, rfl⟩, _,
      hsize, -⟩ := h
    rw [if_neg (not_not.mpr hschema)]
    simp only [bind_eq_ok, reject_eq_ok]
    refine ⟨(), ?_, (), hpEnd, (), hctEnd, hext⟩
    rw [not_not] at hsize ⊢
    rw [← hsize, toNat_ofNat_leAt8]
  next hschema =>
    rw [if_pos hschema]
    rfl

theorem decodeChunks_eq_ok (hP : P.Lawful) {dek : Key} {head : Head} {n idx : Nat}
    {cts pts : List Bytes} (h : ChunksOpen P dek head idx n cts pts) (tail out : Bytes)
    (written : Nat) (hwritten :
      written = min head.plaintextLen.toNat (idx * head.chunkSize.toNat)) :
    decodeChunks P dek (buildHead head) head.plaintextLen.toNat head.chunkSize.toNat n idx
      (cts.flatten ++ tail) written out = .ok (written + pts.flatten.length,
        out ++ pts.flatten) := by
  induction h generalizing written out with
  | nil idx => simp [decodeChunks, pure, Except.pure]
  | @cons idx n ct pt cts pts hlen hdecrypt htail ih =>
    have hdec := (Aead.decryptWithNonce_eq_ok hP).mp hdecrypt
    have hpt := hP.decrypt_length _ _ _ _ _ hdec
    rw [chunkPlaintextLen_eq head.plaintextLen.toNat_lt] at hlen
    have hthis : (if head.plaintextLen.toNat - written < head.chunkSize.toNat then
        head.plaintextLen.toNat - written else head.chunkSize.toNat) = pt.length := by
      split <;> omega
    have hbase : Block.slice nonceLen (buildHead head) 28 = head.baseNonce :=
      Block.slice_eq (t := head.fileId.bytes) (by simp [buildHead, objectMagic, drop_append])
    rw [flatten_cons, append_assoc]
    simp only [decodeChunks, hthis]
    rw [freadOrFail_eq_ok hpt rfl, ok_bind]
    simp only [xchachaOpen, take_append_drop, hbase]
    have hopen : P.decrypt dek (chunkNonce head.baseNonce idx) ct (buildHead head ++ le 8 idx) =
        some pt := hdec
    rw [hopen, okOr, ok_bind, take_length, ih, flatten_cons, length_append,
      append_assoc, Nat.add_assoc]
    rw [Nat.add_mul, Nat.one_mul]
    omega

/-- Whatever the Rust opener opens, the reference decoder decodes to the same plaintext. -/
theorem reference_decodes (hP : P.Lawful) (root : Key) (blob : Bytes) (o : Opened)
    (hopen : openObject P root blob = .ok o) :
    decodeObjectStream P root blob = .ok o.plaintext := by
  obtain ⟨pts, ⟨f, dek, hkem, hwrap, hf, rfl⟩, hplain⟩ := openObject_eq_ok.mp hopen
  have hv := f.head_valid
  have hread := readAt_buildHead f.head []
  rw [append_nil] at hread
  have hcs := hv.chunkSize_toNat_pos
  have hcount : f.head.chunkCount.toNat = f.head.plaintextLen.toNat / f.head.chunkSize.toNat +
      if f.head.plaintextLen.toNat % f.head.chunkSize.toNat ≠ 0 then 1 else 0 := by
    rw [hv.chunkCount, divCeil, ite_not]
  have hm := f.metaBlob_len
  have hmetaLen : ofLe (le 4 f.metaBlob.length) = f.metaBlob.length :=
    ofLe_le_of_lt (by simp only [metaMaxLen] at hm; omega)
  have hbytes : f.bytes = buildHead f.head ++ (le 2 0 ++ (f.wrappedDek.bytes ++
      (le 4 f.metaBlob.length ++ (f.metaBlob ++ (f.chunks.flatten ++ f.footer))))) := by
    rw [f.bytes_eq, Header.bytes_append, hwrap, nil_append, length_nil]
  have hdek := xchachaOpenBlob_of_decrypt hP hf.unwrap
  have hdekBytes : Block.slice keyLen dek.bytes 0 = dek := Block.slice_eq (t := []) (by simp)
  obtain ⟨metaPt, hmeta, hmin, hschema⟩ := xchachaOpenBlob_of_decodeMeta hP hm.1 hf.decode
  have hchunks := decodeChunks_eq_ok hP hf.chunks f.footer [] 0 (by simp)
  rw [hplain]
  simp only [decodeObjectStream, bind_eq_ok, Prod.exists, reject_eq_ok, okOr_eq_ok, pure_eq_ok,
    ne_eq, not_not]
  refine ⟨_, _, freadOrFail_eq_ok (length_buildHead f.head) hbytes, (), hread.magic, (),
    hread.version, (), hread.algo.trans hv.algo, (), hread.kemId.trans hkem, (), ?_, (), ?_, (), ?_,
    _, _, freadOrFail_eq_ok (length_le 2 0) rfl, (), rfl,
    _, _, freadOrFail_eq_ok f.wrappedDek.length rfl, _, _, hdek, (), dek.length,
    _, _, freadOrFail_eq_ok (length_le 4 _) rfl, (), ?_,
    f.metaBlob, _, freadOrFail_eq_ok (by rw [hmetaLen]) rfl, metaPt, metaPt.length, ?_, (), ?_,
    0 + pts.flatten.length, pts.flatten, ?_, (), ?_, rfl⟩
  · rw [hread.flags]
    exact hv.flags
  · rw [hread.chunkSize]
    have := hv.chunkSize_le
    omega
  · rw [hread.chunkSize, hread.plaintextLen, hread.chunkCount]
    exact hcount
  · rw [hmetaLen]
    simp only [metaMinLen, metaMaxLen] at hm ⊢
    omega
  · rw [hdekBytes]
    exact hmeta
  · rw [hread.plaintextLen]
    exact checkMetadata_eq_ok hmin hschema
  · rw [hread.plaintextLen, hread.chunkSize, hread.chunkCount, hdekBytes]
    exact hchunks
  · rw [hread.plaintextLen, ← hf.produced, Nat.zero_add]

theorem reference_decodes_sample :
    decodeObjectStream clearPrimitives default sampleObject = .ok [1, 2, 3] :=
  reference_decodes clearPrimitives_lawful default sampleObject sampleOpened
    openObject_sampleObject

end Dctl.Decode
