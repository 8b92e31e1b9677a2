import Dctl.Object.Reader

/-! What either writer seals, every reader opens: the bytes of a seal are a frame that opens, and
the two-phase seal writes the same bytes as the buffered one. -/

namespace Dctl.Object

open ProofKit Crypto List

variable {P : Primitives}

theorem length_chunks {α : Type} {n : Nat} (hn : 0 < n) (xs : List α) :
    (chunks n xs).length = divCeil xs.length n := by
  simp only [chunks, length_map, length_range]
  refine eq_of_forall_ge_iff fun k => ?_
  rw [divCeil_le_iff hn, ← Nat.lt_succ_iff, Nat.div_lt_iff_lt_mul hn, Nat.succ_mul]
  omega

theorem flatten_chunks {α : Type} {n : Nat} (hn : 0 < n) (xs : List α) :
    (chunks n xs).flatten = xs := by
  have hpre : ∀ k, ((List.range k).map fun i => (xs.drop (i * n)).take n).flatten =
      xs.take (k * n) := by
    intro k
    induction k with
    | zero => simp
    | succ k ih =>
      rw [range_succ, map_append, flatten_append, ih, map_singleton,
        flatten_singleton, Nat.succ_mul, take_add]
  have hlen := length_chunks hn xs
  simp only [chunks, length_map, length_range] at hlen
  rw [chunks, hpre, hlen]
  exact take_of_length_le ((divCeil_le_iff hn).mp (Nat.le_refl _))

/-- The plaintexts of the chunks from number `index` on have the lengths that the geometry gives
them. -/
def Pieces (total chunkSize index : Nat) (pts : List Bytes) : Prop :=
  ∀ k (hk : k < pts.length), pts[k].length = chunkPlaintextLen total chunkSize (index + k)

section

variable {total chunkSize index : Nat} {pt : Bytes} {pts : List Bytes}
  (h : Pieces total chunkSize index (pt :: pts))
include h

theorem Pieces.head :
    pt.length = chunkPlaintextLen total chunkSize index := h 0 (by simp)

theorem Pieces.tail : Pieces total chunkSize (index + 1) pts := by
  intro k hk
  have h1 := h (k + 1) (by simpa using hk)
  rw [getElem_cons_succ] at h1
  rw [h1]
  congr 1
  omega

end

theorem pieces_chunks {n : Nat} {xs : Bytes} (hxs : xs.length < 2 ^ 64) :
    Pieces xs.length n 0 (chunks n xs) := by
  intro k hk
  simp only [chunks, getElem_map, getElem_range, length_take, length_drop,
    chunkPlaintextLen_eq hxs, Nat.zero_add]
  omega

theorem sealChunks_isOk (hP : P.Lawful) (dek : Key) {head : Head} (hv : head.Valid) (index : Nat)
    (pts : List Bytes)
    (hpts : Pieces head.plaintextLen.toNat head.chunkSize.toNat index pts) :
    ∃ cts, sealChunks P dek head.baseNonce (buildHead head) index pts = .ok cts.flatten ∧
      ChunksOpen P dek head index pts.length cts pts := by
  induction pts generalizing index with
  | nil => exact ⟨[], rfl, .nil index⟩
  | cons pt pts ih =>
    obtain ⟨cts, hcts, hopen⟩ := ih (index + 1) hpts.tail
    have hle : pt.length ≤ maxMessageLen := by
      have hmax := hv.chunkSize_le
      have hpt := chunkPlaintextLen_le head.plaintextLen.toNat head.chunkSize.toNat index
      rw [hpts.head]
      simp only [maxChunkSize, maxMessageLen] at *
      omega
    obtain ⟨ct, hct⟩ := Aead.encryptWithNonce_isOk hP dek (chunkNonce head.baseNonce index) pt
      (chunkAad (buildHead head) index) hle
    refine ⟨ct :: cts, ?_, .cons ?_ (Aead.decryptWithNonce_encryptWithNonce hP hct) hopen⟩
    · simp only [sealChunks, hct, hcts, ok_bind, flatten_cons]
      rfl
    · rw [Aead.encryptWithNonce_length hP hct, hpts.head]

/-- The chunk sizes that the sealers accept. -/
def AdmitsChunkSize (chunkSize : UInt32) : Prop := chunkSize ≠ 0 ∧ chunkSize.toNat ≤ maxChunkSize

theorem AdmitsChunkSize.pos {chunkSize : UInt32} (h : AdmitsChunkSize chunkSize) :
    0 < chunkSize.toNat := by
  have : chunkSize.toNat ≠ 0 := fun h0 => h.1 (UInt32.toNat_inj.mp h0)
  omega

theorem AdmitsChunkSize.not_out_of_range {chunkSize : UInt32} (h : AdmitsChunkSize chunkSize) :
    ¬(chunkSize = 0 ∨ maxChunkSize < chunkSize.toNat) := by
  have := h.2
  rintro (h0 | hmax)
  · exact h.1 h0
  · omega

section Sealed

variable {kemId : UInt8} {draws : Draws} {len : UInt64} {chunkSize : UInt32}

theorem sealHead_valid (hkem : kemId = kemIdNone ∨ kemId = kemIdHybrid)
    (hcs : AdmitsChunkSize chunkSize) : (sealHead kemId draws len chunkSize).Valid where
  algo := rfl
  kemId := hkem
  flags := by simp [sealHead]
  chunkSize_pos := hcs.1
  chunkSize_le := hcs.2
  chunkCount := by
    have hle := divCeil_le_self len.toNat hcs.pos
    have hlt := len.toNat_lt
    simp only [sealHead, UInt64.toNat_ofNat']
    omega

@[simp] theorem hasFooter_sealHead : (sealHead kemId draws len chunkSize).hasFooter = true := by
  simp [Head.hasFooter, sealHead]

theorem decodeMeta_seal (hP : P.Lawful) {dek : Key} {nonce : Nonce} {head : Head} {m : Metadata}
    (hm : m.Buildable) {digest : Digest} {ct : Bytes}
    (hct : Aead.encryptWithNonce P dek nonce (m.filled head.plaintextLen digest).encode
      (prefixedAad metaAadPrefix (buildHead head)) = .ok ct) :
    decodeMeta P dek head (buildHead head) (nonce.bytes ++ ct) =
      .ok (some (m.filled head.plaintextLen digest).readBack) := by
  have hnonce : Block.slice nonceLen (nonce.bytes ++ ct) 0 = nonce :=
    Block.slice_eq (t := ct) (by simp)
  have hfilled := hm.filled head.plaintextLen digest
  have hschema : (m.filled head.plaintextLen digest).encode.head? = some metaSchemaV1 := by
    simp [Metadata.encode]
  have hparse : parseMetadata (m.filled head.plaintextLen digest).encode =
      .ok (m.filled head.plaintextLen digest).readBack :=
    parseMetadata_eq_ok.mpr ⟨buildMetadata_eq_ok.mpr ⟨hfilled.readBack, Metadata.encode_readBack _⟩,
      Metadata.contentType_readBack_ne _⟩
  simp only [decodeMeta, decodeSchema, hnonce, drop_left' nonce.length,
    Aead.decryptWithNonce_encryptWithNonce hP hct, ok_bind, hschema, if_true, hparse, bind_eq_ok,
    reject_eq_ok, pure_eq_ok]
  exact ⟨(), by simp [Metadata.readBack, Metadata.filled], trivial⟩

theorem Metadata.Buildable.length_encode_le {m : Metadata} (hm : m.Buildable) :
    76 ≤ m.encode.length ∧ m.encode.length ≤ 196681 := by
  have h1 := hm.path_le
  have h2 := hm.contentType_le
  have h3 := hm.ext_le
  rw [m.length_encode]
  omega

theorem sealCore_isOk (hP : P.Lawful) (key : Key) (draws : Draws)
    (hkem : kemId = kemIdNone ∨ kemId = kemIdHybrid)
    (buildKemWrap : Bytes → Except CryptoError Bytes) {kemWrap plaintext : Bytes} {m : Metadata}
    (hlen : plaintext.length < 2 ^ 64)
    (hwrap : buildKemWrap (buildHead (sealHead kemId draws (UInt64.ofNat plaintext.length)
      chunkSize)) = .ok kemWrap)
    (hwrapLen : kemWrap.length ≤ 65535) (hm : m.Buildable) (hcs : AdmitsChunkSize chunkSize) :
    ∃ f : Frame, sealCore P kemId key buildKemWrap draws plaintext m chunkSize = .ok f.bytes ∧
      f.head = sealHead kemId draws (UInt64.ofNat plaintext.length) chunkSize ∧
      f.kemWrap = kemWrap ∧
      f.Opens P key draws.dek
        (some (m.filled (UInt64.ofNat plaintext.length) (P.hash plaintext)).readBack)
        (chunks chunkSize.toNat plaintext) := by
  generalize hhead : sealHead kemId draws (UInt64.ofNat plaintext.length) chunkSize = head at *
  have hv : head.Valid := hhead ▸ sealHead_valid hkem hcs
  have hplain : head.plaintextLen = UInt64.ofNat plaintext.length := by rw [← hhead]; rfl
  have hplainNat : head.plaintextLen.toNat = plaintext.length := by
    rw [hplain, UInt64.toNat_ofNat_of_lt' hlen]
  have hsize : head.chunkSize = chunkSize := by rw [← hhead]; rfl
  have hbase : head.baseNonce = baseNonce draws.base := by rw [← hhead]; rfl
  have hfilled := hm.filled (UInt64.ofNat plaintext.length) (P.hash plaintext)
  have hbounds := hfilled.length_encode_le
  obtain ⟨wrappedDek, hdek⟩ := Aead.encrypt_isOk hP key draws.wrap draws.dek.bytes
    (prefixedAad dekWrapAadPrefix (buildHead head)) (by simp)
  have hdekLen : wrappedDek.length = wrappedDekLen := by
    simp [Aead.encrypt_length hP hdek]
  obtain ⟨metaCt, hmeta⟩ := Aead.encryptWithNonce_isOk hP draws.dek (metadataNonce draws.metadata)
    (m.filled (UInt64.ofNat plaintext.length) (P.hash plaintext)).encode
    (prefixedAad metaAadPrefix (buildHead head)) (by simp only [maxMessageLen]; omega)
  have hmetaLen := Aead.encryptWithNonce_length hP hmeta
  obtain ⟨cts, hcts, hopen⟩ := sealChunks_isOk hP draws.dek hv 0
    (chunks chunkSize.toNat plaintext) (by
      rw [hplainNat, hsize]
      exact pieces_chunks hlen)
  let frame (footer : Bytes) : Frame :=
    { head, kemWrap, wrappedDek := ⟨wrappedDek, hdekLen⟩,
      metaBlob := (metadataNonce draws.metadata).bytes ++ metaCt, chunks := cts, footer,
      head_valid := hv, kemWrap_le := hwrapLen
      metaBlob_len := by simp [hmetaLen]; omega }
  have hproduced : (chunks chunkSize.toNat plaintext).flatten.length = head.plaintextLen.toNat := by
    rw [flatten_chunks hcs.pos, hplainNat]
  have hcount : (chunks chunkSize.toNat plaintext).length = head.chunkCount.toNat := by
    rw [length_chunks hcs.pos, hv.chunkCount, hplainNat, hsize]
  refine ⟨frame (P.hash (frame []).body).bytes, ?_, rfl, rfl, ?_⟩
  · simp only [sealCore, bind_eq_ok, reject_eq_ok, pure_eq_ok, hhead]
    refine ⟨(), hcs.not_out_of_range, kemWrap, hwrap, (), by omega, wrappedDek, hdek, (),
      by simp [hdekLen], _, buildMetadata_eq_ok.mpr ⟨hfilled, rfl⟩, metaCt, hmeta, (), ?_,
      cts.flatten, by rw [← hbase]; exact hcts, ?_⟩
    · simp [hmetaLen]
      omega
    · simp [frame, Frame.bytes, Frame.body, Frame.header, Header.bytes, Header.preamble,
        Header.headBytes]
  · refine ⟨⟨Aead.decrypt_encrypt hP hdek, ?_⟩, by rw [← hcount]; exact hopen, hproduced, ?_⟩
    · rw [← hplain] at hmeta ⊢
      exact decodeMeta_seal hP hm hmeta
    · simp [frame, Frame.body, Frame.header, Header.bytes, Header.preamble,
        Header.headBytes, ← hhead]

theorem Metadata.Buildable.of_filled {m : Metadata} {size : UInt64} {digest : Digest}
    (h : (m.filled size digest).Buildable) : m.Buildable :=
  ⟨h.path, h.path_le, h.contentType_le, h.ext_le⟩

theorem sealCore_eq_frame (hP : P.Lawful) {key : Key}
    (hkem : kemId = kemIdNone ∨ kemId = kemIdHybrid)
    {buildKemWrap : Bytes → Except CryptoError Bytes} {plaintext object : Bytes} {m : Metadata}
    (hlen : plaintext.length < 2 ^ 64)
    (h : sealCore P kemId key buildKemWrap draws plaintext m chunkSize = .ok object) :
    ∃ (f : Frame) (kemWrap : Bytes), object = f.bytes ∧
      buildKemWrap (buildHead f.head) = .ok kemWrap ∧ f.kemWrap = kemWrap ∧
      f.head = sealHead kemId draws (UInt64.ofNat plaintext.length) chunkSize ∧
      AdmitsChunkSize chunkSize ∧
      f.Opens P key draws.dek
        (some (m.filled (UInt64.ofNat plaintext.length) (P.hash plaintext)).readBack)
        (chunks chunkSize.toNat plaintext) := by
  have hparts := h
  simp only [sealCore, bind_eq_ok, reject_eq_ok] at hparts
  obtain ⟨_, hcs, kemWrap, hwrap, _, hwrapLen, _, -, _, -, metaPt, hbuild, -⟩ := hparts
  have hadm : AdmitsChunkSize chunkSize := by
    rw [not_or, not_lt] at hcs
    exact hcs
  have hbuildable := (buildMetadata_eq_ok.mp hbuild).1.of_filled
  obtain ⟨f, hseal, hhead, hkemWrap, hopens⟩ := sealCore_isOk hP key draws hkem buildKemWrap hlen
    hwrap (not_lt.mp hwrapLen) hbuildable hadm
  rw [h, Except.ok.injEq] at hseal
  exact ⟨f, kemWrap, hseal, by rw [hhead]; exact hwrap, hkemWrap, hhead, hadm, hopens⟩

end Sealed

theorem hashPass_eq_ok {chunkSize : Nat} (fuel : Nat) (hcs : 0 < chunkSize) (input : Source)
    (hashed : Bytes) (total : Nat) (hfuel : input.rest.length < fuel)
    (htotal : total + input.rest.length < 2 ^ 64) :
    ∃ input', hashPass chunkSize fuel input hashed total =
        .ok (hashed ++ input.rest, total + input.rest.length, input') ∧
      input'.data = input.data := by
  induction fuel generalizing input hashed total with
  | zero => omega
  | succ fuel ih =>
    simp only [hashPass]
    split
    next hnil =>
      rw [Source.read_eq_nil hcs] at hnil
      exact ⟨(input.read chunkSize).2, by simp [hnil, pure, Except.pure], rfl⟩
    next hne =>
      rw [Source.read_eq_nil hcs] at hne
      have hpos := Source.granted_pos hcs hne
      have hle := Source.granted_le input chunkSize
      have hrest := Source.rest_read input chunkSize
      have hlen :
          (input.read chunkSize).2.rest.length = input.rest.length - input.granted chunkSize := by
        rw [hrest, length_drop]
      have hread : (input.read chunkSize).1.length = input.granted chunkSize := by
        simp only [Source.read, length_take]
        omega
      obtain ⟨input', hloop, hdata⟩ := ih (input.read chunkSize).2
        (hashed ++ (input.read chunkSize).1) (total + (input.read chunkSize).1.length)
        (by omega) (by omega)
      refine ⟨input', ?_, hdata⟩
      have hsum : checkedU64 (total + (input.read chunkSize).1.length) =
          some (total + (input.read chunkSize).1.length) := by
        simp only [checkedU64]
        rw [if_pos (by omega)]
      have hbytes : (input.read chunkSize).1 ++ (input.read chunkSize).2.rest = input.rest := by
        rw [hrest]
        exact take_append_drop _ _
      rw [hsum, okOr, ok_bind, hloop, append_assoc, hbytes, hlen, hread]
      congr 2
      simp only [Prod.mk.injEq, and_true]
      omega

theorem checkedU64_bind_add (a b : Nat) :
    (checkedU64 a).bind (fun x => checkedU64 (x + b)) = checkedU64 (a + b) := by
  simp only [checkedU64]
  split
  · rfl
  · rw [if_neg (by omega)]
    rfl

theorem totalLen_eq (headerLen plaintextLen chunkCount : Nat) :
    totalLen headerLen plaintextLen chunkCount =
      okOr (.format "object length overflows u64")
        (checkedU64 (chunkCount * tagLen + plaintextLen + headerLen + footerLen)) := by
  rw [totalLen, ← checkedU64_bind_add, ← checkedU64_bind_add, ← checkedU64_bind_add,
    Option.bind_assoc, Option.bind_assoc]
  rfl

theorem length_sealChunks (hP : P.Lawful) {dek : Key} {base : Nonce} {headBytes : Bytes}
    {index : Nat} {pts : List Bytes} {out : Bytes}
    (h : sealChunks P dek base headBytes index pts = .ok out) :
    out.length = pts.flatten.length + pts.length * tagLen := by
  induction pts generalizing index out with
  | nil =>
    simp only [sealChunks, pure_eq_ok] at h
    simp [← h]
  | cons pt pts ih =>
    simp only [sealChunks, bind_eq_ok, pure_eq_ok] at h
    obtain ⟨ct, hct, tail, htail, rfl⟩ := h
    rw [length_append, Aead.encryptWithNonce_length hP hct, ih htail, flatten_cons,
      length_append, length_cons, Nat.succ_mul]
    omega

theorem PlannedSeal.emitChunks_eq_ok (plan : PlannedSeal) {pts : List Bytes} {index : Nat}
    (hpts : Pieces plan.plaintextLen.toNat plan.chunkSize.toNat index pts) {out : Bytes}
    (h : sealChunks P plan.dek plan.baseNonce plan.headBytes index pts = .ok out)
    {s : EmitState Bytes} {tail : Bytes} (hrest : s.input.rest = pts.flatten ++ tail) :
    ∃ input, plan.emitChunks P vecSink pts.length index s =
      .ok { input, hashed := s.hashed ++ out, output := s.output ++ out } := by
  induction pts generalizing index out s with
  | nil =>
    simp only [sealChunks, pure_eq_ok] at h
    exact ⟨s.input, by simp [emitChunks, ← h, pure, Except.pure]⟩
  | cons pt pts ih =>
    simp only [sealChunks, bind_eq_ok, pure_eq_ok] at h
    obtain ⟨ct, hct, rest, htail, rfl⟩ := h
    rw [flatten_cons, append_assoc] at hrest
    obtain ⟨input, hread, hrest', -⟩ := Source.readExact_append hrest
    obtain ⟨input', hloop⟩ := ih hpts.tail htail
      (s := { input, hashed := s.hashed ++ ct, output := s.output ++ ct }) hrest'
    refine ⟨input', ?_⟩
    rw [hpts.head] at hread
    simp only [length_cons, emitChunks, hread, okOr, ok_bind, chunkAad] at hct ⊢
    simp only [hct, ok_bind, EmitState.writeHashed, writeOut, vecSink, okOr, pure, Except.pure]
    rw [hloop, append_assoc, append_assoc]

section TwoPhase

variable {key : Key} {draws : Draws} {plaintext object : Bytes} {m : Metadata} {chunkSize : UInt32}

theorem sealObject_eq_ok (h : sealObject P key draws plaintext m chunkSize = .ok object) :
    ∃ wrappedDek metaPt metaCt chunkCts : Bytes,
      let head := sealHead kemIdNone draws (UInt64.ofNat plaintext.length) chunkSize
      let header := buildHead head ++ le 2 0 ++ wrappedDek ++ le 4 (nonceLen + metaCt.length) ++
        (metadataNonce draws.metadata).bytes ++ metaCt
      ¬(chunkSize = 0 ∨ maxChunkSize < chunkSize.toNat) ∧
      Aead.encrypt P key draws.wrap draws.dek.bytes
        (prefixedAad dekWrapAadPrefix (buildHead head)) = .ok wrappedDek ∧
      wrappedDek.length = wrappedDekLen ∧
      buildMetadata (m.filled (UInt64.ofNat plaintext.length) (P.hash plaintext)) = .ok metaPt ∧
      Aead.encryptWithNonce P draws.dek (metadataNonce draws.metadata) metaPt
        (prefixedAad metaAadPrefix (buildHead head)) = .ok metaCt ∧
      ¬(nonceLen + metaCt.length < metaMinLen ∨ metaMaxLen < nonceLen + metaCt.length) ∧
      sealChunks P draws.dek (baseNonce draws.base) (buildHead head) 0
        (chunks chunkSize.toNat plaintext) = .ok chunkCts ∧
      object = header ++ chunkCts ++ (P.hash (header ++ chunkCts)).bytes := by
  simp only [sealObject, sealCore, bind_eq_ok, reject_eq_ok, pure_eq_ok, ne_eq, not_not] at h
  obtain ⟨_, hcs, _, rfl, _, -, wrappedDek, hdek, _, hdekLen, metaPt, hbuild, metaCt, hmeta, _,
    hmetaLen, chunkCts, hchunks, rfl⟩ := h
  exact ⟨wrappedDek, metaPt, metaCt, chunkCts, hcs, hdek, hdekLen, hbuild, hmeta, hmetaLen, hchunks,
    by simp⟩

theorem PlannedSeal.prepare_eq (hP : P.Lawful) (hlen : plaintext.length < 2 ^ 64)
    (h : sealObject P key draws plaintext m chunkSize = .ok object) (grants : List Nat) :
    ∃ (plan : PlannedSeal) (input : Source),
      PlannedSeal.prepare P key draws (Source.of plaintext grants)
          (UInt64.ofNat plaintext.length) m chunkSize =
        (if object.length < 2 ^ 64 then .ok (plan, input)
        else .error (.format "object length overflows u64")) ∧
      plan.objectLen = UInt64.ofNat object.length ∧ plan.fileId = draws.fileId ∧
      plan.plaintextLen = UInt64.ofNat plaintext.length ∧
      plan.contentBlake3 = P.hash plaintext ∧ plan.emit P input vecSink [] = .ok object := by
  obtain ⟨wrappedDek, metaPt, metaCt, chunkCts, hcs, hdek, hdekLen, hbuild, hmeta, hmetaLen,
    hchunks, hobject⟩ := sealObject_eq_ok h
  have hadm : AdmitsChunkSize chunkSize :=
    ⟨fun h0 => hcs (.inl h0), not_lt.mp fun hmax => hcs (.inr hmax)⟩
  have hplain : (UInt64.ofNat plaintext.length).toNat = plaintext.length :=
    UInt64.toNat_ofNat_of_lt' hlen
  obtain ⟨input, hpass, hdata⟩ := hashPass_eq_ok (plaintext.length + 1) hadm.pos
    (Source.of plaintext grants) [] 0 (by simp) (by simpa using hlen)
  simp only [Source.rest_of, nil_append, Nat.zero_add] at hpass
  generalize hhead : sealHead kemIdNone draws (UInt64.ofNat plaintext.length) chunkSize = head at *
  have hv : head.Valid := hhead ▸ sealHead_valid (.inl rfl) hadm
  have hheadLen : head.plaintextLen = UInt64.ofNat plaintext.length := by rw [← hhead]; rfl
  have hsize : head.chunkSize = chunkSize := by rw [← hhead]; rfl
  have hbase : head.baseNonce = Object.baseNonce draws.base := by rw [← hhead]; rfl
  have hcount : (chunks chunkSize.toNat plaintext).length = head.chunkCount.toNat := by
    rw [length_chunks hadm.pos, hv.chunkCount, hheadLen, hplain, hsize]
  generalize hheader : buildHead head ++ le 2 0 ++ wrappedDek ++ le 4 (nonceLen + metaCt.length) ++
    (metadataNonce draws.metadata).bytes ++ metaCt = header at *
  have hobjectLen : head.chunkCount.toNat * tagLen + plaintext.length + header.length + footerLen =
      object.length := by
    rw [hobject, length_append, length_append, length_sealChunks hP hchunks,
      flatten_chunks hadm.pos, hcount, (P.hash _).length]
    simp only [footerLen]
    omega
  let plan : PlannedSeal :=
    { dek := draws.dek, headBytes := buildHead head, baseNonce := head.baseNonce,
      fileId := draws.fileId, header, chunkSize, plaintextLen := UInt64.ofNat plaintext.length,
      chunkCount := head.chunkCount, objectLen := UInt64.ofNat object.length,
      contentBlake3 := P.hash plaintext }
  refine ⟨plan, input.rewind, ?_, rfl, rfl, rfl, rfl, ?_⟩
  · simp only [PlannedSeal.prepare, reject, if_neg hcs, ok_bind, Source.rest_of, hpass, hplain,
      ne_eq, not_true_eq_false, if_false, hhead, hdek, hdekLen, hbuild, hmeta, if_neg hmetaLen,
      hheader, totalLen_eq, hobjectLen, checkedU64]
    split <;> rfl
  · have hrest : input.rewind.rest = (chunks chunkSize.toNat plaintext).flatten ++ [] := by
      rw [Source.rest_rewind, hdata, flatten_chunks hadm.pos, append_nil]
      rfl
    have hpieces : Pieces plan.plaintextLen.toNat plan.chunkSize.toNat 0
        (chunks chunkSize.toNat plaintext) := by
      simp only [plan, hplain]
      exact pieces_chunks hlen
    rw [← hbase] at hchunks
    obtain ⟨input', hemit⟩ := plan.emitChunks_eq_ok hpieces hchunks
      (s := { input := input.rewind, hashed := header, output := header }) hrest
    rw [hcount] at hemit
    simp only [emit, EmitState.writeHashed, writeOut, vecSink, okOr, ok_bind, pure_bind,
      nil_append, plan, hobject] at hemit ⊢
    rw [hemit]
    rfl

end TwoPhase

/-- A seal's bytes open to its plaintext and to its metadata with size and hash filled in, in each
of the three readers.  The two-phase seal writes the same bytes, unless their number does not fit
64 bits: then its first phase refuses. -/
theorem seal_open_round_trip (hP : P.Lawful) (key : Key) (draws : Draws) (plaintext : Bytes)
    (hlen : plaintext.length < 2 ^ 64) (m : Metadata) (hm : ∃ bytes, buildMetadata m = .ok bytes)
    (chunkSize : UInt32) (hcs : chunkSize ≠ 0 ∧ chunkSize.toNat ≤ maxChunkSize) :
    ∃ object, sealObject P key draws plaintext m chunkSize = .ok object ∧
      (∀ grants, ∃ plan input,
        PlannedSeal.prepare P key draws (Source.of plaintext grants)
            (UInt64.ofNat plaintext.length) m chunkSize =
          (if object.length < 2 ^ 64 then .ok (plan, input)
          else .error (.format "object length overflows u64")) ∧
        plan.emit P input vecSink [] = .ok object) ∧
      let metadata := (m.filled (UInt64.ofNat plaintext.length) (P.hash plaintext)).readBack
      openObject P key object = .ok { metadata := some metadata, plaintext } ∧
        openStream P key object vecSink [] = .ok (some metadata, plaintext) ∧
        ∀ grants, openReader P key (Source.of object grants) vecSink [] =
          .ok (some metadata, plaintext) := by
  obtain ⟨_, hbuild⟩ := hm
  obtain ⟨hbuildable, -⟩ := buildMetadata_eq_ok.mp hbuild
  obtain ⟨f, hseal, hhead, hwrap, hopens⟩ := sealCore_isOk hP key draws (.inl rfl)
    (fun _ => pure []) hlen rfl (by simp) hbuildable hcs
  have hflat := flatten_chunks (AdmitsChunkSize.pos hcs) plaintext
  have hkem : f.head.kemId = kemIdNone := by rw [hhead]; rfl
  have hfold : (chunks chunkSize.toNat plaintext).foldlM (writeOut vecSink) [] =
      .ok plaintext := by
    rw [foldlM_vecSink, hflat, nil_append]
  refine ⟨f.bytes, hseal, fun grants => ?_, ?_, ?_, fun grants => ?_⟩
  · obtain ⟨plan, input, hprepare, -, -, -, -, hemit⟩ := PlannedSeal.prepare_eq hP hlen hseal grants
    exact ⟨plan, input, hprepare, hemit⟩
  · exact openObject_eq_ok.mpr ⟨_, ⟨f, _, hkem, hwrap, hopens, rfl⟩, hflat.symm⟩
  · exact openStream_eq_ok.mpr ⟨_, ⟨f, _, hkem, hwrap, hopens, rfl⟩, hfold⟩
  · exact openReader_eq_ok.mpr ⟨_, ⟨f, _, hkem, hwrap, hopens, rfl⟩, hfold⟩

theorem seal_open_round_trip_three_bytes :
    ∃ object, sealObject clearPrimitives default ⟨default, default, default, default, default⟩
        [1, 2, 3] (Metadata.new "a") 2 = .ok object ∧
      openObject clearPrimitives default object = .ok
        { metadata := some ((Metadata.new "a").filled 3 (clearPrimitives.hash [1, 2, 3])).readBack,
          plaintext := [1, 2, 3] } := by
  obtain ⟨object, hseal, -, hopen, -⟩ := seal_open_round_trip clearPrimitives_lawful default
    ⟨default, default, default, default, default⟩ [1, 2, 3] (by decide)
      (Metadata.new "a") ⟨_, rfl⟩ 2
    (by decide)
  exact ⟨object, hseal, hopen⟩

end Dctl.Object
