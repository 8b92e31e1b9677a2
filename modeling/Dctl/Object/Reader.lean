import Dctl.Object.Frame

/-! Every reader of a whole object accepts exactly the frames that open, and hands on their
plaintext and metadata. -/

namespace Dctl.Object

open ProofKit Crypto List

variable {P : Primitives} {σ : Type} {key : Key} {head : Head}

theorem decodeDekAndMeta_eq_ok {blob : Bytes} (hhead : blob.take objectHeadLen = buildHead head)
    {off off' : Nat} {dek : Key} {metadata : Option Metadata} :
    decodeDekAndMeta P key blob head off = .ok (dek, metadata, off') ↔
      ∃ (wrappedDek : Block wrappedDekLen) (metaBlob tail : Bytes),
        blob.drop off = wrappedDek.bytes ++ (le 4 metaBlob.length ++ (metaBlob ++ tail)) ∧
        (metaMinLen ≤ metaBlob.length ∧ metaBlob.length ≤ metaMaxLen) ∧
        Aead.decrypt P key wrappedDek.bytes (prefixedAad dekWrapAadPrefix (buildHead head)) =
          .ok dek.bytes ∧
        decodeMeta P dek head (buildHead head) metaBlob = .ok metadata ∧
        off' = off + 76 + metaBlob.length := by
  simp only [decodeDekAndMeta, readU32, bind_eq_ok, reject_eq_ok, okOr_eq_ok, pure_eq_ok, hhead,
    not_lt, not_or, Block.of?_eq_some, Prod.mk.injEq]
  constructor
  · rintro ⟨_, hdek, dekBytes, hunwrap, dek, rfl, metaLen, ⟨_, hmeta, rfl⟩, _, hlen, _, hfits,
      metadata, hdecode, rfl, rfl, rfl⟩
    have hmetaLen : ((blob.drop (off + wrappedDekLen + 4)).take
        (leAt blob (off + wrappedDekLen) 4)).length = leAt blob (off + wrappedDekLen) 4 := by
      simp only [length_take, length_drop]
      omega
    refine ⟨Block.slice wrappedDekLen blob off, (blob.drop (off + wrappedDekLen + 4)).take
      (leAt blob (off + wrappedDekLen) 4),
      blob.drop (off + wrappedDekLen + 4 + leAt blob (off + wrappedDekLen) 4), ?_, ?_, ?_, hdecode,
      ?_⟩
    · rw [hmetaLen]
      conv_lhs =>
        rw [Block.drop_eq_slice_append _ hdek, drop_eq_le_append 4 hmeta,
          drop_eq_take_append (n := leAt blob (off + wrappedDekLen) 4) rfl]
    · rwa [hmetaLen]
    · rwa [Block.slice_bytes hdek]
    · rw [hmetaLen]
  · rintro ⟨wrappedDek, metaBlob, tail, hbytes, hlen, hunwrap, hdecode, rfl⟩
    have hm : metaBlob.length < 256 ^ 4 := by simp only [metaMaxLen] at hlen; omega
    have htotal := congrArg List.length hbytes
    simp only [length_drop, length_append, wrappedDek.length, length_le] at htotal
    have hlenAt : blob.drop (off + wrappedDekLen) =
        le 4 metaBlob.length ++ (metaBlob ++ tail) := by
      rw [← drop_drop, hbytes, drop_left' wrappedDek.length]
    have hmeta : blob.drop (off + wrappedDekLen + 4) = metaBlob ++ tail := by
      rw [← drop_drop, hlenAt, drop_left' (length_le 4 _)]
    refine ⟨(), by omega, dek.bytes, ?_, dek, rfl, metaBlob.length,
      ⟨(), by omega, leAt_eq hlenAt hm⟩, (), hlen, (), by omega, metadata, ?_, rfl, rfl, rfl⟩
    · rwa [hbytes, take_left' wrappedDek.length]
    · rwa [hmeta, take_left]

variable {metadata : Option Metadata}

theorem Frame.Opens.length_footer {f : Frame} {dek : Key} {pts : List Bytes}
    (hf : f.Opens P key dek metadata pts) :
    f.footer.length = if f.head.hasFooter then footerLen else 0 := by
  rw [hf.footer]
  split <;> simp

theorem le_inj {n v w : Nat} (hv : v < 256 ^ n) (hw : w < 256 ^ n) (h : le n v = le n w) :
    v = w := by
  rw [← ofLe_le_of_lt hv, h, ofLe_le_of_lt hw]

theorem Header.decodeDekAndMeta_eq_ok (h : Header) (extra : Bytes) {dek : Key}
    {metadata : Option Metadata} {off' : Nat} :
    decodeDekAndMeta P key (h.bytes ++ extra) h.head (70 + h.kemWrap.length) =
        .ok (dek, metadata, off') ↔
      h.Opens P key dek metadata ∧ off' = h.bytes.length := by
  have hbytes : (h.bytes ++ extra).drop (70 + h.kemWrap.length) =
      h.wrappedDek.bytes ++ (le 4 h.metaBlob.length ++ (h.metaBlob ++ extra)) := by
    simp only [Header.bytes, append_assoc]
    rw [drop_left' h.length_preamble]
  have hlen := h.metaBlob_len
  rw [Object.decodeDekAndMeta_eq_ok (h.take_bytes extra), hbytes, h.length_bytes]
  constructor
  · rintro ⟨wrappedDek, metaBlob, tail, heq, hlen', hunwrap, hdecode, rfl⟩
    simp only [metaMaxLen] at hlen hlen'
    obtain ⟨hdek, heq⟩ := append_inj heq (by simp)
    obtain ⟨hmetaLen, heq⟩ := append_inj heq (by simp)
    have hm := le_inj (by omega) (by omega) hmetaLen
    obtain ⟨hmeta, -⟩ := append_inj heq hm
    rw [← hdek] at hunwrap
    rw [← hmeta] at hdecode
    exact ⟨⟨hunwrap, hdecode⟩, by omega⟩
  · rintro ⟨hopen, rfl⟩
    exact ⟨h.wrappedDek, h.metaBlob, extra, rfl, hlen, hopen.unwrap, hopen.decode, by omega⟩

theorem Header.decodeDekAndMeta_bytes_eq_ok (h : Header) {dek : Key} {off : Nat} :
    decodeDekAndMeta P key h.bytes h.head (70 + h.kemWrap.length) = .ok (dek, metadata, off) ↔
      h.Opens P key dek metadata ∧ off = h.bytes.length := by
  have hdecode := @decodeDekAndMeta_eq_ok P key h [] dek metadata off
  rwa [append_nil] at hdecode

/-- The shared reader accepts exactly the frames that open, after whatever preamble its caller has
checked. -/
theorem openCoreStreamed_eq_ok (hv : head.Valid) (kemWrap : Bytes) {rest : Bytes}
    (hk : kemWrap.length ≤ 65535) {emit : σ → Bytes → Except CryptoError σ} {s s' : σ} :
    openCoreStreamed P id key (buildHead head ++ (le 2 kemWrap.length ++ (kemWrap ++ rest))) head
        (70 + kemWrap.length) emit s = .ok (metadata, s') ↔
      ∃ (f : Frame) (dek : Key) (pts : List Bytes), f.head = head ∧ f.kemWrap = kemWrap ∧
        f.Opens P key dek metadata pts ∧
        buildHead head ++ (le 2 kemWrap.length ++ (kemWrap ++ rest)) = f.bytes ∧
        pts.foldlM emit s = .ok s' := by
  generalize hblob : buildHead head ++ (le 2 kemWrap.length ++ (kemWrap ++ rest)) = blob
  have hhead : blob.take objectHeadLen = buildHead head := by
    rw [← hblob, take_left' (length_buildHead head)]
  have hrest : blob.drop (70 + kemWrap.length) = rest := by
    rw [← hblob, ← append_assoc, ← append_assoc, drop_left']
    simp
    omega
  simp only [openCoreStreamed, bind_eq_ok, reject_eq_ok, mapError_eq_ok, pure_eq_ok, hhead,
    Prod.exists, not_lt, ne_eq, not_not, Prod.mk.injEq]
  constructor
  · rintro ⟨dek, metadata, off, hmeta, _, hfooter, _, hhash, p, produced, s1, hloop, _, rfl, _,
      hproduced, rfl, rfl⟩
    obtain ⟨wrappedDek, metaBlob, tail, hbytes, hlen, hunwrap, hdecode, rfl⟩ :=
      (decodeDekAndMeta_eq_ok hhead).mp hmeta
    obtain ⟨cts, pts, tail', hopen, hchunks, hp, rfl, hfold⟩ :=
      (openChunks_eq_ok (Nat.sub_le _ _) (by omega)).mp hloop
    generalize hbodyEnd : blob.length - (if head.hasFooter = true then footerLen else 0) = bodyEnd
      at *
    have htail : tail' = [] := by
      have h := congrArg List.length hchunks
      simp only [length_drop, length_take, length_append] at h
      exact length_eq_zero_iff.mp (by omega)
    let f : Frame :=
      { head, kemWrap, wrappedDek, metaBlob, chunks := cts, footer := blob.drop bodyEnd,
        head_valid := hv, kemWrap_le := hk, metaBlob_len := hlen }
    have hheader : blob = f.header ++ tail := by
      rw [← hblob, ← hrest, hbytes]
      simp [f, Frame.header, Header.bytes, Header.preamble, Header.headBytes]
    have hbody : blob.take bodyEnd = f.body := by
      have hfront : (blob.take bodyEnd).take (70 + kemWrap.length + 76 + metaBlob.length) =
          f.header := by
        rw [take_take, Nat.min_eq_left (by omega), hheader, take_left']
        simp [f]
        omega
      rw [← take_append_drop (70 + kemWrap.length + 76 + metaBlob.length)
        (blob.take bodyEnd), hfront, hchunks, htail, append_nil]
      rfl
    refine ⟨f, dek, pts, rfl, rfl, ⟨⟨hunwrap, hdecode⟩, hopen, by simpa using hproduced, ?_⟩, ?_,
      hfold⟩
    · cases hfoot : head.hasFooter with
      | false => simp [f, hfoot, ← hbodyEnd]
      | true =>
        simp only [hfoot, if_true] at hhash
        simp only [f, if_true, ← hbody]
        by_contra hne
        exact hhash ⟨by decide, hne⟩
    · rw [Frame.bytes, ← hbody, take_append_drop]
  · rintro ⟨f, dek, pts, rfl, rfl, hf, rfl, hfold⟩
    have hfooter := hf.length_footer
    have hbodyEnd : f.bytes.length - (if f.head.hasFooter = true then footerLen else 0) =
        f.body.length := by
      rw [← hfooter, Frame.bytes, length_append, Nat.add_sub_cancel]
    have hrest' : f.bytes.drop (70 + f.kemWrap.length) = f.wrappedDek.bytes ++
        (le 4 f.metaBlob.length ++ (f.metaBlob ++ (f.chunks.flatten ++ f.footer))) := by
      rw [f.bytes_eq, Header.bytes]
      simp only [append_assoc]
      rw [drop_left' f.length_preamble]
    have hbody : f.body.length = f.header.length + f.chunks.flatten.length := by
      simp [Frame.body]
    rw [f.length_header] at hbody
    rw [hbodyEnd]
    refine ⟨dek, metadata, 70 + f.kemWrap.length + 76 + f.metaBlob.length,
      (decodeDekAndMeta_eq_ok hhead).mpr ⟨f.wrappedDek, f.metaBlob, _, hrest', f.metaBlob_len,
        hf.unwrap, hf.decode, rfl⟩, (), ?_, (), ?_, f.body.length, pts.flatten.length, s',
      (openChunks_eq_ok ?_ ?_).mpr ⟨f.chunks, pts, [], hf.chunks, ?_, ?_, (Nat.zero_add _).symm,
        hfold⟩, (), rfl, (), hf.produced, rfl, rfl⟩
    · rw [← hfooter, Frame.bytes, length_append]
      omega
    · rw [Frame.bytes, drop_left, take_left, hf.footer]
      cases f.head.hasFooter <;> simp
    · simp [Frame.bytes]
    · omega
    · rw [Frame.bytes, take_left, Frame.body, append_nil, drop_left']
      rw [f.length_header]
      omega
    · omega

theorem readU16_eq_ok {b : Bytes} {off n : Nat} (hoff : off ≤ b.length) :
    readU16 b off = .ok n ↔ ∃ rest, b.drop off = le 2 n ++ rest ∧ n ≤ 65535 := by
  simp only [readU16, bind_eq_ok, reject_eq_ok, pure_eq_ok, not_lt]
  constructor
  · rintro ⟨_, hlen, rfl⟩
    have hlt := leAt_lt b off 2
    exact ⟨b.drop (off + 2), drop_eq_le_append 2 hlen, by omega⟩
  · rintro ⟨rest, hbytes, hn⟩
    have h := congrArg List.length hbytes
    simp only [length_drop, length_append, length_le] at h
    exact ⟨(), by omega, leAt_eq hbytes (by omega)⟩

theorem parseHead_readU16_eq_ok {blob : Bytes} {n : Nat} :
    parseHead blob = .ok head ∧ readU16 blob objectHeadLen = .ok n ↔
      ∃ rest, blob = buildHead head ++ (le 2 n ++ rest) ∧ head.Valid ∧ n ≤ 65535 := by
  rw [parseHead_eq_ok]
  constructor
  · rintro ⟨⟨rest, rfl, hv⟩, hu16⟩
    obtain ⟨rest', hbytes, hn⟩ := (readU16_eq_ok (by simp)).mp hu16
    rw [drop_left' (length_buildHead head)] at hbytes
    exact ⟨rest', by rw [hbytes], hv, hn⟩
  · rintro ⟨rest, rfl, hv, hn⟩
    refine ⟨⟨_, rfl, hv⟩, (readU16_eq_ok (by simp)).mpr ⟨rest, ?_, hn⟩⟩
    rw [drop_left' (length_buildHead head)]

theorem openOwned_eq_ok {blob : Bytes} : openOwned blob = .ok head ↔
    head.kemId = kemIdNone ∧ ∃ rest, blob = buildHead head ++ (le 2 0 ++ rest) ∧ head.Valid := by
  simp only [openOwned, bind_eq_ok, reject_eq_ok, pure_eq_ok, ne_eq, not_not]
  constructor
  · rintro ⟨head, hhead, _, hkem, n, hn, _, rfl, rfl⟩
    obtain ⟨rest, hbytes, hv, -⟩ := parseHead_readU16_eq_ok.mp ⟨hhead, hn⟩
    exact ⟨hkem, rest, hbytes, hv⟩
  · rintro ⟨hkem, rest, hbytes, hv⟩
    obtain ⟨hhead, hn⟩ := parseHead_readU16_eq_ok.mpr ⟨rest, hbytes, hv, Nat.zero_le _⟩
    exact ⟨head, hhead, (), hkem, 0, hn, (), rfl, rfl⟩

theorem openStream_eq_ok {blob : Bytes} {write : Sink σ} {out out' : σ} :
    openStream P key blob write out = .ok (metadata, out') ↔
      ∃ pts, OpensTo P key blob metadata pts ∧ pts.foldlM (writeOut write) out = .ok out' := by
  simp only [openStream, bind_eq_ok, openOwned_eq_ok]
  constructor
  · rintro ⟨head, ⟨hkem, rest, rfl, hv⟩, hopen⟩
    obtain ⟨f, dek, pts, rfl, hwrap, hf, hbytes, hfold⟩ :=
      (openCoreStreamed_eq_ok hv [] (by simp)).mp hopen
    exact ⟨pts, ⟨f, dek, hkem, hwrap, hf, hbytes⟩, hfold⟩
  · rintro ⟨pts, ⟨f, dek, hkem, hwrap, hf, rfl⟩, hfold⟩
    have hbytes : f.bytes = buildHead f.head ++ (le 2 0 ++ (f.wrappedDek.bytes ++
        (le 4 f.metaBlob.length ++ (f.metaBlob ++ (f.chunks.flatten ++ f.footer))))) := by
      simp [f.bytes_eq, Header.bytes_append, hwrap]
    refine ⟨f.head, ⟨hkem, _, hbytes, f.head_valid⟩, ?_⟩
    have hopen := (openCoreStreamed_eq_ok f.head_valid [] (by simp)).mpr
      ⟨f, dek, pts, rfl, hwrap, hf, hbytes.symm, hfold⟩
    rw [hbytes]
    exact hopen

theorem openObject_eq_openStream (blob : Bytes) :
    openObject P key blob =
      (fun r => ⟨r.1, r.2⟩) <$> openStream P key blob vecSink [] := by
  simp only [openObject, openStream, openCore, map_bind]
  rfl

theorem foldlM_vecSink (pts : List Bytes) (out : Bytes) :
    pts.foldlM (writeOut vecSink) out = .ok (out ++ pts.flatten) := by
  induction pts generalizing out with
  | nil => simp [pure, Except.pure]
  | cons pt pts ih =>
    rw [foldlM_cons, writeOut, vecSink, okOr, ok_bind, ih, flatten_cons,
      append_assoc]

theorem openObject_eq_ok {blob : Bytes} {o : Opened} :
    openObject P key blob = .ok o ↔
      ∃ pts, OpensTo P key blob o.metadata pts ∧ o.plaintext = pts.flatten := by
  simp only [openObject_eq_openStream, map_eq_ok, Prod.exists, openStream_eq_ok, foldlM_vecSink]
  constructor
  · rintro ⟨metadata, plaintext, ⟨pts, hopen, hfold⟩, rfl⟩
    exact ⟨pts, hopen, by simpa using hfold.symm⟩
  · rintro ⟨pts, hopen, hplain⟩
    exact ⟨o.metadata, o.plaintext, ⟨pts, hopen, by rw [hplain, nil_append]⟩, rfl⟩

theorem readHeader_eq_ok {object object' : Source} {header : Bytes}
    (h : readHeader object = .ok (head, header, object')) :
    object.rest = header ++ object'.rest ∧ head.kemId = kemIdNone ∧ head.Valid ∧
      ∃ (wrappedDek : Block wrappedDekLen) (metaBlob : Bytes),
        (metaMinLen ≤ metaBlob.length ∧ metaBlob.length ≤ metaMaxLen) ∧
        header = buildHead head ++ (le 2 0 ++ (wrappedDek.bytes ++
          (le 4 metaBlob.length ++ metaBlob))) := by
  simp only [readHeader, bind_eq_ok, Prod.exists, reject_eq_ok, pure_eq_ok, Prod.mk.injEq, ne_eq,
    not_not, not_or, not_lt] at h
  obtain ⟨headBytes, r1, h1, head', hparse, _, hkem, u16buf, r2, h2, _, hu16, dekBuf, r3, h3,
    lenbuf, r4, h4, _, hlen, metaBlob, r5, h5, rfl, rfl, rfl⟩ := h
  obtain ⟨hb1, hl1⟩ := readFull_eq_ok h1
  obtain ⟨hb2, hl2⟩ := readFull_eq_ok h2
  obtain ⟨hb3, hl3⟩ := readFull_eq_ok h3
  obtain ⟨hb4, hl4⟩ := readFull_eq_ok h4
  obtain ⟨hb5, hl5⟩ := readFull_eq_ok h5
  obtain ⟨rest, rfl, hv⟩ := parseHead_eq_ok.mp hparse
  have hrest : rest = [] := by simpa using hl1
  have hu16' : u16buf = le 2 0 := by rw [← hu16, ← hl2, le_ofLe]
  have hlenbuf : lenbuf = le 4 metaBlob.length := by rw [hl5, ← hl4, le_ofLe]
  refine ⟨?_, hkem, hv, ⟨dekBuf, hl3⟩, metaBlob, by rwa [hl5], ?_⟩
  · rw [hb1, hb2, hb3, hb4, hb5]
    simp
  · rw [hrest, hu16', ← hlenbuf]
    simp

theorem Frame.readHeader {f : Frame} (hkem : f.head.kemId = kemIdNone) (hwrap : f.kemWrap = [])
    {object : Source} {tail : Bytes} (hrest : object.rest = f.header ++ tail) :
    ∃ object', readHeader object = .ok (f.head, f.header, object') ∧ object'.rest = tail := by
  have hheader : f.header = buildHead f.head ++ (le 2 0 ++ (f.wrappedDek.bytes ++
      (le 4 f.metaBlob.length ++ f.metaBlob))) := by
    simp [Frame.header, Header.bytes, Header.preamble, Header.headBytes, hwrap]
  have hm := f.metaBlob_len
  rw [hheader] at hrest
  simp only [append_assoc] at hrest
  obtain ⟨r1, h1, hb1⟩ := readFull_append (length_buildHead f.head) hrest
  obtain ⟨r2, h2, hb2⟩ := readFull_append (length_le 2 0) hb1
  obtain ⟨r3, h3, hb3⟩ := readFull_append f.wrappedDek.length hb2
  obtain ⟨r4, h4, hb4⟩ := readFull_append (length_le 4 f.metaBlob.length) hb3
  obtain ⟨r5, h5, hb5⟩ := readFull_append (rfl : f.metaBlob.length = _) hb4
  have hparse : parseHead (buildHead f.head) = .ok f.head := by
    simpa using f.head_valid.parseHead []
  have hlen : ofLe (le 4 f.metaBlob.length) = f.metaBlob.length :=
    ofLe_le_of_lt (by simp only [metaMaxLen] at hm; omega)
  refine ⟨r5, ?_, hb5⟩
  simp only [Object.readHeader, bind_eq_ok, Prod.exists, reject_eq_ok, pure_eq_ok, Prod.mk.injEq,
    ne_eq, not_not, not_or, not_lt]
  refine ⟨_, r1, h1, f.head, hparse, (), hkem, _, r2, h2, (), rfl, _, r3, h3, _, r4, h4, (), ?_,
    f.metaBlob, r5, ?_, rfl, ?_, rfl⟩
  · rwa [hlen]
  · rwa [hlen]
  · rw [hheader]
    simp

theorem readFooter_eq_ok {object object' : Source} {hashed : Bytes}
    (h : readFooter P head hashed object = .ok object') :
    object.rest = (if head.hasFooter then (P.hash hashed).bytes else []) ++ object'.rest := by
  simp only [readFooter] at h
  split at h
  next hfoot =>
    simp only [bind_eq_ok, Prod.exists, reject_eq_ok, pure_eq_ok, ne_eq, not_not] at h
    obtain ⟨footer, r, hread, _, rfl, rfl⟩ := h
    simpa [hfoot] using (readFull_eq_ok hread).1
  next hfoot =>
    simp only [pure_eq_ok] at h
    simp [hfoot, h]

theorem readFooter_append {object : Source} {hashed tail : Bytes}
    (h : object.rest = (if head.hasFooter then (P.hash hashed).bytes else []) ++ tail) :
    ∃ object', readFooter P head hashed object = .ok object' ∧ object'.rest = tail := by
  simp only [readFooter]
  split
  next hfoot =>
    rw [if_pos hfoot] at h
    obtain ⟨r, hread, hrest⟩ := readFull_append (P.hash hashed).length h
    exact ⟨r, by simp [hread], hrest⟩
  next hfoot =>
    rw [if_neg hfoot, nil_append] at h
    exact ⟨object, rfl, h⟩

/-- Opening from a reader accepts exactly the objects that open, however the reader cuts its
answers. -/
theorem openReader_eq_ok {object : Source} {write : Sink σ} {out out' : σ} :
    openReader P key object write out = .ok (metadata, out') ↔
      ∃ pts, OpensTo P key object.rest metadata pts ∧
        pts.foldlM (writeOut write) out = .ok out' := by
  simp only [openReader, bind_eq_ok, Prod.exists, reject_eq_ok, pure_eq_ok, Prod.mk.injEq, ne_eq,
    not_not]
  constructor
  · rintro ⟨head, header, r, hheader, dek, metadata, off, hdecode, s, hloop, _, hproduced, r',
      hfooter, _, hend, rfl, rfl⟩
    obtain ⟨hrest, hkem, hv, wrappedDek, metaBlob, hlen, rfl⟩ := readHeader_eq_ok hheader
    rw [take_left' (length_buildHead head)] at hloop
    obtain ⟨cts, pts, hopen, hchunks, hhashed, hproduced', hfold⟩ := readChunks_eq_ok hloop
    have hfooter' := readFooter_eq_ok hfooter
    rw [Source.read_eq_nil (by decide)] at hend
    let f : Frame :=
      { head, kemWrap := [], wrappedDek, metaBlob, chunks := cts,
        footer := if head.hasFooter then (P.hash s.hashed).bytes else [],
        head_valid := hv, kemWrap_le := by simp, metaBlob_len := hlen }
    have hheader' : buildHead head ++ (le 2 0 ++ (wrappedDek.bytes ++
        (le 4 metaBlob.length ++ metaBlob))) = f.header := by
      simp [f, Frame.header, Header.bytes, Header.preamble, Header.headBytes]
    rw [hheader'] at hdecode hrest hhashed
    obtain ⟨hopenHeader, -⟩ :=
      (f.decodeDekAndMeta_eq_ok []).mp (by rw [append_nil]; exact hdecode)
    refine ⟨pts, ⟨f, dek, hkem, rfl, ⟨hopenHeader, hopen, ?_, ?_⟩, ?_⟩, hfold⟩
    · have hcount : s.produced = 0 + pts.flatten.length := hproduced'
      rw [← hproduced, hcount, Nat.zero_add]
    · have hbody : s.hashed = f.body := hhashed
      change (if head.hasFooter then (P.hash s.hashed).bytes else []) = _
      rw [hbody]
    · rw [hrest, hchunks, hfooter', hend, append_nil]
      simp [Frame.bytes, Frame.body, f]
  · rintro ⟨pts, ⟨f, dek, hkem, hwrap, hf, hbytes⟩, hfold⟩
    rw [Frame.bytes, Frame.body, append_assoc] at hbytes
    obtain ⟨r1, hheader, hb1⟩ := Frame.readHeader hkem hwrap hbytes
    have hdecode : decodeDekAndMeta P key f.header f.head (objectHeadLen + 2) =
        .ok (dek, metadata, f.header.length) := by
      have h := (f.decodeDekAndMeta_eq_ok []).mpr ⟨hf.toOpens, rfl⟩
      rw [append_nil, hwrap] at h
      exact h
    obtain ⟨r2, hb2, hloop⟩ :=
      hf.chunks.readChunks (s := { object := r1, hashed := f.header, produced := 0, out }) hb1 hfold
    have hhead : f.header.take objectHeadLen = buildHead f.head := by
      have h := f.take_bytes []
      rwa [append_nil] at h
    have hfoot : r2.rest = (if f.head.hasFooter then (P.hash f.body).bytes else []) ++ [] := by
      rw [hb2, hf.footer, append_nil]
    obtain ⟨r3, hfooter, hb3⟩ := readFooter_append hfoot
    rw [← hhead] at hloop
    have hend := (Source.read_eq_nil (s := r3) Nat.one_pos).mpr hb3
    have hcount : 0 + pts.flatten.length = f.head.plaintextLen.toNat := by
      rw [Nat.zero_add, hf.produced]
    exact ⟨f.head, f.header, r1, hheader, dek, metadata, _, hdecode, _, hloop, (), hcount, r3,
      hfooter, (), hend, rfl, rfl⟩

section Reserving

variable {serves : Nat → Bool} {cap : Nat} {dek : Key} {headBytes blob : Bytes} {bodyEnd : Nat}

/-- With its buffer reserved, the consumer of `open_core` is the one that appends. -/
theorem openChunks_reserved {n index p produced : Nat} {plaintext : Bytes} {reserved : Bool}
    (h : reserved = true ∨ reserveExact serves cap = true) :
    (openChunks P .error dek head headBytes blob bodyEnd (reserving serves cap) n index p produced
        (plaintext, reserved)).map (fun r => (r.1, r.2.1, r.2.2.1)) =
      (openChunks P id dek head headBytes blob bodyEnd
        (fun plaintext chunk => pure (plaintext ++ chunk)) n index p produced plaintext).mapError
          Halt.error := by
  induction n generalizing index p produced plaintext reserved with
  | zero => rfl
  | succ n ih =>
    unfold openChunks
    by_cases hlen :
      bodyEnd < p + (chunkPlaintextLen head.plaintextLen.toNat head.chunkSize.toNat index + tagLen)
    · simp only [reject, if_pos hlen]
      rfl
    · simp only [reject, if_neg hlen, ok_bind]
      cases decryptChunk P dek head headBytes index ((blob.drop p).take
          (chunkPlaintextLen head.plaintextLen.toNat head.chunkSize.toNat index + tagLen)) with
      | error e => rfl
      | ok pt =>
        have hserved : (reserved || reserveExact serves cap) = true := by simpa using h
        have hstep : reserving serves cap (plaintext, reserved) pt = .ok (plaintext ++ pt, true) :=
          if_pos hserved
        simp only [Except.mapError, ok_bind, hstep]
        exact ih (.inl rfl)

/-- The shared reader hands out a chunk: it calls a consumer that stops at the first one. -/
def HandsOut (P : Primitives) (key : Key) (blob : Bytes) (head : Head) (off : Nat) : Prop :=
  openCoreStreamed P Halt.error key blob head off (fun (_ : Unit) _ => .error .panic)
    () = .error .panic

theorem openCoreReserving_cases (serves : Nat → Bool) (blob : Bytes) (head : Head) (off : Nat) :
    (reserveExact serves head.plaintextLen.toNat = false ∧ HandsOut P key blob head off) ∧
        openCoreReserving P serves key blob head off = .error .panic ∨
      ¬(reserveExact serves head.plaintextLen.toNat = false ∧ HandsOut P key blob head off) ∧
        openCoreReserving P serves key blob head off =
          (openCore P key blob head off).mapError .error := by
  unfold HandsOut openCoreReserving openCore openCoreStreamed
  cases decodeDekAndMeta P key blob head off with
  | error e => exact .inr ⟨fun h => (by cases h.2), rfl⟩
  | ok r =>
    obtain ⟨dek, metadata, off'⟩ := r
    simp only [Except.mapError, ok_bind]
    generalize (if head.hasFooter = true then footerLen else 0) = footer
    by_cases hfooter : blob.length < off' + footer
    · simp only [reject, if_pos hfooter]
      exact .inr ⟨fun h => (by cases h.2), rfl⟩
    by_cases hhash : footer ≠ 0 ∧ blob.drop (blob.length - footer) ≠
        (P.hash (blob.take (blob.length - footer))).bytes
    · simp only [reject, if_neg hfooter, if_pos hhash, ok_bind]
      exact .inr ⟨fun h => (by cases h.2), rfl⟩
    simp only [reject, if_neg hfooter, if_neg hhash, ok_bind]
    cases hserved : reserveExact serves head.plaintextLen.toNat with
    | true =>
      have hloop := @openChunks_reserved P head serves head.plaintextLen.toNat dek
        (blob.take objectHeadLen) blob
        (blob.length - footer) head.chunkCount.toNat 0 off' 0 [] false (.inr hserved)
      generalize openChunks P Halt.error dek head _ _ _ (reserving _ _) _ _ _ _ _ = r₁ at *
      generalize openChunks P id dek head _ _ _ _ _ _ _ _ _ = r₂ at *
      refine .inr ⟨fun h => (by cases h.1), ?_⟩
      cases r₁ with
      | error e =>
        cases r₂ with
        | error e' =>
          obtain rfl : e = .error e' := Except.error.inj hloop
          rfl
        | ok r => cases hloop
      | ok r =>
        cases r₂ with
        | error e' => cases hloop
        | ok r' =>
          obtain rfl : (r.1, r.2.1, r.2.2.1) = r' := Except.ok.inj hloop
          simp only [ok_bind]
          split_ifs <;> rfl
    | false =>
      cases head.chunkCount.toNat with
      | zero =>
        refine .inr ⟨fun h => ?_, ?_⟩
        · have h := h.2
          simp only [openChunks, pure_bind] at h
          split_ifs at h <;> cases h
        · simp only [openChunks, pure_bind]
          split_ifs <;> rfl
      | succ n =>
        unfold openChunks
        by_cases hlen : blob.length - footer < off' +
            (chunkPlaintextLen head.plaintextLen.toNat head.chunkSize.toNat 0 + tagLen)
        · simp only [reject, if_pos hlen]
          exact .inr ⟨fun h => (by cases h.2), rfl⟩
        · simp only [reject, if_neg hlen, ok_bind]
          cases decryptChunk P dek head _ 0 _ with
          | error e => exact .inr ⟨fun h => (by cases h.2), rfl⟩
          | ok pt =>
            have hstep : reserving serves head.plaintextLen.toNat ([], false) pt = .error .panic :=
              if_neg (by simp [hserved])
            simp only [Except.mapError, ok_bind, hstep]
            exact .inl ⟨⟨trivial, rfl⟩, rfl⟩

end Reserving

theorem openReserving_eq_panic {serves : Nat → Bool} {blob : Bytes} :
    openReserving P serves key blob = .error .panic ↔ ∃ head, openOwned blob = .ok head ∧
      reserveExact serves head.plaintextLen.toNat = false ∧
        HandsOut P key blob head (objectHeadLen + 2) := by
  unfold openReserving
  cases openOwned blob with
  | error e => exact iff_of_false nofun nofun
  | ok head =>
    simp only [Except.mapError, ok_bind, Except.ok.injEq, exists_eq_left']
    rcases openCoreReserving_cases serves blob head (objectHeadLen + 2)
      with ⟨hpanics, heq⟩ | ⟨hnot, heq⟩
    · exact iff_of_true heq hpanics
    · refine iff_of_false (fun h => ?_) hnot
      rw [heq] at h
      cases hopen : openCore P key blob head (objectHeadLen + 2) with
      | error e => rw [hopen] at h; cases h
      | ok o => rw [hopen] at h; cases h

theorem openReserving_eq_openObject {serves : Nat → Bool} {blob : Bytes}
    (h : openReserving P serves key blob ≠ .error .panic) :
    openReserving P serves key blob = (openObject P key blob).mapError .error := by
  unfold openReserving openObject at *
  cases howned : openOwned blob with
  | error e => rfl
  | ok head =>
    rw [howned] at h
    rcases openCoreReserving_cases serves blob head (objectHeadLen + 2) with ⟨-, heq⟩ | ⟨-, heq⟩
    · exact absurd heq h
    · exact heq

/-- On every byte string the three readers agree, however the incremental one cuts its answers,
save where `open` panics: at the first chunk that verifies, when the length the authenticated head
declares cannot be reserved. -/
theorem readers_agree (P : Primitives) (serves : Nat → Bool) (key : Key) (blob : Bytes)
    (grants : List Nat) :
    (openReserving P serves key blob = .error .panic ↔ ∃ head, openOwned blob = .ok head ∧
      reserveExact serves head.plaintextLen.toNat = false ∧
      HandsOut P key blob head (objectHeadLen + 2)) ∧
    (openReserving P serves key blob = .error .panic ∨
      ∀ o, openReserving P serves key blob = .ok o ↔
      openStream P key blob vecSink [] = .ok (o.metadata, o.plaintext)) ∧
    ∀ out, openStream P key blob vecSink [] = .ok out ↔
      openReader P key (Source.of blob grants) vecSink [] = .ok out := by
  refine ⟨openReserving_eq_panic, ?_, fun out => ?_⟩
  · by_cases hpanic : openReserving P serves key blob = .error .panic
    · exact .inl hpanic
    · right
      intro o
      rw [openReserving_eq_openObject hpanic, mapError_eq_ok, openObject_eq_openStream, map_eq_ok]
      constructor
      · rintro ⟨r, hr, rfl⟩
        exact hr
      · exact fun hr => ⟨_, hr, rfl⟩
  · rw [show out = (out.1, out.2) from rfl, openStream_eq_ok, openReader_eq_ok, Source.rest_of]

/-- The head of an object that declares 2^63 bytes in chunks of one. -/
def overlongHead : Head :=
  { sealHead kemIdNone ⟨default, default, default, default, default⟩ 0x8000000000000000 1 with flags := 0 }

/-- `overlongHead` before the sealed metadata and a first chunk that verifies. -/
def overlong : Bytes :=
  let headBytes := buildHead overlongHead
  let sealed := do
    let wrappedDek ← Aead.encrypt clearPrimitives default default (default : Key).bytes
      (prefixedAad dekWrapAadPrefix headBytes)
    let metaPt ← buildMetadata ((Metadata.new "a").filled 0x8000000000000000 default)
    let metaCt ← Aead.encryptWithNonce clearPrimitives default default metaPt
      (prefixedAad metaAadPrefix headBytes)
    let chunk ← sealChunks clearPrimitives default (baseNonce default) headBytes 0 [[7]]
    pure (headBytes ++ le 2 0 ++ wrappedDek ++ le 4 (nonceLen + metaCt.length) ++
      (default : Nonce).bytes ++ metaCt ++
      chunk)
  match sealed with
  | .ok bytes => bytes
  | .error _ => []

/-- The two other openers report an error where `open` panics. -/
theorem open_panics_overlong :
    openReserving clearPrimitives (fun _ => true) default overlong = .error .panic ∧
      openStream clearPrimitives default overlong vecSink [] =
        .error (.format "object truncated (chunk)") ∧
      openReader clearPrimitives default (Source.of overlong []) vecSink [] =
        .error (.format "object truncated") := by
  decide +kernel

def sampleObject : Bytes :=
  match sealObject clearPrimitives default ⟨default, default, default, default, default⟩
    [1, 2, 3] (Metadata.new "a") 2 with
  | .ok bytes => bytes
  | .error _ => []

def sampleOpened : Opened where
  metadata := some ((Metadata.new "a").filled 3 (clearPrimitives.hash [1, 2, 3]))
  plaintext := [1, 2, 3]

theorem openObject_sampleObject :
    openObject clearPrimitives default sampleObject = .ok sampleOpened := by
  decide +kernel

end Dctl.Object
