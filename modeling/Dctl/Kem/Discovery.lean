import Dctl.Crypto.Names
import Dctl.Kem.Wrap
import Dctl.Object.Head

/-! Discovery records `DGD1` (`kem/discovery.rs`): a pointer to one shared object, sealed to one of
its recipients under a key of its own.  What was sealed for a recipient comes back to it, and to
nobody else or beside another head. -/

namespace Dctl.Kem

open ProofKit Crypto List

@[simp, reducible] def discoveryVersion : UInt8 := 1
@[simp, reducible] def discSchemaV1 : UInt8 := 1

/-- `*b"DGD1"`. -/
def discoveryMagic : Bytes := [0x44, 0x47, 0x44, 0x31]

def discAadPrefix : Bytes := ascii "dctl-disc-v1::"

structure DiscoveryInfo where
  objSuite : UInt8
  fileId : FileId
  size : UInt64
  contentHash : Digest
  path : String
  ext : Bytes

/-- What one discovery record draws: its key, the wrap of it, and the nonce of its body. -/
structure DiscoveryDraws where
  dw : Key
  encaps : EncapsDraws
  nonce : Nonce

variable (P : Primitives) (K : KemPrimitives) (U : Unicode)

def dgd1Header (recipientKeyId : KeyId) (fileId : FileId) (headHash : Digest) : Bytes :=
  discoveryMagic ++ [discoveryVersion, kemSuiteX25519Mlkem768, 0, 0] ++ recipientKeyId.bytes ++
    fileId.bytes ++ headHash.bytes

def buildDiscPlaintext (disc : DiscoveryInfo) : Except CryptoError Bytes := do
  let path := utf8 disc.path
  reject (65535 < path.length) (.format "disc path too long")
  reject (path.length = 0) (.format "disc path must be non-empty")
  reject (65535 < disc.ext.length) (.format "disc ext too long")
  pure ([discSchemaV1, disc.objSuite] ++ disc.fileId.bytes ++ le 8 disc.size.toNat ++
    disc.contentHash.bytes ++ le 2 path.length ++ path ++ le 2 disc.ext.length ++ disc.ext)

def sealDgd1 (recipient : Drk1Public) (headBytes : Bytes) (disc : DiscoveryInfo)
    (draws : DiscoveryDraws) : Except CryptoError Bytes := do
  Path.validate U disc.path
  let header := dgd1Header (recipient.keyId P) disc.fileId (P.hash headBytes)
  let wrappedDw ← encapsulateTo P K recipient headBytes draws.dw draws.encaps
  reject (wrappedDw.length ≠ recipSubrecordLen) (.format "wrapped_dw wrong size")
  let discPlaintext ← buildDiscPlaintext disc
  let sealedBody ← Aead.encrypt P draws.dw draws.nonce discPlaintext (discAadPrefix ++ header)
  pure (header ++ wrappedDw ++ sealedBody)

open ProofKit Crypto Object

@[simp, reducible] def dgd1HeaderLen : Nat := 88
@[simp, reducible] def dgd1BodyOffset : Nat := 1322
@[simp, reducible] def discMinPlaintextLen : Nat := 62

variable (P : Primitives) (K : KemPrimitives) (U : Unicode)

/-- Parse the plaintext of a body under a header with this file id.  The `checked_add` on each start
and 16-bit length cannot overflow a 64-bit `usize`. -/
def parseDiscPlaintext (pt : Bytes) (headerFileId : FileId) : Except CryptoError DiscoveryInfo := do
  reject (pt.length < discMinPlaintextLen) (.format "disc_plaintext too short")
  reject (byteAt pt 0 ≠ discSchemaV1) (.format "unsupported disc_schema")
  let objSuite := byteAt pt 1
  reject (objSuite ≠ kemSuiteX25519Mlkem768) (.format "disc obj_suite mismatch")
  let fileId := Block.slice fileIdLen pt 2
  reject (fileId ≠ headerFileId) (.format "disc_plaintext file_id != header.file_id")
  let pathLen := leAt pt 58 2
  reject (pathLen = 0) (.format "disc path_len must be >= 1")
  let pEnd := 60 + pathLen
  reject (pt.length < pEnd + 2) (.format "disc truncated (ext_len)")
  let path ← okOr (.format "disc path not UTF-8") (fromUtf8 ((pt.drop 60).take pathLen))
  let extLen := leAt pt pEnd 2
  let extStart := pEnd + 2
  reject (extStart + extLen ≠ pt.length) (.format "disc_plaintext length != 62 + P + E")
  Path.validate U path
  pure { objSuite, fileId, size := UInt64.ofNat (leAt pt 18 8), contentHash := Block.slice 32 pt 26,
         path, ext := (pt.drop extStart).take extLen }

def openDgd1 (bytes : Bytes) (keypair : RecipientKeypair) (headBytes : Option Bytes) :
    Except CryptoError DiscoveryInfo := do
  reject (bytes.length < dgd1BodyOffset + nonceLen + tagLen) (.format "DGD1 too short")
  reject (bytes.take 4 ≠ discoveryMagic) (.format "bad DGD1 magic")
  reject (byteAt bytes 4 ≠ discoveryVersion) (.format "unsupported DGD1 version")
  reject (byteAt bytes 5 ≠ kemSuiteX25519Mlkem768) (.format "unsupported DGD1 hybrid_suite")
  reject (byteAt bytes 6 ≠ 0 ∨ byteAt bytes 7 ≠ 0) (.format "DGD1 reserved bytes nonzero")
  let recipientKeyId := Block.slice keyIdLen bytes 8
  reject (recipientKeyId ≠ keypair.keyId P K)
    (.format "DGD1 recipient_key_id does not match this keypair")
  let fileId := Block.slice fileIdLen bytes 40
  let (subKeyId, sub) ← parseSubrecord ((bytes.drop dgd1HeaderLen).take recipSubrecordLen)
  reject (subKeyId ≠ recipientKeyId) (.format "DGD1 wrapped_dw key_id != recipient_key_id")
  let headBytes ← okOr (.format "DGD1 open requires the object head") headBytes
  reject (P.hash headBytes ≠ Block.slice 32 bytes 56) (.format "DGD1 head_hash mismatch")
  let head ← parseHead headBytes
  reject (head.fileId ≠ fileId) (.format "DGD1 head.file_id != header.file_id")
  let dw ← decapsulateKw P K sub keypair headBytes
  let discPlaintext ← Aead.decrypt P dw (bytes.drop dgd1BodyOffset)
    (discAadPrefix ++ bytes.take dgd1HeaderLen)
  parseDiscPlaintext U discPlaintext fileId

variable {P K U}

variable {pt : Bytes} {disc : DiscoveryInfo}

theorem buildDiscPlaintext_eq_ok :
    buildDiscPlaintext disc = .ok pt ↔
      (utf8 disc.path).length ≤ 65535 ∧ (utf8 disc.path).length ≠ 0 ∧ disc.ext.length ≤ 65535 ∧
        [discSchemaV1, disc.objSuite] ++ disc.fileId.bytes ++ le 8 disc.size.toNat ++
          disc.contentHash.bytes ++ le 2 (utf8 disc.path).length ++ utf8 disc.path ++
          le 2 disc.ext.length ++ disc.ext = pt := by
  simp only [buildDiscPlaintext, bind_eq_ok, reject_eq_ok, pure_eq_ok, not_lt]
  constructor
  · rintro ⟨_, hpath, _, hne, _, hext, rfl⟩
    exact ⟨hpath, hne, hext, rfl⟩
  · rintro ⟨hpath, hne, hext, rfl⟩
    exact ⟨(), hpath, (), hne, (), hext, rfl⟩

variable {opened : DiscoveryInfo}

theorem parseDiscPlaintext_of_build {fileId : FileId} (hbuild : buildDiscPlaintext disc = .ok pt) :
    parseDiscPlaintext U pt fileId = .ok opened ↔
      opened = disc ∧ fileId = disc.fileId ∧ disc.objSuite = kemSuiteX25519Mlkem768 ∧
        Path.validate U disc.path = .ok () := by
  obtain ⟨hpath, hne, hextLen, hpt⟩ := buildDiscPlaintext_eq_ok.mp hbuild
  have hlen : pt.length = 62 + (utf8 disc.path).length + disc.ext.length := by
    simp [← hpt]
    omega
  have h60 : pt.drop 60 = utf8 disc.path ++ (le 2 disc.ext.length ++ disc.ext) := by
    simp [← hpt, drop_append]
  have hobj : byteAt pt 1 = disc.objSuite := by rw [← hpt]; rfl
  have hschema : byteAt pt 0 = discSchemaV1 := by rw [← hpt]; rfl
  have hid : Block.slice fileIdLen pt 2 = disc.fileId :=
    Block.slice_eq (by simp [← hpt]; rfl)
  have hsize : leAt pt 18 8 = disc.size.toNat :=
    leAt_eq (by simp [← hpt]; rfl) disc.size.toNat_lt
  have hhash : Block.slice 32 pt 26 = disc.contentHash :=
    Block.slice_eq (by simp [← hpt, drop_append]; rfl)
  have hpathLen : leAt pt 58 2 = (utf8 disc.path).length :=
    leAt_eq (by simp [← hpt, drop_append]; rfl) (by omega)
  clear hpt hbuild
  generalize hp : (utf8 disc.path).length = p at *
  have hextAt : pt.drop (60 + p) = le 2 disc.ext.length ++ disc.ext := by
    rw [← drop_drop, h60, drop_left' hp]
  have hext : pt.drop (60 + p + 2) = disc.ext := by
    rw [← drop_drop, hextAt, drop_left' (length_le 2 _)]
  have hel : leAt pt (60 + p) 2 = disc.ext.length := leAt_eq hextAt (by omega)
  have hread : fromUtf8 ((pt.drop 60).take p) = some disc.path := by
    rw [h60, take_left' hp, fromUtf8_utf8]
  simp only [parseDiscPlaintext, bind_eq_ok, reject_eq_ok, okOr_eq_ok, pure_eq_ok, not_lt, ne_eq,
    not_not, hschema, hobj, hid, hsize, hhash, hpathLen, hel, hext, hread, UInt64.ofNat_toNat,
    take_length, Option.some.injEq, discMinPlaintextLen]
  constructor
  · rintro ⟨_, -, _, -, _, hsuite, _, rfl, _, -, _, -, path, rfl, _, -, _, hvalid, rfl⟩
    exact ⟨rfl, rfl, hsuite, hvalid⟩
  · rintro ⟨rfl, rfl, hsuite, hvalid⟩
    exact ⟨(), by omega, (), trivial, (), hsuite, (), rfl, (), hne, (), by omega, _, rfl, (),
      by omega, (), hvalid, rfl⟩

variable {bytes : Bytes} {keyId : KeyId}

theorem take_eq_dgd1Header {fileId : FileId} {headHash : Digest}
    (hlen : dgd1HeaderLen ≤ bytes.length) :
    bytes.take dgd1HeaderLen = dgd1Header keyId fileId headHash ↔
      bytes.take 4 = discoveryMagic ∧ byteAt bytes 4 = discoveryVersion ∧
        byteAt bytes 5 = kemSuiteX25519Mlkem768 ∧ (byteAt bytes 6 = 0 ∧ byteAt bytes 7 = 0) ∧
        Block.slice keyIdLen bytes 8 = keyId ∧ Block.slice fileIdLen bytes 40 = fileId ∧
        Block.slice 32 bytes 56 = headHash := by
  simp only [dgd1HeaderLen] at hlen ⊢
  constructor
  · intro htake
    have hbytes : bytes = dgd1Header keyId fileId headHash ++ bytes.drop 88 := by
      rw [← htake, take_append_drop]
    rw [hbytes]
    refine ⟨rfl, rfl, rfl, ⟨rfl, rfl⟩, ?_, ?_, ?_⟩
    · exact Block.slice_eq (by simp [dgd1Header, discoveryMagic]; rfl)
    · exact Block.slice_eq (by simp [dgd1Header, discoveryMagic]; rfl)
    · exact Block.slice_eq (by simp [dgd1Header, discoveryMagic, drop_append]; rfl)
  · rintro ⟨hmagic, hversion, hsuite, ⟨hzero, hzero'⟩, hkey, hfile, hhash⟩
    have hbytes : bytes = dgd1Header keyId fileId headHash ++ bytes.drop 88 := by
      conv_lhs =>
        rw [← take_append_drop 4 bytes, hmagic,
          drop_eq_byteAt_cons (i := 4) (by omega), hversion,
          drop_eq_byteAt_cons (i := 5) (by omega), hsuite,
          drop_eq_byteAt_cons (i := 6) (by omega), hzero,
          drop_eq_byteAt_cons (i := 7) (by omega), hzero',
          Block.drop_eq_slice_append (i := 8) keyIdLen (by simp; omega), hkey,
          show 8 + keyIdLen = 40 from rfl,
          Block.drop_eq_slice_append (i := 40) fileIdLen (by simp; omega), hfile,
          show 40 + fileIdLen = 56 from rfl,
          Block.drop_eq_slice_append (i := 56) 32 (by omega), hhash]
      simp [dgd1Header]
    have hheader : (dgd1Header keyId fileId headHash).length = 88 := by
      simp [dgd1Header, discoveryMagic]
    rw [hbytes, take_left' hheader]

def dgd1Subrecord (bytes : Bytes) : Bytes := (bytes.drop dgd1HeaderLen).take recipSubrecordLen

variable {record : Bytes}

theorem sub_of_parseSubrecord {sub : SubRecord} (h : parseSubrecord record = .ok (keyId, sub)) :
    sub = sliceSubrecord record := by
  simp only [parseSubrecord, bind_eq_ok, reject_eq_ok, pure_eq_ok, Prod.mk.injEq] at h
  obtain ⟨_, -, _, -, -, rfl⟩ := h
  rfl

variable {head : Bytes} {keypair : RecipientKeypair}

theorem openDgd1_eq_ok :
    openDgd1 P K U bytes keypair (some head) = .ok opened ↔
      dgd1BodyOffset + nonceLen + tagLen ≤ bytes.length ∧
        ∃ h dw pt,
          bytes.take dgd1HeaderLen = dgd1Header (keypair.keyId P K) h.fileId (P.hash head) ∧
          parseSubrecord (dgd1Subrecord bytes) =
            .ok (keypair.keyId P K, sliceSubrecord (dgd1Subrecord bytes)) ∧
          parseHead head = .ok h ∧
          decapsulateKw P K (sliceSubrecord (dgd1Subrecord bytes)) keypair head = .ok dw ∧
          Aead.decrypt P dw (bytes.drop dgd1BodyOffset)
            (discAadPrefix ++ bytes.take dgd1HeaderLen) = .ok pt ∧
          parseDiscPlaintext U pt h.fileId = .ok opened := by
  simp only [openDgd1, bind_eq_ok, reject_eq_ok, okOr_eq_ok, Prod.exists, not_lt, ne_eq, not_not,
    not_or, Option.some.injEq]
  constructor
  · rintro ⟨_, hlen, _, hmagic, _, hversion, _, hsuite, _, hreserved, _, hkey, id, sub, hsub, _,
      hid, _, rfl, _, hhash, h, hhead, _, hfile, dw, hdw, pt, hpt, hparse⟩
    refine ⟨hlen, h, dw, pt, ?_, ?_, hhead, ?_, hpt, ?_⟩
    · rw [take_eq_dgd1Header (by simp at hlen ⊢; omega)]
      exact ⟨hmagic, hversion, hsuite, hreserved, hkey, hfile.symm, hhash.symm⟩
    · rw [dgd1Subrecord, hsub, hid, hkey, sub_of_parseSubrecord hsub]
    · rw [dgd1Subrecord, ← sub_of_parseSubrecord hsub]
      exact hdw
    · rw [hfile]
      exact hparse
  · rintro ⟨hlen, h, dw, pt, hheader, hsub, hhead, hdw, hpt, hparse⟩
    obtain ⟨hmagic, hversion, hsuite, hreserved, hkey, hfile, hhash⟩ :=
      (take_eq_dgd1Header (by simp at hlen ⊢; omega)).mp hheader
    exact ⟨(), hlen, (), hmagic, (), hversion, (), hsuite, (), hreserved, (), hkey, _, _, hsub, (),
      hkey.symm, head, rfl, (), hhash.symm, h, hhead, (), hfile.symm, dw, hdw, pt, hpt,
      hfile ▸ hparse⟩

theorem openDgd1_none : openDgd1 P K U bytes keypair none ≠ .ok opened := by
  simp [openDgd1]

variable {draws : DiscoveryDraws} {recipient : Drk1Public}

theorem sealDgd1_eq_ok (h : sealDgd1 P K U recipient head disc draws = .ok record) :
    ∃ sub pt body, Path.validate U disc.path = .ok () ∧
      encapsulateTo P K recipient head draws.dw draws.encaps = .ok sub ∧
      sub.length = recipSubrecordLen ∧ buildDiscPlaintext disc = .ok pt ∧
      Aead.encrypt P draws.dw draws.nonce pt
        (discAadPrefix ++ dgd1Header (recipient.keyId P) disc.fileId (P.hash head)) = .ok body ∧
      record = dgd1Header (recipient.keyId P) disc.fileId (P.hash head) ++ (sub ++ body) := by
  simp only [sealDgd1, bind_eq_ok, reject_eq_ok, pure_eq_ok, ne_eq, not_not] at h
  obtain ⟨_, hvalid, sub, hsub, _, hlen, pt, hpt, body, hbody, rfl⟩ := h
  exact ⟨sub, pt, body, hvalid, hsub, hlen, hpt, hbody, append_assoc ..⟩

structure Dgd1Parts (record header sub body : Bytes) : Prop where
  header : record.take dgd1HeaderLen = header
  sub : dgd1Subrecord record = sub
  body : record.drop dgd1BodyOffset = body

theorem dgd1Parts_append (keyId : KeyId) (fileId : FileId) (headHash : Digest) {sub : Bytes}
    (body : Bytes) (hsub : sub.length = recipSubrecordLen) :
    Dgd1Parts (dgd1Header keyId fileId headHash ++ (sub ++ body))
      (dgd1Header keyId fileId headHash) sub body := by
  have hheader : (dgd1Header keyId fileId headHash).length = dgd1HeaderLen := by
    simp [dgd1Header, discoveryMagic]
  refine ⟨take_left' hheader, ?_, ?_⟩
  · rw [dgd1Subrecord, drop_left' hheader, take_left' hsub]
  · rw [show dgd1BodyOffset = dgd1HeaderLen + recipSubrecordLen from rfl, ← drop_drop,
      drop_left' hheader, drop_left' hsub]

/-- At most one key and one associated data open the blob. -/
def OpensOnce (P : Primitives) (blob : Bytes) : Prop :=
  ∀ key aad pt key' aad' pt', Aead.decrypt P key blob aad = .ok pt →
    Aead.decrypt P key' blob aad' = .ok pt' → key' = key ∧ aad' = aad

/-- No transcript with another info derives a wrapping key of this one. -/
def Transcript.Alone (K : KemPrimitives) (t : Transcript) : Prop :=
  ∀ ssX kM ssX' kM' t', wrappingKey K ssX' kM' t' = wrappingKey K ssX kM t → t'.info = t.info

def SubRecord.transcript (P : Primitives) (sub : SubRecord) (recipient : Drk1Public)
    (fixedHead : Bytes) : Transcript :=
  { fixedHead, keyId := recipient.keyId P, ephPk := sub.ephPk, ctM := sub.ctM, recipient }

/-- Ideal primitives, as far as one record sealed to `recipient` beside `head` goes. -/
structure IdealFor (P : Primitives) (K : KemPrimitives) (recipient : Drk1Public)
    (head record : Bytes) : Prop where
  wrapped : OpensOnce P (sliceSubrecord (dgd1Subrecord record)).wrappedKw
  body : OpensOnce P (record.drop dgd1BodyOffset)
  combiner : ((sliceSubrecord (dgd1Subrecord record)).transcript P recipient head).Alone K

theorem Transcript.recipient_of_info {t t' : Transcript} (h : t'.info = t.info) :
    t'.recipient = t.recipient := by
  obtain ⟨hrest, hek⟩ := append_inj' h (by simp)
  obtain ⟨-, hx⟩ := append_inj' hrest (by simp)
  have hxPk : t'.recipient.xPk = t.recipient.xPk := Block.ext hx
  have hEk : t'.recipient.ek = t.recipient.ek := Block.ext hek
  calc t'.recipient = ⟨t'.recipient.xPk, t'.recipient.ek⟩ := rfl
    _ = t.recipient := by rw [hxPk, hEk]

variable {head' : Bytes}

theorem head_of_kwAad {keyId' : KeyId} (h : kwAad head' keyId' = kwAad head keyId) :
    head' = head := by
  obtain ⟨hrest, -⟩ := append_inj' h (by simp)
  obtain ⟨hrest, -⟩ := append_inj' hrest (by simp)
  exact append_cancel_left hrest

variable {kw : Key}

theorem decapsulateKw_eq_ok {sub : SubRecord} (h : decapsulateKw P K sub keypair head = .ok kw) :
    ∃ ssX kM, Aead.decrypt P (wrappingKey K ssX kM (sub.transcript P (keypair.public K) head))
      sub.wrappedKw (kwAad head (keypair.keyId P K)) = .ok kw.bytes := by
  simp only [decapsulateKw, bind_eq_ok, okOr_eq_ok, Block.of?_eq_some] at h
  obtain ⟨kM, -, pt, hpt, rfl⟩ := h
  exact ⟨K.x25519 keypair.xSk sub.ephPk, kM, hpt⟩

theorem decrypt_encapsulateTo (hP : P.Lawful) {draws : EncapsDraws}
    (h : encapsulateTo P K recipient head kw draws = .ok bytes) :
    ∃ ssX kM, Aead.decrypt P
      (wrappingKey K ssX kM ((sliceSubrecord bytes).transcript P recipient head))
      (sliceSubrecord bytes).wrappedKw (kwAad head (recipient.keyId P)) = .ok kw.bytes := by
  obtain ⟨ephPk, ssX, ctM, kM, wrappedKw, -, -, hwrapped, hlen, rfl⟩ := encapsulateTo_eq_ok h
  rw [sliceSubrecord_buildSubrecord hlen]
  exact ⟨ssX, kM, Aead.decrypt_encrypt hP hwrapped⟩

theorem recipient_of_decapsulateKw (hP : P.Lawful) {kw' : Key} {draws : EncapsDraws}
    (honce : OpensOnce P (sliceSubrecord bytes).wrappedKw)
    (halone : ((sliceSubrecord bytes).transcript P recipient head).Alone K)
    (hwrap : encapsulateTo P K recipient head kw draws = .ok bytes)
    (hunwrap : decapsulateKw P K (sliceSubrecord bytes) keypair head' = .ok kw') :
    keypair.public K = recipient ∧ head' = head ∧ kw' = kw := by
  obtain ⟨ssX, kM, hsealed⟩ := decrypt_encapsulateTo hP hwrap
  obtain ⟨ssX', kM', hopened⟩ := decapsulateKw_eq_ok hunwrap
  obtain ⟨hkey, haad⟩ := honce _ _ _ _ _ _ hsealed hopened
  rw [hkey, haad, hsealed] at hopened
  refine ⟨Transcript.recipient_of_info (halone _ _ _ _ _ hkey), head_of_kwAad haad, ?_⟩
  exact Block.ext (Except.ok.inj hopened).symm

theorem openDgd1_sealDgd1 (hP : P.Lawful) (hK : K.Lawful)
    (hseal : sealDgd1 P K U (keypair.public K) head disc draws = .ok record) :
    openDgd1 P K U record keypair (some head) = .ok opened ↔
      opened = disc ∧ disc.objSuite = kemSuiteX25519Mlkem768 ∧
        ∃ h, parseHead head = .ok h ∧ h.fileId = disc.fileId := by
  obtain ⟨sub, pt, body, hvalid, hsub, hlen, hpt, hbody, rfl⟩ := sealDgd1_eq_ok hseal
  have hparts := dgd1Parts_append (keypair.keyId P K) disc.fileId (P.hash head) body hlen
  have hdw := decapsulateKw_encapsulateTo hP hK hsub
  have hdecrypt := Aead.decrypt_encrypt hP hbody
  have hsubrecord : parseSubrecord sub = .ok (keypair.keyId P K, sliceSubrecord sub) := by
    obtain ⟨_, _, _, _, _, -, -, -, hwrapped, rfl⟩ := encapsulateTo_eq_ok hsub
    rw [parseSubrecord_buildSubrecord hwrapped, sliceSubrecord_buildSubrecord hwrapped]
    rfl
  have hroom : dgd1BodyOffset + nonceLen + tagLen ≤
      (dgd1Header (keypair.keyId P K) disc.fileId (P.hash head) ++ (sub ++ body)).length := by
    have hbodyLen := Aead.encrypt_length hP hbody
    simp only [recipSubrecordLen] at hlen
    simp [dgd1Header, discoveryMagic, hlen, hbodyLen]
    omega
  have hhead : dgd1Header (keypair.keyId P K) disc.fileId (P.hash head) =
      dgd1Header ((keypair.public K).keyId P) disc.fileId (P.hash head) := rfl
  rw [← hhead, openDgd1_eq_ok]
  rw [hparts.header, hparts.sub, hparts.body]
  constructor
  · rintro ⟨-, h, dw, pt', hheader, -, hparse, hdw', hdecrypt', hopened⟩
    have hid : h.fileId = disc.fileId := by
      have htake := (take_eq_dgd1Header (by simp at hroom ⊢; omega)).mp hparts.header
      have htake' := (take_eq_dgd1Header (by simp at hroom ⊢; omega)).mp
        (hparts.header.trans hheader)
      exact htake'.2.2.2.2.2.1.symm.trans htake.2.2.2.2.2.1
    rw [hdw] at hdw'
    cases hdw'
    rw [hhead, hdecrypt] at hdecrypt'
    cases hdecrypt'
    obtain ⟨rfl, -, hsuite, -⟩ := (parseDiscPlaintext_of_build hpt).mp hopened
    exact ⟨rfl, hsuite, h, hparse, hid⟩
  · rintro ⟨rfl, hsuite, h, hparse, hid⟩
    refine ⟨hroom, h, draws.dw, pt, by rw [hid], hsubrecord, hparse, hdw, hdecrypt, ?_⟩
    exact (parseDiscPlaintext_of_build hpt).mpr ⟨rfl, hid, hsuite, hvalid⟩

theorem sealed_of_openDgd1 (hP : P.Lawful) (hideal : IdealFor P K recipient head record)
    (hseal : sealDgd1 P K U recipient head disc draws = .ok record)
    (hdrop : bytes.drop dgd1HeaderLen = record.drop dgd1HeaderLen)
    (hopen : openDgd1 P K U bytes keypair (some head') = .ok opened) :
    bytes = record ∧ keypair.public K = recipient ∧ head' = head ∧ opened = disc := by
  have hsubrecord : dgd1Subrecord bytes = dgd1Subrecord record := by
    rw [dgd1Subrecord, hdrop, dgd1Subrecord]
  have hbodies : bytes.drop dgd1BodyOffset = record.drop dgd1BodyOffset := by
    rw [show dgd1BodyOffset = dgd1HeaderLen + recipSubrecordLen from rfl, ← drop_drop, hdrop,
      drop_drop]
  obtain ⟨sub, pt, body, -, hsub, hlen, hpt, hbody, hrecord⟩ := sealDgd1_eq_ok hseal
  have hparts := dgd1Parts_append (recipient.keyId P) disc.fileId (P.hash head) body hlen
  rw [← hrecord] at hparts
  obtain ⟨-, h, dw, pt', -, -, -, hdw, hdecrypt, hopened⟩ := openDgd1_eq_ok.mp hopen
  obtain ⟨hwrapped, honce, halone⟩ := hideal
  rw [hparts.sub] at hwrapped halone
  rw [hsubrecord, hparts.sub] at hdw
  obtain ⟨hrecipient, hhead, rfl⟩ := recipient_of_decapsulateKw hP hwrapped halone hsub hdw
  rw [hparts.body] at honce
  rw [hbodies, hparts.body] at hdecrypt
  have hsealed := Aead.decrypt_encrypt hP hbody
  obtain ⟨-, haad⟩ := honce _ _ _ _ _ _ hsealed hdecrypt
  rw [haad, hsealed] at hdecrypt
  cases hdecrypt
  have htake : bytes.take dgd1HeaderLen = record.take dgd1HeaderLen := by
    rw [append_cancel_left haad, hparts.header]
  refine ⟨?_, hrecipient, hhead, ((parseDiscPlaintext_of_build hpt).mp hopened).1⟩
  rw [← take_append_drop dgd1HeaderLen bytes, htake, hdrop, take_append_drop]

/-- Discovery records: what a recipient of a sealed record gets from it, what parsing gets from a
built plaintext, and to whom and beside what the parts of a sealed record open. -/
theorem dgd1_bound (hP : P.Lawful) (hK : K.Lawful) {recipient : Drk1Public} {head record : Bytes}
    {disc : DiscoveryInfo} {draws : DiscoveryDraws}
    (hseal : sealDgd1 P K U recipient head disc draws = .ok record) :
    (∀ keypair opened, keypair.public K = recipient →
      (openDgd1 P K U record keypair (some head) = .ok opened ↔
        opened = disc ∧ disc.objSuite = kemSuiteX25519Mlkem768 ∧
          ∃ h, parseHead head = .ok h ∧ h.fileId = disc.fileId)) ∧
    (∀ built pt fileId opened, buildDiscPlaintext built = .ok pt →
      (parseDiscPlaintext U pt fileId = .ok opened ↔
        opened = built ∧ fileId = built.fileId ∧ built.objSuite = kemSuiteX25519Mlkem768 ∧
          Path.validate U built.path = .ok ())) ∧
    (IdealFor P K recipient head record →
      ∀ bytes keypair headBytes opened, bytes.drop dgd1HeaderLen = record.drop dgd1HeaderLen →
        openDgd1 P K U bytes keypair headBytes = .ok opened →
          bytes = record ∧ keypair.public K = recipient ∧ headBytes = some head ∧
            opened = disc) := by
  refine ⟨?_, fun _ _ _ _ => parseDiscPlaintext_of_build, ?_⟩
  · rintro keypair opened rfl
    exact openDgd1_sealDgd1 hP hK hseal
  · intro hideal bytes keypair headBytes opened hdrop hopen
    cases headBytes with
    | none => exact absurd hopen openDgd1_none
    | some head' =>
      obtain ⟨hbytes, hrecipient, rfl, hopened⟩ := sealed_of_openDgd1 hP hideal hseal hdrop hopen
      exact ⟨hbytes, hrecipient, rfl, hopened⟩

def markedPrimitives (mark : Key → Bytes → UInt8) : Primitives where
  encrypt key _ plaintext aad :=
    if plaintext.length ≤ maxMessageLen then
      some (plaintext ++ List.replicate tagLen (mark key aad))
    else none
  decrypt key _ ciphertext aad :=
    let n := ciphertext.length - tagLen
    if ciphertext = ciphertext.take n ++ List.replicate tagLen (mark key aad) then
      some (ciphertext.take n)
    else none
  hash := clearPrimitives.hash

variable {mark : Key → Bytes → UInt8}

theorem markedPrimitives_lawful : (markedPrimitives mark).Lawful :=
  @taggedPrimitives_lawful fun key _ _ aad => mark key aad

variable {aad : Bytes} {key : Key}

theorem mark_of_decrypt {blob : Bytes}
    (h : Aead.decrypt (markedPrimitives mark) key blob aad = .ok pt) :
    blob.drop nonceLen = pt ++ List.replicate tagLen (mark key aad) := by
  simp only [Aead.decrypt, markedPrimitives, bind_eq_ok, reject_eq_ok, okOr_eq_ok,
    Option.ite_none_right_eq_some, Option.some.injEq] at h
  obtain ⟨_, -, hct, hpt⟩ := h
  rw [hpt] at hct
  exact hct

theorem opensOnce_of_mark {nonce : Nonce} {blob : Bytes}
    (hmark : ∀ key' aad', mark key' aad' = mark key aad → key' = key ∧ aad' = aad)
    (h : Aead.encrypt (markedPrimitives mark) key nonce pt aad = .ok blob) :
    OpensOnce (markedPrimitives mark) blob := by
  have hends := mark_of_decrypt (Aead.decrypt_encrypt markedPrimitives_lawful h)
  have hopens : ∀ key' aad' pt', Aead.decrypt (markedPrimitives mark) key' blob aad' = .ok pt' →
      key' = key ∧ aad' = aad := by
    intro key' aad' pt' hdec
    have hends' := mark_of_decrypt hdec
    rw [hends] at hends'
    obtain ⟨-, htag⟩ := append_inj' hends' (by simp)
    apply hmark
    simpa [replicate_succ] using htag.symm
  intro key₁ aad₁ pt₁ key₂ aad₂ pt₂ h₁ h₂
  obtain ⟨rfl, rfl⟩ := hopens _ _ _ h₁
  exact hopens _ _ _ h₂

/-- A key exchange that everyone can follow, where the combiner has a key of its own for one
transcript. -/
def markedKem (info : Bytes) : KemPrimitives where
  x25519Base := id
  x25519 _ _ := Block.replicate 32 1
  mlkemEk _ := default
  mlkemEncapsulate _ _ := some (default, default)
  mlkemDecapsulate _ _ := some default
  hkdf _ info' := if info' = info then Block.replicate 32 1 else default

theorem markedKem_lawful {info : Bytes} : (markedKem info).Lawful where
  x25519_comm _ _ := rfl
  decapsulate_encapsulate _ m ct shared h := by
    simp only [markedKem, Option.some.injEq, Prod.mk.injEq] at h
    simp [markedKem, ← h.2]

theorem wrappingKey_markedKem (ssX kM : Block 32) (t : Transcript) :
    wrappingKey (markedKem t.info) ssX kM t = Block.replicate 32 1 := by
  simp [wrappingKey, markedKem]

theorem markedKem_alone {t : Transcript} : t.Alone (markedKem t.info) := by
  intro ssX kM ssX' kM' t' hkey
  by_contra hne
  rw [wrappingKey_markedKem] at hkey
  simp only [wrappingKey, markedKem, if_neg hne] at hkey
  exact absurd hkey (by decide)

/-- A Unicode table that takes every character, and every text as normalized. -/
def plainUnicode : Unicode where
  nfc := id
  assigned _ := true
  nfc_nfc := Eq.refl

def pointedHead : Head where
  algo := 1
  kemId := 1
  flags := 0
  chunkSize := 65536
  plaintextLen := 0
  chunkCount := 0
  baseNonce := default
  fileId := default

def pointedDisc (objSuite : UInt8) : DiscoveryInfo where
  objSuite
  fileId := default
  size := 0
  contentHash := default
  path := "a"
  ext := [7]

def pointedKeypair : RecipientKeypair := ⟨default, default⟩

def pointedRecipient : Drk1Public := ⟨default, default⟩

def pointedTranscript : Transcript where
  fixedHead := buildHead pointedHead
  keyId := pointedRecipient.keyId clearPrimitives
  ephPk := default
  ctM := default
  recipient := pointedRecipient

def pointedAad : Bytes :=
  discAadPrefix ++
    dgd1Header pointedTranscript.keyId default (clearPrimitives.hash (buildHead pointedHead))

def pointedMark (key : Key) (aad : Bytes) : UInt8 :=
  if key = Block.replicate 32 1 ∧ aad = kwAad (buildHead pointedHead) pointedTranscript.keyId then 1
  else if key = default ∧ aad = pointedAad then 2
  else 0

theorem pointedMark_wrapped : pointedMark key aad = 1 ↔
    key = Block.replicate 32 1 ∧
      aad = kwAad (buildHead pointedHead) pointedTranscript.keyId := by
  unfold pointedMark
  split
  next hwrapped => simp [hwrapped]
  next hwrapped =>
    have hlow : (if key = default ∧ aad = pointedAad then (2 : UInt8) else 0) ≠ 1 := by
      split
      · decide
      · decide
    exact ⟨fun h => absurd h hlow, fun h => absurd h hwrapped⟩

theorem pointedMark_body : pointedMark key aad = 2 ↔ key = default ∧ aad = pointedAad := by
  unfold pointedMark
  split
  next hwrapped =>
    refine ⟨fun h => absurd h (by decide), fun h => ?_⟩
    exact absurd (hwrapped.1.symm.trans h.1) (by decide)
  next =>
    split
    next hbody => simp [hbody]
    next hbody => exact ⟨fun h => absurd h (by decide), fun h => absurd h hbody⟩

def sealPointed (objSuite : UInt8) : Except CryptoError Bytes :=
  sealDgd1 (markedPrimitives pointedMark) (markedKem pointedTranscript.info) plainUnicode
    pointedRecipient (buildHead pointedHead) (pointedDisc objSuite)
    ⟨default, ⟨fun _ => default, default, default⟩, default⟩

theorem sealPointed_isOk (objSuite : UInt8) (h : objSuite = 1 ∨ objSuite = 2) :
    (sealPointed objSuite).isOk := by
  rcases h with rfl | rfl
  · decide +kernel
  · decide +kernel

theorem idealFor_sealPointed {objSuite : UInt8} (h : sealPointed objSuite = .ok record) :
    IdealFor (markedPrimitives pointedMark) (markedKem pointedTranscript.info) pointedRecipient
      (buildHead pointedHead) record := by
  obtain ⟨sub, pt, body, -, hsub, hlen, -, hbody, hrecord⟩ := sealDgd1_eq_ok h
  have hparts := dgd1Parts_append pointedTranscript.keyId default
    (clearPrimitives.hash (buildHead pointedHead)) body hlen
  have hrecord' : record = dgd1Header pointedTranscript.keyId default
      (clearPrimitives.hash (buildHead pointedHead)) ++ (sub ++ body) := hrecord
  rw [← hrecord'] at hparts
  obtain ⟨ephPk, ssX, ctM, kM, wrappedKw, heph, hct, hwrapped, hwrappedLen, hbuilt⟩ :=
    encapsulateTo_eq_ok hsub
  have hchosen : chooseEphemeral (markedKem pointedTranscript.info)
      ⟨fun _ => default, default, default⟩ pointedRecipient.xPk =
        some (default, Block.replicate 32 1) := by
    decide +kernel
  rw [hchosen] at heph
  cases heph
  cases hct
  have hslice : sliceSubrecord sub = ⟨default, default, wrappedKw⟩ := by
    rw [hbuilt, sliceSubrecord_buildSubrecord hwrappedLen]
  constructor
  · rw [hparts.sub, hslice]
    apply opensOnce_of_mark _ hwrapped
    intro key aad hsame
    have hkey := wrappingKey_markedKem (Block.replicate 32 1) default pointedTranscript
    have hmark := pointedMark_wrapped.mpr
      ⟨hkey, Eq.refl (kwAad (buildHead pointedHead) pointedTranscript.keyId)⟩
    obtain ⟨rfl, rfl⟩ := pointedMark_wrapped.mp (hsame.trans hmark)
    exact ⟨hkey.symm, rfl⟩
  · rw [hparts.body]
    apply opensOnce_of_mark _ hbody
    intro key aad hsame
    exact pointedMark_body.mp (hsame.trans (pointedMark_body.mpr ⟨rfl, rfl⟩))
  · rw [hparts.sub, hslice]
    exact markedKem_alone (t := pointedTranscript)

/-- A record in the one suite opens to its recipient alone. -/
theorem dgd1_bound_pointed : ∃ record, sealPointed 1 = .ok record ∧
    openDgd1 (markedPrimitives pointedMark) (markedKem pointedTranscript.info) plainUnicode record
      pointedKeypair (some (buildHead pointedHead)) = .ok (pointedDisc 1) ∧
    ∀ bytes keypair headBytes opened, bytes.drop dgd1HeaderLen = record.drop dgd1HeaderLen →
      openDgd1 (markedPrimitives pointedMark) (markedKem pointedTranscript.info) plainUnicode bytes
        keypair headBytes = .ok opened →
          bytes = record ∧ keypair.public (markedKem pointedTranscript.info) = pointedRecipient ∧
            headBytes = some (buildHead pointedHead) ∧ opened = pointedDisc 1 := by
  have hok := sealPointed_isOk 1 (.inl rfl)
  cases hseal : sealPointed 1 with
  | error e =>
    rw [hseal] at hok
    cases hok
  | ok record =>
    obtain ⟨hopen, -, hbound⟩ := dgd1_bound markedPrimitives_lawful markedKem_lawful hseal
    refine ⟨record, rfl, ?_, hbound (idealFor_sealPointed hseal)⟩
    refine (hopen pointedKeypair _ rfl).mpr ⟨rfl, rfl, pointedHead, ?_, rfl⟩
    exact parseHead_eq_ok.mpr ⟨[], (append_nil _).symm,
      ⟨rfl, .inr rfl, rfl, by decide, by decide, by decide⟩⟩

/-- A record that names another suite is sealed, and does not open. -/
theorem sealDgd1_other_suite : (markedPrimitives pointedMark).Lawful ∧
    (markedKem pointedTranscript.info).Lawful ∧ ∃ record, sealPointed 2 = .ok record ∧
      ∀ opened, openDgd1 (markedPrimitives pointedMark) (markedKem pointedTranscript.info)
        plainUnicode record pointedKeypair (some (buildHead pointedHead)) ≠ .ok opened := by
  refine ⟨markedPrimitives_lawful, markedKem_lawful, ?_⟩
  have hok := sealPointed_isOk 2 (.inr rfl)
  cases hseal : sealPointed 2 with
  | error e =>
    rw [hseal] at hok
    cases hok
  | ok record =>
    refine ⟨record, rfl, ?_⟩
    intro opened hopen
    have hsuite := ((openDgd1_sealDgd1 markedPrimitives_lawful markedKem_lawful
      (by exact hseal)).mp hopen).2.1
    exact absurd hsuite (by decide)

end Dctl.Kem
