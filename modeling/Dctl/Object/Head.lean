import Dctl.Crypto.Basic

/-! The fixed 68-byte head of a DSF1 object (`object/head.rs`).  `parseHead` accepts exactly the
byte strings that start with `buildHead` of a valid head. -/

namespace Dctl.Object

open ProofKit Crypto

structure Head where
  algo : UInt8
  kemId : UInt8
  flags : UInt8
  chunkSize : UInt32
  plaintextLen : UInt64
  chunkCount : UInt64
  baseNonce : Nonce
  fileId : FileId
  deriving DecidableEq

def divCeil (a b : Nat) : Nat := a / b + if a % b = 0 then 0 else 1

namespace Head

def hasFooter (h : Head) : Bool := h.flags &&& flagFooter ≠ 0

/-- What `parse_head` checks of a head. -/
structure Valid (h : Head) : Prop where
  algo : h.algo = algoXchacha20Poly1305
  kemId : h.kemId = kemIdNone ∨ h.kemId = kemIdHybrid
  flags : h.flags &&& ~~~flagFooter = 0
  chunkSize_pos : h.chunkSize ≠ 0
  chunkSize_le : h.chunkSize.toNat ≤ maxChunkSize
  chunkCount : h.chunkCount.toNat = divCeil h.plaintextLen.toNat h.chunkSize.toNat

theorem Valid.chunkSize_toNat_pos {h : Head} (hv : h.Valid) : 0 < h.chunkSize.toNat := by
  have : h.chunkSize.toNat ≠ 0 := fun h0 => hv.chunkSize_pos (UInt32.toNat_inj.mp h0)
  omega

end Head

def buildHead (h : Head) : Bytes :=
  objectMagic ++ [objectVersion, h.algo, h.kemId, h.flags] ++ le 4 h.chunkSize.toNat ++
    le 8 h.plaintextLen.toNat ++ le 8 h.chunkCount.toNat ++ h.baseNonce.bytes ++ h.fileId.bytes

def parseHead (bytes : Bytes) : Except CryptoError Head := do
  reject (bytes.length < objectHeadLen) (.format "object shorter than head")
  reject (bytes.take 4 ≠ objectMagic) (.format "bad object magic")
  reject (byteAt bytes 4 ≠ objectVersion) (.format "unsupported object version")
  let algo := byteAt bytes 5
  reject (algo ≠ algoXchacha20Poly1305) (.format "unsupported algo")
  let kemId := byteAt bytes 6
  reject (kemId ≠ kemIdNone ∧ kemId ≠ kemIdHybrid) (.format "unsupported kem_id")
  let flags := byteAt bytes 7
  reject (flags &&& ~~~flagFooter ≠ 0) (.format "unknown critical object flag")
  let chunkSize := UInt32.ofNat (leAt bytes 8 4)
  reject (chunkSize = 0 ∨ maxChunkSize < chunkSize.toNat) (.format "chunk_size out of range")
  let plaintextLen := UInt64.ofNat (leAt bytes 12 8)
  let chunkCount := UInt64.ofNat (leAt bytes 20 8)
  reject (chunkCount.toNat ≠ divCeil plaintextLen.toNat chunkSize.toNat)
    (.format "chunk_count != ceil(plaintext_len/chunk_size)")
  pure { algo, kemId, flags, chunkSize, plaintextLen, chunkCount,
         baseNonce := Block.slice nonceLen bytes 28, fileId := Block.slice fileIdLen bytes 52 }

@[simp] theorem length_buildHead (h : Head) : (buildHead h).length = objectHeadLen := by
  simp [buildHead, objectMagic]

structure Head.ReadAt (h : Head) (bytes : Bytes) : Prop where
  magic : bytes.take 4 = objectMagic
  version : byteAt bytes 4 = objectVersion
  algo : byteAt bytes 5 = h.algo
  kemId : byteAt bytes 6 = h.kemId
  flags : byteAt bytes 7 = h.flags
  chunkSize : leAt bytes 8 4 = h.chunkSize.toNat
  plaintextLen : leAt bytes 12 8 = h.plaintextLen.toNat
  chunkCount : leAt bytes 20 8 = h.chunkCount.toNat
  baseNonce : Block.slice nonceLen bytes 28 = h.baseNonce
  fileId : Block.slice fileIdLen bytes 52 = h.fileId

theorem Head.ReadAt.eq_append {bytes : Bytes} {h : Head} (hread : h.ReadAt bytes)
    (hlen : objectHeadLen ≤ bytes.length) : bytes = buildHead h ++ bytes.drop objectHeadLen := by
  simp only [objectHeadLen] at hlen
  conv_lhs =>
    rw [← List.take_append_drop 4 bytes, hread.magic,
      drop_eq_byteAt_cons (i := 4) (by omega), hread.version,
      drop_eq_byteAt_cons (i := 5) (by omega), hread.algo,
      drop_eq_byteAt_cons (i := 6) (by omega), hread.kemId,
      drop_eq_byteAt_cons (i := 7) (by omega), hread.flags,
      drop_eq_le_append (i := 8) 4 (by omega), hread.chunkSize,
      drop_eq_le_append (i := 12) 8 (by omega), hread.plaintextLen,
      drop_eq_le_append (i := 20) 8 (by omega), hread.chunkCount,
      Block.drop_eq_slice_append (i := 28) nonceLen (by simp; omega), hread.baseNonce,
      show 28 + nonceLen = 52 from rfl,
      Block.drop_eq_slice_append (i := 52) fileIdLen (by simp; omega), hread.fileId]
  simp [buildHead]

theorem readAt_buildHead (h : Head) (rest : Bytes) : h.ReadAt (buildHead h ++ rest) where
  magic := rfl
  version := rfl
  algo := rfl
  kemId := rfl
  flags := rfl
  chunkSize := leAt_eq (by simp [buildHead, objectMagic]; rfl) h.chunkSize.toNat_lt
  plaintextLen := leAt_eq (by simp [buildHead, objectMagic]; rfl) h.plaintextLen.toNat_lt
  chunkCount := leAt_eq (by simp [buildHead, objectMagic]; rfl) h.chunkCount.toNat_lt
  baseNonce := Block.slice_eq (by simp [buildHead, objectMagic]; rfl)
  fileId := Block.slice_eq (t := rest) (by simp [buildHead, objectMagic, List.drop_append])

theorem parseHead_eq_ok {bytes : Bytes} {h : Head} :
    parseHead bytes = .ok h ↔ ∃ rest, bytes = buildHead h ++ rest ∧ h.Valid := by
  simp only [parseHead, bind_eq_ok, reject_eq_ok, pure_eq_ok, ne_eq, not_not, not_lt, not_or,
    not_and_or]
  constructor
  · rintro ⟨_, hlen, _, hmagic, _, hversion, _, halgo, _, hkem, _, hflags, _, ⟨hcs, hmax⟩, _,
      hcount, rfl⟩
    refine ⟨bytes.drop objectHeadLen, ?_, ⟨halgo, hkem, hflags, hcs, hmax, hcount⟩⟩
    exact Head.ReadAt.eq_append ⟨hmagic, hversion, rfl, rfl, rfl, (toNat_ofNat_leAt4 _ _).symm,
      (toNat_ofNat_leAt8 _ _).symm, (toNat_ofNat_leAt8 _ _).symm, rfl, rfl⟩ hlen
  · rintro ⟨rest, rfl, hv⟩
    have hread := readAt_buildHead h rest
    simp only [hread.chunkSize, hread.plaintextLen, hread.chunkCount, hread.baseNonce, hread.fileId,
      hread.algo, hread.kemId, hread.flags, UInt32.ofNat_toNat, UInt64.ofNat_toNat]
    exact ⟨(), by simp, (), hread.magic, (), hread.version, (), hv.algo, (), hv.kemId, (), hv.flags,
      (), ⟨hv.chunkSize_pos, hv.chunkSize_le⟩, (), hv.chunkCount, trivial⟩

theorem Head.Valid.parseHead {h : Head} (hv : h.Valid) (rest : Bytes) :
    parseHead (buildHead h ++ rest) = .ok h :=
  parseHead_eq_ok.mpr ⟨rest, rfl, hv⟩

end Dctl.Object
