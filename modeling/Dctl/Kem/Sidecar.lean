import Dctl.Kem.Wrap

/-! The grant sidecar `DGS1` (`kem/sidecar.rs`): further recipients of an object that is already
stored, bound to the object by its id and the hash of its head. -/

namespace Dctl.Kem

open ProofKit Crypto List

@[simp, reducible] def grantSidecarVersion : UInt8 := 1
@[simp, reducible] def grantSidecarHeaderLen : Nat := 66
@[simp, reducible] def maxGrantCount : Nat := 4096

/-- `*b"DGS1"`. -/
def grantSidecarMagic : Bytes := [0x44, 0x47, 0x53, 0x31]

abbrev GrantRecord := Block recipSubrecordLen

def grantKeyId (grant : GrantRecord) : KeyId := subrecordKeyId grant.bytes

structure ParsedSidecar where
  grantGen : UInt64
  grants : List GrantRecord

variable (P : Primitives) (K : KemPrimitives)

namespace Sidecar

def parseGrant (record : Bytes) : Except CryptoError GrantRecord := do
  let _ ← parseSubrecord record
  okOr (.format "grant record wrong size") (Block.of? recipSubrecordLen record)

def parse (bytes : Bytes) (expectedFileId : FileId) (headBytes : Bytes) :
    Except CryptoError ParsedSidecar := do
  reject (bytes.length < grantSidecarHeaderLen) (.format "DGS1 shorter than header")
  reject (bytes.take 4 ≠ grantSidecarMagic) (.format "bad DGS1 magic")
  reject (byteAt bytes 4 ≠ grantSidecarVersion) (.format "unsupported DGS1 version")
  reject (byteAt bytes 5 ≠ kemSuiteX25519Mlkem768) (.format "unsupported DGS1 hybrid_suite")
  reject (byteAt bytes 6 ≠ 0 ∨ byteAt bytes 7 ≠ 0) (.format "DGS1 reserved bytes nonzero")
  reject ((bytes.drop 8).take fileIdLen ≠ expectedFileId.bytes) (.format "DGS1 file_id mismatch")
  reject ((bytes.drop 24).take 32 ≠ (P.hash headBytes).bytes) (.format "DGS1 head_hash mismatch")
  let grantCount := leAt bytes 64 2
  reject (maxGrantCount < grantCount) (.format "DGS1 grant_count exceeds 4096")
  reject (bytes.length ≠ grantSidecarHeaderLen + grantCount * recipSubrecordLen)
    (.format "DGS1 length != header + G·1234")
  let grants ← (List.range grantCount).mapM fun i =>
    parseGrant (recordAt bytes grantSidecarHeaderLen i)
  pure { grantGen := UInt64.ofNat (leAt bytes 56 8), grants }

def serialize (fileId : FileId) (headBytes : Bytes) (grantGen : UInt64)
    (grants : List GrantRecord) :
    Except CryptoError Bytes := do
  reject (maxGrantCount < grants.length) (.format "grant_count exceeds 4096")
  pure (grantSidecarMagic ++ [grantSidecarVersion, kemSuiteX25519Mlkem768, 0, 0] ++ fileId.bytes ++
    (P.hash headBytes).bytes ++ le 8 grantGen.toNat ++ le 2 grants.length ++
    (grants.map (·.bytes)).flatten)

def sealKwToRecipient (kw : Key) (recipient : Drk1Public) (headBytes : Bytes)
    (draws : EncapsDraws) :
    Except CryptoError GrantRecord := do
  let bytes ← encapsulateTo P K recipient headBytes kw draws
  okOr (.format "grant record wrong size") (Block.of? recipSubrecordLen bytes)

def inlineKeyIds (kemWrapBlock : Bytes) : Except CryptoError (List KeyId) := do
  let kemWrap ← KemWrap.parse kemWrapBlock
  pure kemWrap.keyIds

def recoverKwAsRecipient (grant : GrantRecord) (keypair : RecipientKeypair) (headBytes : Bytes) :
    Except CryptoError Key := do
  let (grantKeyId, sub) ← parseSubrecord grant.bytes
  reject (grantKeyId ≠ keypair.keyId P K) (.format "grant key_id does not match this keypair")
  decapsulateKw P K sub keypair headBytes

end Sidecar

namespace Sidecar

variable {P K}
variable {fileId : FileId} {headBytes : Bytes} {grantGen : UInt64} {grants : List GrantRecord}

/-- The grant passes the checks of the sidecar's parser. -/
def Readable (grant : GrantRecord) : Prop := parseGrant grant.bytes = .ok grant

variable {grant : GrantRecord}

theorem sealKwToRecipient_eq_ok {kw : Key} {recipient : Drk1Public} {draws : EncapsDraws}
    (h : sealKwToRecipient P K kw recipient headBytes draws = .ok grant) :
    Readable grant ∧ grantKeyId grant = recipient.keyId P := by
  unfold sealKwToRecipient at h
  simp only [bind_eq_ok, okOr_eq_ok, Block.of?_eq_some] at h
  obtain ⟨bytes, hbytes, rfl⟩ := h
  obtain ⟨ephPk, _, ctM, _, wrappedKw, -, -, -, hlen, hbuilt⟩ := encapsulateTo_eq_ok hbytes
  constructor
  · unfold Readable parseGrant
    rw [hbuilt, parseSubrecord_buildSubrecord hlen, ok_bind, okOr_eq_ok, Block.of?_eq_some, hbuilt]
  · rw [grantKeyId, hbuilt, subrecordKeyId_buildSubrecord]

theorem parse_eq_ok {bytes : Bytes} {parsed : ParsedSidecar}
    (h : parse P bytes fileId headBytes = .ok parsed) :
    leAt bytes 64 2 ≤ maxGrantCount ∧
      (List.range (leAt bytes 64 2)).mapM
          (fun i => parseGrant (recordAt bytes grantSidecarHeaderLen i)) = .ok parsed.grants := by
  unfold parse at h
  simp only [bind_eq_ok, reject_eq_ok, pure_eq_ok, not_lt] at h
  obtain ⟨_, -, _, -, _, -, _, -, _, -, _, -, _, -, _, hcount, _, -, grants, hgrants, rfl⟩ := h
  exact ⟨hcount, hgrants⟩

theorem readable_of_parseGrant {record : Bytes} (h : parseGrant record = .ok grant) :
    Readable grant := by
  have hbytes : record = grant.bytes := by
    unfold parseGrant at h
    simp only [bind_eq_ok, okOr_eq_ok, Block.of?_eq_some] at h
    obtain ⟨_, -, hrecord⟩ := h
    exact hrecord
  rw [hbytes] at h
  exact h

section

variable {bytes : Bytes} {parsed : ParsedSidecar} (h : parse P bytes fileId headBytes = .ok parsed)
include h

theorem readable_of_parse : ∀ grant ∈ parsed.grants, Readable grant := by
  intro grant hgrant
  obtain ⟨i, hi, hrel⟩ := mem_iff_getElem.mp hgrant
  have hall := mapM_eq_ok_iff.mp (parse_eq_ok h).2
  have hi' : i < (List.range (leAt bytes 64 2)).length := by
    rw [hall.length_eq]
    exact hi
  rw [← hrel]
  exact readable_of_parseGrant (hall.get hi' hi)

theorem length_le_of_parse : parsed.grants.length ≤ maxGrantCount := by
  obtain ⟨hcount, hgrants⟩ := parse_eq_ok h
  rw [← (mapM_eq_ok_iff.mp hgrants).length_eq, length_range]
  exact hcount

end

theorem wraps_of_sealKwToRecipient {kw : Key} {recipient : Drk1Public} {draws : EncapsDraws}
    (h : sealKwToRecipient P K kw recipient headBytes draws = .ok grant) :
    Wraps P K headBytes kw recipient grant.bytes := by
  simp only [sealKwToRecipient, bind_eq_ok, okOr_eq_ok, Block.of?_eq_some] at h
  obtain ⟨bytes, hbytes, rfl⟩ := h
  exact ⟨draws, hbytes⟩

theorem recoverKwAsRecipient_of_wraps (hP : P.Lawful) (hK : K.Lawful) {kw : Key}
    {keypair : RecipientKeypair} (h : Wraps P K headBytes kw (keypair.public K) grant.bytes) :
    recoverKwAsRecipient P K grant keypair headBytes = .ok kw := by
  unfold recoverKwAsRecipient parseSubrecord
  simp only [bind_eq_ok, reject_eq_ok, pure_eq_ok, ne_eq, not_not]
  exact ⟨_, ⟨(), grant.length, (), h.validateSubrecordFields_eq, rfl⟩, (), h.subrecordKeyId_eq,
    h.decapsulateKw_eq hP hK⟩

structure ReadAt (P : Primitives) (fileId : FileId) (headBytes : Bytes) (grantGen : UInt64)
    (grants : List GrantRecord) (bytes : Bytes) : Prop where
  magic : bytes.take 4 = grantSidecarMagic
  version : byteAt bytes 4 = grantSidecarVersion
  suite : byteAt bytes 5 = kemSuiteX25519Mlkem768
  reserved : byteAt bytes 6 = 0 ∧ byteAt bytes 7 = 0
  fileId : (bytes.drop 8).take fileIdLen = fileId.bytes
  headHash : (bytes.drop 24).take 32 = (P.hash headBytes).bytes
  grantGen : leAt bytes 56 8 = grantGen.toNat
  count : leAt bytes 64 2 = grants.length
  records : bytes.drop grantSidecarHeaderLen = (grants.map (·.bytes)).flatten

theorem readAt_of_serialize {bytes : Bytes}
    (h : serialize P fileId headBytes grantGen grants = .ok bytes) :
    ReadAt P fileId headBytes grantGen grants bytes := by
  unfold serialize at h
  simp only [bind_eq_ok, reject_eq_ok, pure_eq_ok, not_lt, maxGrantCount] at h
  obtain ⟨_, hlen, rfl⟩ := h
  constructor
  · rfl
  · rfl
  · rfl
  · exact ⟨rfl, rfl⟩
  · simp [grantSidecarMagic, take_left']
  · simp [grantSidecarMagic, take_left']
  · exact leAt_eq (by simp [grantSidecarMagic, drop_append]; rfl) grantGen.toNat_lt
  · exact leAt_eq (by simp [grantSidecarMagic, drop_append]; rfl) (by omega)
  · simp [grantSidecarMagic, drop_append]

theorem length_flatten_grants (grants : List GrantRecord) :
    (grants.map (·.bytes)).flatten.length = grants.length * recipSubrecordLen := by
  induction grants with
  | nil => rfl
  | cons g rest ih =>
    rw [map_cons, flatten_cons, length_append, ih, g.length, length_cons,
      Nat.succ_mul, Nat.add_comm]

theorem parse_serialize {bytes : Bytes} (hgrants : ∀ grant ∈ grants, Readable grant)
    (h : serialize P fileId headBytes grantGen grants = .ok bytes) :
    parse P bytes fileId headBytes = .ok { grantGen, grants } := by
  have hread := readAt_of_serialize h
  have hcount : grants.length ≤ maxGrantCount := by
    unfold serialize at h
    simp only [bind_eq_ok, reject_eq_ok, pure_eq_ok, not_lt] at h
    exact h.choose_spec.1
  have hlen : bytes.length = grantSidecarHeaderLen + grants.length * recipSubrecordLen := by
    unfold serialize at h
    simp only [bind_eq_ok, reject_eq_ok, pure_eq_ok] at h
    obtain ⟨_, -, rfl⟩ := h
    rw [length_append, length_flatten_grants]
    simp [grantSidecarMagic]
  have hrecords : (List.range grants.length).mapM
      (fun i => parseGrant (recordAt bytes grantSidecarHeaderLen i)) = .ok grants := by
    rw [mapM_eq_ok_iff, List.forall₂_iff_get]
    refine ⟨length_range, ?_⟩
    intro i _ hi
    have hrecord : recordAt bytes grantSidecarHeaderLen i = (grants[i]).bytes := by
      have hall : ∀ p ∈ grants.map (·.bytes), p.length = recipSubrecordLen := by
        intro p hp
        obtain ⟨g, -, rfl⟩ := mem_map.mp hp
        exact g.length
      rw [recordAt, ← drop_drop, hread.records,
        take_drop_flatten hall (by rw [length_map]; exact hi), getElem_map]
    simp only [get_eq_getElem, getElem_range]
    rw [hrecord]
    exact hgrants _ (getElem_mem hi)
  unfold parse
  simp only [bind_eq_ok, reject_eq_ok, ne_eq, not_not, not_lt, not_or, pure_eq_ok, hread.count,
    hread.grantGen, UInt64.ofNat_toNat]
  exact ⟨(), by omega, (), hread.magic, (), hread.version, (), hread.suite, (), hread.reserved, (),
    hread.fileId, (), hread.headHash, (), hcount, (), hlen, grants, hrecords, rfl⟩

end Sidecar

end Dctl.Kem
