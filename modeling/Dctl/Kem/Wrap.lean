import Dctl.Crypto.Aead

/-! Recipients of an object and the `DKW1` block that wraps an object key for each of them
(`kem/identity.rs`, `kem/combine.rs`, `kem/wrap.rs`). -/

namespace Dctl.Kem

open ProofKit Crypto List

@[simp, reducible] def kemSuiteX25519Mlkem768 : UInt8 := 1
@[simp, reducible] def mlkem768EkLen : Nat := 1184
@[simp, reducible] def mlkem768DkLen : Nat := 2400
@[simp, reducible] def mlkem768CtLen : Nat := 1088
@[simp, reducible] def x25519PkLen : Nat := 32
@[simp, reducible] def wrappedKwLen : Nat := 72
@[simp, reducible] def kemWrapVersion : UInt8 := 1
@[simp, reducible] def kemWrapHeaderLen : Nat := 10
@[simp, reducible] def kemWrapFlagSidecar : UInt8 := 1
@[simp, reducible] def recipSubrecordLen : Nat := 1234
@[simp, reducible] def maxRecipCount : Nat := 53
@[simp, reducible] def recipIdVersion : UInt8 := 1
@[simp, reducible] def maxEphAttempts : Nat := 8

/-- `*b"DKW1"`. -/
def kemWrapMagic : Bytes := [0x44, 0x4b, 0x57, 0x31]
/-- `*b"DRK1"`. -/
def recipIdMagic : Bytes := [0x44, 0x52, 0x4b, 0x31]
def recipIdLabel : Bytes := ascii "dctl-recip-id-v1" ++ [0]
def kemHybridInfoLabel : Bytes := ascii "dctl-kem-hybrid-x25519-mlkem768-v1"
def kemKwAadPrefix : Bytes := ascii "dctl-kem-kw-v1::"

/-- X25519, ML-KEM-768 and HKDF-SHA512. -/
structure KemPrimitives where
  x25519Base : Block 32 → Block 32
  x25519 : (secret their : Block 32) → Block 32
  mlkemEk : Block mlkem768DkLen → Block mlkem768EkLen
  mlkemEncapsulate : Block mlkem768EkLen → (m : Block 32) → Option (Block mlkem768CtLen × Block 32)
  mlkemDecapsulate : Block mlkem768DkLen → Block mlkem768CtLen → Option (Block 32)
  hkdf : (ikm info : Bytes) → Key

/-- The documented behaviour of the key exchanges: both sides arrive at the same secret. -/
structure KemPrimitives.Lawful (K : KemPrimitives) : Prop where
  x25519_comm : ∀ a b, K.x25519 a (K.x25519Base b) = K.x25519 b (K.x25519Base a)
  decapsulate_encapsulate : ∀ dk m ct shared,
    K.mlkemEncapsulate (K.mlkemEk dk) m = some (ct, shared) →
      K.mlkemDecapsulate dk ct = some shared

structure Drk1Public where
  xPk : Block x25519PkLen
  ek : Block mlkem768EkLen
  deriving DecidableEq

def Drk1Public.encode (r : Drk1Public) : Bytes :=
  recipIdMagic ++ [recipIdVersion, kemSuiteX25519Mlkem768] ++ r.xPk.bytes ++ r.ek.bytes

def Drk1Public.keyId (P : Primitives) (r : Drk1Public) : KeyId := P.hash (recipIdLabel ++ r.encode)

/-- A recipient's private keys.  The public key and the id are computed from them. -/
structure RecipientKeypair where
  xSk : Block 32
  dk : Block mlkem768DkLen

def RecipientKeypair.public (K : KemPrimitives) (r : RecipientKeypair) : Drk1Public where
  xPk := K.x25519Base r.xSk
  ek := K.mlkemEk r.dk

def RecipientKeypair.keyId (P : Primitives) (K : KemPrimitives) (r : RecipientKeypair) : KeyId :=
  (r.public K).keyId P

/-- Everything that the wrapping key depends on apart from the two shared secrets. -/
structure Transcript where
  fixedHead : Bytes
  keyId : KeyId
  ephPk : Block x25519PkLen
  ctM : Block mlkem768CtLen
  recipient : Drk1Public

def Transcript.info (t : Transcript) : Bytes :=
  kemHybridInfoLabel ++ [kemSuiteX25519Mlkem768] ++ t.fixedHead ++ t.keyId.bytes ++ t.ephPk.bytes ++
    t.ctM.bytes ++ t.recipient.xPk.bytes ++ t.recipient.ek.bytes

def wrappingKey (K : KemPrimitives) (ssX kM : Block 32) (t : Transcript) : Key :=
  K.hkdf (ssX.bytes ++ kM.bytes) t.info

def kwAad (fixedHead : Bytes) (keyId : KeyId) : Bytes :=
  kemKwAadPrefix ++ fixedHead ++ [kemSuiteX25519Mlkem768] ++ keyId.bytes

variable (P : Primitives) (K : KemPrimitives)

structure EncapsDraws where
  ephemeral : Nat → Block 32
  m : Block 32
  nonce : Nonce

def buildSubrecord (keyId : KeyId) (ctM : Block mlkem768CtLen) (ephPk : Block x25519PkLen)
    (wrappedKw : Bytes) : Bytes :=
  le 4 recipSubrecordLen ++ keyId.bytes ++ le 2 mlkem768CtLen ++ ctM.bytes ++ le 2 x25519PkLen ++
    ephPk.bytes ++ le 2 wrappedKwLen ++ wrappedKw

def chooseEphemeral (draws : EncapsDraws) (theirPk : Block 32) : Option (Block 32 × Block 32) :=
  (List.range maxEphAttempts).findSome? fun i =>
    let ssX := K.x25519 (draws.ephemeral i) theirPk
    if ssX ≠ Block.replicate 32 0 then some (K.x25519Base (draws.ephemeral i), ssX) else none

def encapsulateTo (recipient : Drk1Public) (fixedHead : Bytes) (kw : Key) (draws : EncapsDraws) :
    Except CryptoError Bytes := do
  let keyId := recipient.keyId P
  let (ephPk, ssX) ← okOr (.format "recipient X25519 key is low-order (non-contributory)")
    (chooseEphemeral K draws recipient.xPk)
  let (ctM, kM) ← okOr (.format "ML-KEM encapsulation failed")
    (K.mlkemEncapsulate recipient.ek draws.m)
  let key := wrappingKey K ssX kM { fixedHead, keyId, ephPk, ctM, recipient }
  let wrappedKw ← Aead.encrypt P key draws.nonce kw.bytes (kwAad fixedHead keyId)
  reject (wrappedKw.length ≠ wrappedKwLen) (.format "wrapped_kw wrong size")
  pure (buildSubrecord keyId ctM ephPk wrappedKw)

def serializeBlock (subRecords : List Bytes) : Except CryptoError Bytes := do
  let n := subRecords.length
  reject (n = 0 ∨ maxRecipCount < n) (.format "recip_count out of range (1..=53)")
  reject (∃ record ∈ subRecords, record.length ≠ recipSubrecordLen)
    (.format "sub-record wrong size")
  pure (kemWrapMagic ++ [kemWrapVersion, kemSuiteX25519Mlkem768, 0, 0] ++ le 2 n ++
    subRecords.flatten)

structure SubRecord where
  ctM : Block mlkem768CtLen
  ephPk : Block x25519PkLen
  wrappedKw : Bytes

def sliceSubrecord (record : Bytes) : SubRecord where
  ctM := Block.slice mlkem768CtLen record 38
  ephPk := Block.slice x25519PkLen record 1128
  wrappedKw := (record.drop 1162).take wrappedKwLen

def subrecordKeyId (record : Bytes) : KeyId := Block.slice keyIdLen record 4

/-- The four inner lengths of a sub-record are constants. -/
def validateSubrecordFields (record : Bytes) : Except CryptoError Unit := do
  reject (leAt record 0 4 ≠ recipSubrecordLen) (.format "rec_len != 1234")
  reject (leAt record 36 2 ≠ mlkem768CtLen) (.format "ct_m_len != 1088")
  reject (leAt record 1126 2 ≠ x25519PkLen) (.format "eph_pk_len != 32")
  reject (leAt record 1160 2 ≠ wrappedKwLen) (.format "wrapped_len != 72")

def parseSubrecord (record : Bytes) : Except CryptoError (KeyId × SubRecord) := do
  reject (record.length ≠ recipSubrecordLen) (.format "grant sub-record wrong size")
  validateSubrecordFields record
  pure (subrecordKeyId record, sliceSubrecord record)

def recordAt (bytes : Bytes) (start i : Nat) : Bytes :=
  (bytes.drop (start + i * recipSubrecordLen)).take recipSubrecordLen

structure KemWrap where
  block : Bytes
  count : Nat

namespace KemWrap

def parse (block : Bytes) : Except CryptoError KemWrap := do
  reject (block.length < kemWrapHeaderLen) (.format "kem_wrap shorter than header")
  reject (block.take 4 ≠ kemWrapMagic) (.format "bad kem_wrap magic")
  reject (byteAt block 4 ≠ kemWrapVersion) (.format "unsupported kw_version")
  reject (byteAt block 5 ≠ kemSuiteX25519Mlkem768) (.format "unsupported hybrid_suite")
  reject (byteAt block 6 &&& ~~~kemWrapFlagSidecar ≠ 0) (.format "unknown kw_flags bit set")
  reject (byteAt block 7 ≠ 0) (.format "kem_wrap reserved byte nonzero")
  let count := leAt block 8 2
  reject (count = 0 ∨ maxRecipCount < count) (.format "recip_count out of range (1..=53)")
  reject (block.length ≠ kemWrapHeaderLen + count * recipSubrecordLen)
    (.format "kem_ct_len != 10 + Σ rec_len")
  (List.range count).forM fun i => validateSubrecordFields (recordAt block kemWrapHeaderLen i)
  pure { block, count }

def find (w : KemWrap) (keyId : KeyId) : Option SubRecord :=
  (List.range w.count).findSome? fun i =>
    let record := recordAt w.block kemWrapHeaderLen i
    if subrecordKeyId record = keyId then some (sliceSubrecord record) else none

def keyIds (w : KemWrap) : List KeyId :=
  (List.range w.count).map fun i => subrecordKeyId (recordAt w.block kemWrapHeaderLen i)

end KemWrap

def decapsulateKw (sub : SubRecord) (keypair : RecipientKeypair) (fixedHead : Bytes) :
    Except CryptoError Key := do
  let ssX := K.x25519 keypair.xSk sub.ephPk
  let kM ← okOr (.format "ML-KEM decapsulation error") (K.mlkemDecapsulate keypair.dk sub.ctM)
  let keyId := keypair.keyId P K
  let key := wrappingKey K ssX kM
    { fixedHead, keyId, ephPk := sub.ephPk, ctM := sub.ctM, recipient := keypair.public K }
  let kwPt ← Aead.decrypt P key sub.wrappedKw (kwAad fixedHead keyId)
  okOr (.format "unwrapped KW wrong length") (Block.of? keyLen kwPt)

def recoverKwFromBlock (keypair : RecipientKeypair) (fixedHead kemWrapBlock : Bytes) :
    Except CryptoError (Option Key) := do
  let kemWrap ← KemWrap.parse kemWrapBlock
  match kemWrap.find (keypair.keyId P K) with
  | none => pure none
  | some sub =>
    let kw ← decapsulateKw P K sub keypair fixedHead
    pure (some kw)

section Subrecord
variable {keyId : KeyId} {ctM : Block mlkem768CtLen} {ephPk : Block x25519PkLen} {wrappedKw : Bytes}

theorem length_buildSubrecord (h : wrappedKw.length = wrappedKwLen) :
    (buildSubrecord keyId ctM ephPk wrappedKw).length = recipSubrecordLen := by
  simp [buildSubrecord, h]

theorem validateSubrecordFields_buildSubrecord :
    validateSubrecordFields (buildSubrecord keyId ctM ephPk wrappedKw) = .ok () := by
  have hrec : leAt (buildSubrecord keyId ctM ephPk wrappedKw) 0 4 = recipSubrecordLen :=
    leAt_eq (by simp [buildSubrecord]; rfl) (by decide)
  have hct : leAt (buildSubrecord keyId ctM ephPk wrappedKw) 36 2 = mlkem768CtLen :=
    leAt_eq (by simp [buildSubrecord, drop_append]; rfl) (by decide)
  have heph : leAt (buildSubrecord keyId ctM ephPk wrappedKw) 1126 2 = x25519PkLen :=
    leAt_eq (by simp [buildSubrecord, drop_append]; rfl) (by decide)
  have hwrapped : leAt (buildSubrecord keyId ctM ephPk wrappedKw) 1160 2 = wrappedKwLen :=
    leAt_eq (by simp [buildSubrecord, drop_append]; rfl) (by decide)
  simp only [validateSubrecordFields, bind_eq_ok, reject_eq_ok, ne_eq, not_not]
  exact ⟨(), hrec, (), hct, (), heph, hwrapped⟩

theorem subrecordKeyId_buildSubrecord :
    subrecordKeyId (buildSubrecord keyId ctM ephPk wrappedKw) = keyId :=
  Block.slice_eq (by simp [buildSubrecord]; rfl)

theorem sliceSubrecord_buildSubrecord (h : wrappedKw.length = wrappedKwLen) :
    sliceSubrecord (buildSubrecord keyId ctM ephPk wrappedKw) = { ctM, ephPk, wrappedKw } := by
  have hct : Block.slice mlkem768CtLen (buildSubrecord keyId ctM ephPk wrappedKw) 38 = ctM :=
    Block.slice_eq (by simp [buildSubrecord, drop_append]; rfl)
  have heph : Block.slice x25519PkLen (buildSubrecord keyId ctM ephPk wrappedKw) 1128 = ephPk :=
    Block.slice_eq (by simp [buildSubrecord, drop_append]; rfl)
  have hwrapped : (buildSubrecord keyId ctM ephPk wrappedKw).drop 1162 = wrappedKw := by
    simp [buildSubrecord, drop_append]
  unfold sliceSubrecord
  rw [hct, heph, hwrapped, take_of_length_le h.le]

theorem parseSubrecord_buildSubrecord (h : wrappedKw.length = wrappedKwLen) :
    parseSubrecord (buildSubrecord keyId ctM ephPk wrappedKw) =
      .ok (keyId, { ctM, ephPk, wrappedKw }) := by
  unfold parseSubrecord
  simp only [bind_eq_ok, reject_eq_ok, ne_eq, not_not, pure_eq_ok]
  refine ⟨(), length_buildSubrecord h, (), validateSubrecordFields_buildSubrecord, ?_⟩
  rw [subrecordKeyId_buildSubrecord, sliceSubrecord_buildSubrecord h]

end Subrecord

variable {P K}

variable {draws : EncapsDraws}

theorem encapsulateTo_eq_ok {recipient : Drk1Public} {fixedHead : Bytes} {kw : Key} {bytes : Bytes}
    (h : encapsulateTo P K recipient fixedHead kw draws = .ok bytes) :
    ∃ ephPk ssX ctM kM wrappedKw, chooseEphemeral K draws recipient.xPk = some (ephPk, ssX) ∧
      K.mlkemEncapsulate recipient.ek draws.m = some (ctM, kM) ∧
      Aead.encrypt P (wrappingKey K ssX kM
          { fixedHead, keyId := recipient.keyId P, ephPk, ctM, recipient }) draws.nonce kw.bytes
        (kwAad fixedHead (recipient.keyId P)) = .ok wrappedKw ∧
      wrappedKw.length = wrappedKwLen ∧
      bytes = buildSubrecord (recipient.keyId P) ctM ephPk wrappedKw := by
  unfold encapsulateTo at h
  simp only [bind_eq_ok, okOr_eq_ok, reject_eq_ok, ne_eq, not_not, pure_eq_ok] at h
  obtain ⟨⟨ephPk, ssX⟩, heph, ⟨ctM, kM⟩, hct, wrappedKw, hwrapped, _, hlen, rfl⟩ := h
  exact ⟨ephPk, ssX, ctM, kM, wrappedKw, heph, hct, hwrapped, hlen, rfl⟩

theorem chooseEphemeral_eq_some {theirPk ephPk ssX : Block 32}
    (h : chooseEphemeral K draws theirPk = some (ephPk, ssX)) :
    ∃ secret, ephPk = K.x25519Base secret ∧ ssX = K.x25519 secret theirPk := by
  unfold chooseEphemeral at h
  obtain ⟨i, -, hi⟩ := exists_of_findSome?_eq_some h
  simp only [ne_eq, Option.ite_none_right_eq_some, Option.some.injEq, Prod.mk.injEq] at hi
  obtain ⟨-, rfl, rfl⟩ := hi
  exact ⟨draws.ephemeral i, rfl, rfl⟩

theorem decapsulateKw_encapsulateTo (hP : P.Lawful) (hK : K.Lawful) {keypair : RecipientKeypair}
    {fixedHead : Bytes} {kw : Key} {bytes : Bytes}
    (h : encapsulateTo P K (keypair.public K) fixedHead kw draws = .ok bytes) :
    decapsulateKw P K (sliceSubrecord bytes) keypair fixedHead = .ok kw := by
  obtain ⟨ephPk, ssX, ctM, kM, wrappedKw, heph, hct, hwrapped, hlen, rfl⟩ := encapsulateTo_eq_ok h
  obtain ⟨secret, rfl, rfl⟩ := chooseEphemeral_eq_some heph
  have hshared : K.x25519 keypair.xSk (K.x25519Base secret) =
      K.x25519 secret (keypair.public K).xPk := hK.x25519_comm _ _
  have hkM := hK.decapsulate_encapsulate keypair.dk draws.m ctM kM hct
  have hplain := Aead.decrypt_encrypt hP hwrapped
  rw [sliceSubrecord_buildSubrecord hlen, decapsulateKw]
  simp only [hkM, okOr, ok_bind, hshared]
  unfold RecipientKeypair.keyId
  rw [hplain, ok_bind]
  simp [Block.of?]

section Block
variable {subRecords : List Bytes} {block : Bytes} (h : serializeBlock subRecords = .ok block)
include h

theorem serializeBlock_eq_ok : subRecords ≠ [] ∧ subRecords.length ≤ maxRecipCount ∧
    (∀ record ∈ subRecords, record.length = recipSubrecordLen) ∧
    block = kemWrapMagic ++ [kemWrapVersion, kemSuiteX25519Mlkem768, 0, 0] ++
      le 2 subRecords.length ++ subRecords.flatten := by
  unfold serializeBlock at h
  simp only [bind_eq_ok, reject_eq_ok, pure_eq_ok, not_or, not_lt, not_exists, not_and, ne_eq,
    not_not] at h
  obtain ⟨_, ⟨hsome, hcount⟩, _, hlen, rfl⟩ := h
  exact ⟨fun hnil => hsome (length_eq_zero_iff.mpr hnil), hcount, hlen, rfl⟩

theorem records_of_serializeBlock :
    (List.range subRecords.length).map (recordAt block kemWrapHeaderLen) = subRecords := by
  obtain ⟨-, -, hlen, rfl⟩ := serializeBlock_eq_ok h
  refine ext_getElem (by simp) fun i _ hi => ?_
  rw [getElem_map, getElem_range, recordAt, ← drop_drop]
  simp only [kemWrapHeaderLen, append_assoc]
  rw [← take_drop_flatten hlen hi]
  simp [kemWrapMagic]

theorem KemWrap.parse_of_serialize
    (hvalid : ∀ record ∈ subRecords, validateSubrecordFields record = .ok ()) :
    KemWrap.parse block = .ok { block, count := subRecords.length } := by
  have hrecords := records_of_serializeBlock h
  obtain ⟨hsome, hcount, hlen, hblock⟩ := serializeBlock_eq_ok h
  simp only [maxRecipCount] at hcount
  have hread : leAt block 8 2 = subRecords.length := by
    rw [hblock]
    exact leAt_eq (by simp [kemWrapMagic, drop_append]; rfl) (by omega)
  have htotal : block.length = kemWrapHeaderLen + subRecords.length * recipSubrecordLen := by
    rw [hblock, length_append, length_flatten, map_congr_left hlen]
    simp [kemWrapMagic]
  have hfields : (List.range subRecords.length).forM
      (fun i => validateSubrecordFields (recordAt block kemWrapHeaderLen i)) = .ok () := by
    rw [forM_eq_ok]
    intro i hi
    apply hvalid
    rw [← hrecords]
    exact mem_map_of_mem hi
  have hne : subRecords.length ≠ 0 := fun hzero => hsome (length_eq_zero_iff.mp hzero)
  have hmagic : block.take 4 = kemWrapMagic := by rw [hblock]; rfl
  have hversion : byteAt block 4 = kemWrapVersion := by rw [hblock]; rfl
  have hsuite : byteAt block 5 = kemSuiteX25519Mlkem768 := by rw [hblock]; rfl
  have hflags : byteAt block 6 = 0 := by rw [hblock]; rfl
  have hreserved : byteAt block 7 = 0 := by rw [hblock]; rfl
  unfold KemWrap.parse
  simp only [bind_eq_ok, reject_eq_ok, ne_eq, not_not, not_lt, not_or, pure_eq_ok, hread]
  exact ⟨(), by rw [htotal]; omega, (), hmagic, (), hversion, (), hsuite, (),
    by rw [hflags]; decide, (), hreserved, (), ⟨hne, hcount⟩, (), htotal, (), hfields, trivial⟩

theorem KemWrap.find_of_serialize (keyId : KeyId) :
    KemWrap.find { block, count := subRecords.length } keyId =
      subRecords.findSome? fun record =>
        if subrecordKeyId record = keyId then some (sliceSubrecord record) else none := by
  conv_rhs => rw [← records_of_serializeBlock h, List.findSome?_map]
  rfl

end Block

/-- The record wraps the key for the recipient. -/
def Wraps (P : Primitives) (K : KemPrimitives) (fixedHead : Bytes) (kw : Key)
    (recipient : Drk1Public) (record : Bytes) : Prop :=
  ∃ draws, encapsulateTo P K recipient fixedHead kw draws = .ok record

section Recover
variable {recipient : Drk1Public} {recipients : List Drk1Public} {fixedHead record block : Bytes}
  {subRecords : List Bytes} {kw : Key} {keypair : RecipientKeypair}

theorem Wraps.subrecordKeyId_eq (h : Wraps P K fixedHead kw recipient record) :
    subrecordKeyId record = recipient.keyId P := by
  obtain ⟨draws, hdraws⟩ := h
  obtain ⟨_, _, _, _, _, -, -, -, -, rfl⟩ := encapsulateTo_eq_ok hdraws
  exact subrecordKeyId_buildSubrecord

theorem Wraps.validateSubrecordFields_eq (h : Wraps P K fixedHead kw recipient record) :
    validateSubrecordFields record = .ok () := by
  obtain ⟨draws, hdraws⟩ := h
  obtain ⟨_, _, _, _, _, -, -, -, -, rfl⟩ := encapsulateTo_eq_ok hdraws
  exact validateSubrecordFields_buildSubrecord

theorem validateSubrecordFields_of_wraps
    (h : List.Forall₂ (Wraps P K fixedHead kw) recipients subRecords) :
    ∀ record ∈ subRecords, validateSubrecordFields record = .ok () := by
  intro record hrecord
  obtain ⟨i, hi, rfl⟩ := mem_iff_getElem.mp hrecord
  exact (h.get (by rwa [h.length_eq]) hi).validateSubrecordFields_eq

variable (hP : P.Lawful) (hK : K.Lawful)
include hP hK

theorem Wraps.decapsulateKw_eq (h : Wraps P K fixedHead kw (keypair.public K) record) :
    decapsulateKw P K (sliceSubrecord record) keypair fixedHead = .ok kw := by
  obtain ⟨draws, hdraws⟩ := h
  exact decapsulateKw_encapsulateTo hP hK hdraws

variable (hwraps : List.Forall₂ (Wraps P K fixedHead kw) recipients subRecords)
  (hids : ∀ r ∈ recipients, r.keyId P = keypair.keyId P K → r = keypair.public K)
include hwraps hids

theorem findSome?_wraps {found : Option SubRecord}
    (hfound : (subRecords.findSome? fun record => if subrecordKeyId record = keypair.keyId P K
      then some (sliceSubrecord record) else none) = found) :
    (keypair.public K ∈ recipients ∧ ∃ sub, found = some sub ∧
        decapsulateKw P K sub keypair fixedHead = .ok kw) ∨
      (keypair.public K ∉ recipients ∧ found = none) := by
  induction hwraps with
  | nil => exact Or.inr ⟨not_mem_nil, hfound.symm⟩
  | @cons r record recipients subRecords hwrap hrest ih =>
    rw [List.findSome?_cons, hwrap.subrecordKeyId_eq] at hfound
    by_cases hid : r.keyId P = keypair.keyId P K
    · have hr := hids r (mem_cons_self ..) hid
      subst hr
      rw [if_pos hid] at hfound
      exact Or.inl ⟨mem_cons_self .., _, hfound.symm, hwrap.decapsulateKw_eq hP hK⟩
    · rw [if_neg hid] at hfound
      have hne : keypair.public K ≠ r := fun heq => hid (by rw [← heq]; rfl)
      rw [mem_cons, or_iff_right hne]
      exact ih (fun r hr => hids r (mem_cons_of_mem _ hr)) hfound

/-- A block gives its key to the recipients that it wraps the key for, and nothing to others. -/
theorem recoverKwFromBlock_of_wraps (hblock : serializeBlock subRecords = .ok block) :
    recoverKwFromBlock P K keypair fixedHead block =
      .ok (if keypair.public K ∈ recipients then some kw else none) := by
  unfold recoverKwFromBlock
  rw [KemWrap.parse_of_serialize hblock (validateSubrecordFields_of_wraps hwraps), ok_bind]
  rcases findSome?_wraps hP hK hwraps hids (KemWrap.find_of_serialize hblock _).symm with
    ⟨hmem, sub, hfind, hkw⟩ | ⟨hmem, hfind⟩
  · simp only [hfind, hkw, ok_bind, if_pos hmem]
    rfl
  · simp only [hfind, if_neg hmem]
    rfl

end Recover

end Dctl.Kem
