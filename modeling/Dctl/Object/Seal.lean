import Dctl.Object.Head
import Dctl.Crypto.Aead
import Dctl.Object.Meta

/-! Sealing and opening a DSF1 object (`object/nonce.rs`, `object/seal.rs`).  Chunk and metadata
nonces differ in a reserved domain byte; chunk `i` covers the plaintext bytes from `i * chunk_size`
on.  The bytes of an object are the head, a recipient-wrap block with its 16-bit length, the wrapped
data key, the metadata block with its 32-bit length, one ciphertext for each chunk, and a hash of
all that as the footer.  What the sealer draws at random is an argument. -/

namespace Dctl.Object

open ProofKit Crypto

def withDomain (raw : Nonce) (marker : UInt8) : Nonce :=
  ⟨raw.bytes.set nonceDomainByte marker, by simp⟩

def baseNonce (raw : Nonce) : Nonce := withDomain raw nonceDomainChunk

def metadataNonce (raw : Nonce) : Nonce := withDomain raw nonceDomainMeta

def chunkNonce (base : Nonce) (index : Nat) : Nonce :=
  ⟨List.zipWith (· ^^^ ·) (base.bytes.take 8) (le 8 index) ++ base.bytes.drop 8, by simp⟩

def chunkPlaintextLen (total chunkSize index : Nat) : Nat :=
  min (total - min (index * chunkSize) (2 ^ 64 - 1)) chunkSize

theorem chunkPlaintextLen_le (total chunkSize index : Nat) :
    chunkPlaintextLen total chunkSize index ≤ chunkSize := Nat.min_le_right _ _

theorem chunkPlaintextLen_eq {total : Nat} (h : total < 2 ^ 64) (chunkSize index : Nat) :
    chunkPlaintextLen total chunkSize index = min (total - index * chunkSize) chunkSize := by
  simp only [chunkPlaintextLen]
  omega

theorem divCeil_le_iff {total chunkSize k : Nat} (hcs : 0 < chunkSize) :
    divCeil total chunkSize ≤ k ↔ total ≤ k * chunkSize := by
  have hdiv := Nat.div_add_mod total chunkSize
  have hmod := Nat.mod_lt total hcs
  rw [Nat.mul_comm] at hdiv
  simp only [divCeil]
  split
  next h0 =>
    rw [h0, Nat.add_zero] at hdiv
    conv_rhs => rw [← hdiv]
    exact (Nat.mul_le_mul_right_iff hcs).symm
  next h0 =>
    constructor
    · intro h
      have hmul := Nat.mul_le_mul_right chunkSize h
      rw [Nat.add_mul, Nat.one_mul] at hmul
      omega
    · intro h
      refine Nat.lt_of_mul_lt_mul_right (a := chunkSize) ?_
      omega

theorem lt_divCeil_iff {total chunkSize k : Nat} (hcs : 0 < chunkSize) :
    k < divCeil total chunkSize ↔ k * chunkSize < total := by
  rw [← not_le, divCeil_le_iff hcs, not_le]

theorem divCeil_le_self (total : Nat) {chunkSize : Nat} (hcs : 0 < chunkSize) :
    divCeil total chunkSize ≤ total :=
  (divCeil_le_iff hcs).mpr (Nat.le_mul_of_pos_right total hcs)

theorem sum_chunkPlaintextLen {total chunkSize : Nat} (h : total < 2 ^ 64) (k : Nat) :
    ((List.range k).map (chunkPlaintextLen total chunkSize)).sum = min total (k * chunkSize) := by
  induction k with
  | zero => simp
  | succ k ih =>
    rw [List.range_succ, List.map_append, List.sum_append, ih, List.map_singleton,
      List.sum_singleton, chunkPlaintextLen_eq h, Nat.add_mul, Nat.one_mul]
    omega

end Dctl.Object

namespace Dctl.Object

open ProofKit Crypto

variable (P : Primitives)

structure Draws where
  dek : Key
  fileId : FileId
  base : Nonce
  wrap : Nonce
  metadata : Nonce

def prefixedAad (front headBytes : Bytes) : Bytes := front ++ headBytes

def chunkAad (headBytes : Bytes) (index : Nat) : Bytes := headBytes ++ le 8 index

def sealChunks (dek : Key) (base : Nonce) (headBytes : Bytes) :
    Nat → List Bytes → Except CryptoError Bytes
  | _, [] => pure []
  | index, chunk :: rest => do
    let ct ← Aead.encryptWithNonce P dek (chunkNonce base index) chunk (chunkAad headBytes index)
    let tail ← sealChunks dek base headBytes (index + 1) rest
    pure (ct ++ tail)

def sealHead (kemId : UInt8) (draws : Draws) (plaintextLen : UInt64) (chunkSize : UInt32) :
    Head where
  algo := algoXchacha20Poly1305
  kemId := kemId
  flags := flagFooter
  chunkSize := chunkSize
  plaintextLen := plaintextLen
  chunkCount := UInt64.ofNat (divCeil plaintextLen.toNat chunkSize.toNat)
  baseNonce := baseNonce draws.base
  fileId := draws.fileId

/-- Shared assembly for both `kem_id` paths. -/
def sealCore (kemId : UInt8) (dekWrappingKey : Key)
    (buildKemWrap : Bytes → Except CryptoError Bytes) (draws : Draws) (plaintext : Bytes)
    (metadata : Metadata) (chunkSize : UInt32) : Except CryptoError Bytes := do
  reject (chunkSize = 0 ∨ maxChunkSize < chunkSize.toNat) (.format "chunk_size out of range")
  let plaintextLen := UInt64.ofNat plaintext.length
  let headBytes := buildHead (sealHead kemId draws plaintextLen chunkSize)
  let kemWrap ← buildKemWrap headBytes
  reject (65535 < kemWrap.length) (.format "kem_wrap too large")
  let wrappedDek ← Aead.encrypt P dekWrappingKey draws.wrap draws.dek.bytes
    (prefixedAad dekWrapAadPrefix headBytes)
  reject (wrappedDek.length ≠ wrappedDekLen) (.format "wrapped_dek wrong size")
  let metaPt ← buildMetadata (metadata.filled plaintextLen (P.hash plaintext))
  let mnonce := metadataNonce draws.metadata
  let metaCt ← Aead.encryptWithNonce P draws.dek mnonce metaPt (prefixedAad metaAadPrefix headBytes)
  let metaLen := nonceLen + metaCt.length
  reject (metaLen < metaMinLen ∨ metaMaxLen < metaLen) (.format "meta_len out of range")
  let header := headBytes ++ le 2 kemWrap.length ++ kemWrap ++ wrappedDek ++ le 4 metaLen ++
    mnonce.bytes ++ metaCt
  let chunkCts ← sealChunks P draws.dek (baseNonce draws.base) headBytes 0
    (chunks chunkSize.toNat plaintext)
  let out := header ++ chunkCts
  pure (out ++ (P.hash out).bytes)

def sealObject (wrappingKey : Key) (draws : Draws) (plaintext : Bytes) (metadata : Metadata)
    (chunkSize : UInt32) : Except CryptoError Bytes :=
  sealCore P kemIdNone wrappingKey (fun _ => pure []) draws plaintext metadata chunkSize

def readU16 (b : Bytes) (off : Nat) : Except CryptoError Nat := do
  reject (b.length < off + 2) (.format "object truncated (u16)")
  pure (leAt b off 2)

def readU32 (b : Bytes) (off : Nat) : Except CryptoError Nat := do
  reject (b.length < off + 4) (.format "object truncated (u32)")
  pure (leAt b off 4)

def decodeSchema (head : Head) (metaPt : Bytes) : Except CryptoError (Option Metadata) :=
  if metaPt.head? = some metaSchemaV1 then do
    let md ← parseMetadata metaPt
    reject (md.size ≠ head.plaintextLen) (.format "meta.size != plaintext_len")
    pure (some md)
  else pure none

def decodeMeta (dek : Key) (head : Head) (headBytes metaBlob : Bytes) :
    Except CryptoError (Option Metadata) := do
  let metaPt ← Aead.decryptWithNonce P dek (Block.slice nonceLen metaBlob 0)
    (metaBlob.drop nonceLen) (prefixedAad metaAadPrefix headBytes)
  decodeSchema head metaPt

/-- Unwrap the data key at `off` and decode the metadata after it.  Returns the offset of the first
chunk as well. -/
def decodeDekAndMeta (dekWrappingKey : Key) (blob : Bytes) (head : Head) (off : Nat) :
    Except CryptoError (Key × Option Metadata × Nat) := do
  let headBytes := blob.take objectHeadLen
  reject (blob.length < off + wrappedDekLen) (.format "object truncated (wrapped_dek)")
  let dekBytes ← Aead.decrypt P dekWrappingKey ((blob.drop off).take wrappedDekLen)
    (prefixedAad dekWrapAadPrefix headBytes)
  let dek ← okOr (.format "unwrapped DEK wrong length") (Block.of? keyLen dekBytes)
  let off := off + wrappedDekLen
  let metaLen ← readU32 blob off
  let off := off + 4
  reject (metaLen < metaMinLen ∨ metaMaxLen < metaLen) (.format "meta_len out of range")
  reject (blob.length < off + metaLen) (.format "object truncated (metadata)")
  let metadata ← decodeMeta P dek head headBytes ((blob.drop off).take metaLen)
  pure (dek, metadata, off + metaLen)

def decryptChunk (dek : Key) (head : Head) (headBytes : Bytes) (index : Nat) (ctAndTag : Bytes) :
    Except CryptoError Bytes :=
  Aead.decryptWithNonce P dek (chunkNonce head.baseNonce index) ctAndTag (chunkAad headBytes index)

variable {σ ε : Type} (raise : CryptoError → ε)

/-- The chunk loop: `remaining` chunks from number `index` on, at offset `p`.  Returns the offset
behind them, the plaintext bytes produced and the state of the consumer, which may stop the loop by
more than an error. -/
def openChunks (dek : Key) (head : Head) (headBytes blob : Bytes) (bodyEnd : Nat)
    (emit : σ → Bytes → Except ε σ) :
    (remaining index p produced : Nat) → σ → Except ε (Nat × Nat × σ)
  | 0, _, p, produced, s => pure (p, produced, s)
  | remaining + 1, index, p, produced, s => do
    let thisPt := chunkPlaintextLen head.plaintextLen.toNat head.chunkSize.toNat index
    let ctLen := thisPt + tagLen
    reject (bodyEnd < p + ctLen) (raise (.format "object truncated (chunk)"))
    let pt ← (decryptChunk P dek head headBytes index ((blob.drop p).take ctLen)).mapError raise
    let s ← emit s pt
    openChunks dek head headBytes blob bodyEnd emit remaining (index + 1) (p + ctLen)
      (produced + pt.length) s

/-- Shared reader for both `kem_id` paths: every verified chunk goes to `emit`. -/
def openCoreStreamed (dekWrappingKey : Key) (blob : Bytes) (head : Head) (off : Nat)
    (emit : σ → Bytes → Except ε σ) (s : σ) : Except ε (Option Metadata × σ) := do
  let headBytes := blob.take objectHeadLen
  let (dek, metadata, off) ← (decodeDekAndMeta P dekWrappingKey blob head off).mapError raise
  let footerLen := if head.hasFooter then footerLen else 0
  reject (blob.length < off + footerLen) (raise (.format "object truncated (footer)"))
  let bodyEnd := blob.length - footerLen
  reject (footerLen ≠ 0 ∧ blob.drop bodyEnd ≠ (P.hash (blob.take bodyEnd)).bytes)
    (raise (.format "footer mismatch"))
  let (p, produced, s) ← openChunks P raise dek head headBytes blob bodyEnd emit
    head.chunkCount.toNat 0 off 0 s
  reject (p ≠ bodyEnd) (raise (.format "trailing bytes after last chunk"))
  reject (produced ≠ head.plaintextLen.toNat) (raise (.format "decrypted length mismatch"))
  pure (metadata, s)

/-- An opened object.  The metadata is absent when its schema is unknown. -/
structure Opened where
  metadata : Option Metadata
  plaintext : Bytes
  deriving DecidableEq

/-- The buffered reader, where the buffer that it reserves is there. -/
def openCore (dekWrappingKey : Key) (blob : Bytes) (head : Head) (off : Nat) :
    Except CryptoError Opened := do
  let (metadata, plaintext) ← openCoreStreamed P id dekWrappingKey blob head off
    (fun plaintext chunk => pure (plaintext ++ chunk)) []
  pure { metadata, plaintext }

/-- What ends a call without a result: an error that it returns, or a panic. -/
inductive Halt where
  | error (e : CryptoError)
  | panic
  deriving DecidableEq

/-- `Vec::reserve_exact` on an empty vector.  A capacity over `isize::MAX` overflows, and `serves`
says which lengths the allocator serves. -/
def reserveExact (serves : Nat → Bool) (additional : Nat) : Bool :=
  additional = 0 || additional < 2 ^ 63 && serves additional

/-- The consumer of `open_core`: the buffer is reserved at the first chunk. -/
def reserving (serves : Nat → Bool) (cap : Nat) :
    Bytes × Bool → Bytes → Except Halt (Bytes × Bool)
  | (plaintext, reserved), chunk =>
    if reserved || reserveExact serves cap then .ok (plaintext ++ chunk, true) else .error .panic

def openCoreReserving (serves : Nat → Bool) (dekWrappingKey : Key) (blob : Bytes) (head : Head)
    (off : Nat) : Except Halt Opened := do
  let (metadata, plaintext, _) ← openCoreStreamed P .error dekWrappingKey blob head off
    (reserving serves head.plaintextLen.toNat) ([], false)
  pure { metadata, plaintext }

/-- The head of an object that the owner's key opens. -/
def openOwned (blob : Bytes) : Except CryptoError Head := do
  let head ← parseHead blob
  reject (head.kemId ≠ kemIdNone) (.format "kem_id=1 object needs the hybrid opener (§12)")
  let kemCtLen ← readU16 blob objectHeadLen
  reject (kemCtLen ≠ 0) (.format "kem_ct_len must be 0 for kem_id=0")
  pure head

def openObject (wrappingKey : Key) (blob : Bytes) : Except CryptoError Opened := do
  let head ← openOwned blob
  openCore P wrappingKey blob head (objectHeadLen + 2)

/-- `open` with the buffer that it reserves. -/
def openReserving (serves : Nat → Bool) (wrappingKey : Key) (blob : Bytes) :
    Except Halt Opened := do
  let head ← (openOwned blob).mapError .error
  openCoreReserving P serves wrappingKey blob head (objectHeadLen + 2)

end Dctl.Object
