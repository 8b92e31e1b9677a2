import Dctl.ProofKit.Source
import Dctl.Object.Seal

/-! Opening a DSF1 object in constant memory (`object/stream.rs`), and the two-phase streaming seal
(`object/sealer.rs`): `prepare` hashes the input, rewinds it and builds the header, which fixes the
object's length; `emit` reads the input again and writes the object. -/

namespace Dctl.Object

open ProofKit Crypto

variable (P : Primitives) {σ : Type}

abbrev Sink (σ : Type) := σ → Bytes → Option σ

def vecSink : Sink Bytes := fun out bytes => some (out ++ bytes)

def writeOut (write : Sink σ) (s : σ) (bytes : Bytes) : Except CryptoError σ :=
  okOr (.format "output write failed") (write s bytes)

/-- Open an object in memory, writing the plaintext out chunk by chunk. -/
def openStream (wrappingKey : Key) (blob : Bytes) (write : Sink σ) (output : σ) :
    Except CryptoError (Option Metadata × σ) := do
  let head ← openOwned blob
  openCoreStreamed P id wrappingKey blob head (objectHeadLen + 2) (writeOut write) output

def readFull (r : Source) (n : Nat) : Except CryptoError (Bytes × Source) :=
  okOr (.format "object truncated") (r.readExact n)

/-- The state of the chunk loop of `openReader`: the reader, the bytes fed to the footer hash, the
number of plaintext bytes produced and the writer. -/
structure ReadState (σ : Type) where
  object : Source
  hashed : Bytes
  produced : Nat
  out : σ

/-- The chunk loop: `remaining` chunks from number `index` on. -/
def readChunks (dek : Key) (head : Head) (headBytes : Bytes) (write : Sink σ) :
    (remaining index : Nat) → ReadState σ → Except CryptoError (ReadState σ)
  | 0, _, s => pure s
  | remaining + 1, index, s => do
    let thisPt := chunkPlaintextLen head.plaintextLen.toNat head.chunkSize.toNat index
    let ctLen := thisPt + tagLen
    let (ct, object) ← readFull s.object ctLen
    let pt ← decryptChunk P dek head headBytes index ct
    let out ← writeOut write s.out pt
    readChunks dek head headBytes write remaining (index + 1)
      { object, hashed := s.hashed ++ ct, produced := s.produced + pt.length, out }

def readHeader (object : Source) : Except CryptoError (Head × Bytes × Source) := do
  let (headBytes, object) ← readFull object objectHeadLen
  let head ← parseHead headBytes
  reject (head.kemId ≠ kemIdNone) (.format "kem_id=1 object needs the hybrid opener (§12)")
  let (u16buf, object) ← readFull object 2
  reject (ofLe u16buf ≠ 0) (.format "kem_ct_len must be 0 for kem_id=0")
  let (dekBuf, object) ← readFull object wrappedDekLen
  let (lenbuf, object) ← readFull object 4
  let metaLen := ofLe lenbuf
  reject (metaLen < metaMinLen ∨ metaMaxLen < metaLen) (.format "meta_len out of range")
  let (metaBlob, object) ← readFull object metaLen
  pure (head, headBytes ++ u16buf ++ dekBuf ++ lenbuf ++ metaBlob, object)

def readFooter (head : Head) (hashed : Bytes) (object : Source) : Except CryptoError Source :=
  if head.hasFooter then do
    let (footer, object) ← readFull object footerLen
    reject (footer ≠ (P.hash hashed).bytes) (.format "footer mismatch")
    pure object
  else pure object

def openReader (wrappingKey : Key) (object : Source) (write : Sink σ) (out : σ) :
    Except CryptoError (Option Metadata × σ) := do
  let (head, header, object) ← readHeader object
  let (dek, metadata, _) ← decodeDekAndMeta P wrappingKey header head (objectHeadLen + 2)
  let s ← readChunks P dek head (header.take objectHeadLen) write head.chunkCount.toNat 0
    { object, hashed := header, produced := 0, out }
  reject (s.produced ≠ head.plaintextLen.toNat) (.format "decrypted length mismatch")
  let object ← readFooter P head s.hashed s.object
  reject ((object.read 1).1 ≠ []) (.format "trailing bytes after last chunk")
  pure (metadata, s.out)

end Dctl.Object

namespace Dctl.Object

open ProofKit Crypto

variable (P : Primitives)

/-- An object whose header exists and whose body has not been produced yet. -/
structure PlannedSeal where
  dek : Key
  headBytes : Bytes
  baseNonce : Nonce
  fileId : FileId
  header : Bytes
  chunkSize : UInt32
  plaintextLen : UInt64
  chunkCount : UInt64
  objectLen : UInt64
  contentBlake3 : Digest

def totalLen (headerLen plaintextLen chunkCount : Nat) : Except CryptoError Nat :=
  okOr (.format "object length overflows u64") do
    let tags ← checkedU64 (chunkCount * tagLen)
    let payload ← checkedU64 (tags + plaintextLen)
    let body ← checkedU64 (payload + headerLen)
    checkedU64 (body + footerLen)

def hashPass (chunkSize : Nat) : (fuel : Nat) → Source → (hashed : Bytes) → (total : Nat) →
    Except CryptoError (Bytes × Nat × Source)
  | 0, input, hashed, total => pure (hashed, total, input)
  | fuel + 1, input, hashed, total => do
    let (bytes, input) := input.read chunkSize
    if bytes = [] then pure (hashed, total, input)
    else
      let total ← okOr (.format "input longer than u64") (checkedU64 (total + bytes.length))
      hashPass chunkSize fuel input (hashed ++ bytes) total

/-- First phase.  A read that is not at the end returns at least one byte, so the hashing pass ends
within one read for each byte and one more. -/
def PlannedSeal.prepare (wrappingKey : Key) (draws : Draws) (input : Source)
    (plaintextLen : UInt64) (metadata : Metadata) (chunkSize : UInt32) :
    Except CryptoError (PlannedSeal × Source) := do
  reject (chunkSize = 0 ∨ maxChunkSize < chunkSize.toNat) (.format "chunk_size out of range")
  let (hashed, total, input) ← hashPass chunkSize.toNat (input.rest.length + 1) input [] 0
  reject (total ≠ plaintextLen.toNat) (.format "input length != plaintext_len")
  let contentBlake3 := P.hash hashed
  let input := input.rewind
  let head := sealHead kemIdNone draws plaintextLen chunkSize
  let headBytes := buildHead head
  let wrappedDek ← Aead.encrypt P wrappingKey draws.wrap draws.dek.bytes
    (prefixedAad dekWrapAadPrefix headBytes)
  reject (wrappedDek.length ≠ wrappedDekLen) (.format "wrapped_dek wrong size")
  let metaPt ← buildMetadata (metadata.filled plaintextLen contentBlake3)
  let mnonce := metadataNonce draws.metadata
  let metaCt ← Aead.encryptWithNonce P draws.dek mnonce metaPt (prefixedAad metaAadPrefix headBytes)
  let metaLen := nonceLen + metaCt.length
  reject (metaLen < metaMinLen ∨ metaMaxLen < metaLen) (.format "meta_len out of range")
  let header := headBytes ++ le 2 0 ++ wrappedDek ++ le 4 metaLen ++ mnonce.bytes ++ metaCt
  let objectLen ← totalLen header.length plaintextLen.toNat head.chunkCount.toNat
  pure ({ dek := draws.dek, headBytes, baseNonce := head.baseNonce, fileId := draws.fileId, header,
          chunkSize, plaintextLen, chunkCount := head.chunkCount,
          objectLen := UInt64.ofNat objectLen, contentBlake3 }, input)

variable {σ : Type}

structure EmitState (σ : Type) where
  input : Source
  hashed : Bytes
  output : σ

def EmitState.writeHashed (write : Sink σ) (s : EmitState σ) (bytes : Bytes) :
    Except CryptoError (EmitState σ) := do
  let output ← writeOut write s.output bytes
  pure { s with hashed := s.hashed ++ bytes, output }

namespace PlannedSeal

def emitChunks (plan : PlannedSeal) (write : Sink σ) :
    (remaining index : Nat) → EmitState σ → Except CryptoError (EmitState σ)
  | 0, _, s => pure s
  | remaining + 1, index, s => do
    let thisPt := chunkPlaintextLen plan.plaintextLen.toNat plan.chunkSize.toNat index
    let (chunk, input) ← okOr (.format "input read failed") (s.input.readExact thisPt)
    let ct ← Aead.encryptWithNonce P plan.dek (chunkNonce plan.baseNonce index) chunk
      (plan.headBytes ++ le 8 index)
    let s ← { s with input }.writeHashed write ct
    emitChunks plan write remaining (index + 1) s

def emit (plan : PlannedSeal) (input : Source) (write : Sink σ) (output : σ) :
    Except CryptoError σ := do
  let s ← EmitState.writeHashed write { input, hashed := [], output } plan.header
  let s ← plan.emitChunks P write plan.chunkCount.toNat 0 s
  writeOut write s.output (P.hash s.hashed).bytes

end PlannedSeal

end Dctl.Object
