import Dctl.Object.Range
import Dctl.Object.Recipient
import Dctl.Core.Basic

/-! The buffered read and the ranged reader (`vault/get.rs`, `range.rs`), the sequential read at
constant memory (`vault/read_stream.rs`) and the scrub that is built on it (`verify_file`).  All go
from a path to the bytes that the backend holds under its object key. -/

namespace Dctl.Core

open ProofKit Crypto Kem Index Object

def ofCrypto {α : Type} (x : Except CryptoError α) : Except CoreError α := x.mapError .crypto

def ofStore {α : Type} (x : Except StoreError α) : Except CoreError α := x.mapError .store

@[simp] theorem ofCrypto_eq_ok {α : Type} {x : Except CryptoError α} {a : α} :
    ofCrypto x = .ok a ↔ x = .ok a := mapError_eq_ok

@[simp] theorem ofStore_eq_ok {α : Type} {x : Except StoreError α} {a : α} :
    ofStore x = .ok a ↔ x = .ok a := mapError_eq_ok

variable (L : Libraries)

def notARecipient : CoreError :=
  .crypto (.format "not a recipient: no inline sub-record and no sidecar grant for this identity")

def unsupportedKemId (kemId : UInt8) : CoreError :=
  .crypto (.format ("unsupported kem_id " ++ toString kemId))

def recoverInline (headBytes kemWrapBlock : Bytes) :
    List RecipientKeypair → Except CryptoError (Option Key)
  | [] => pure none
  | id :: rest => do
    match ← recoverKwFromBlock L.toPrimitives L.toKemPrimitives id headBytes kemWrapBlock with
    | some kw => pure (some kw)
    | none => recoverInline headBytes kemWrapBlock rest

def recoverGranted (headBytes : Bytes) (grants : List GrantRecord) :
    List RecipientKeypair → Except CoreError Key
  | [] => throw notARecipient
  | id :: rest =>
    match grants.find? fun g => grantKeyId g = id.keyId L.toPrimitives L.toKemPrimitives with
    | some grant =>
      ofCrypto (Sidecar.recoverKwAsRecipient L.toPrimitives L.toKemPrimitives grant id headBytes)
    | none => recoverGranted headBytes grants rest

namespace Vault

variable (v : Vault) (view : View)

def recoverObjectKwParts (headBytes kemWrapBlock : Bytes) (fileId : FileId) :
    Except CoreError Key := do
  match ← ofCrypto (recoverInline L headBytes kemWrapBlock v.allIdentities) with
  | some kw => pure kw
  | none =>
    match view.get (grantKeyOf fileId) with
    | .error (.notFound _) => throw notARecipient
    | .error e => throw (.store e)
    | .ok bytes =>
      let parsed ← ofCrypto (Sidecar.parse L.toPrimitives bytes fileId headBytes)
      recoverGranted L headBytes parsed.grants v.allIdentities

def recoverObjectKw (blob : Bytes) : Except CoreError Key := do
  reject (blob.length < objectHeadLen + 2) (.integrity "object truncated (head/kem_ct_len)")
  let headBytes := blob.take objectHeadLen
  let kemCtLen := leAt blob objectHeadLen 2
  let blockStart := objectHeadLen + 2
  let blockEnd := blockStart + kemCtLen
  reject (blob.length < blockEnd) (.integrity "object truncated (kem_wrap)")
  let block := (blob.drop blockStart).take kemCtLen
  v.recoverObjectKwParts L view headBytes block (Block.slice fileIdLen headBytes 52)

def openStored (objectKey : String) (object : Bytes) : Except CoreError Opened := do
  let head ← ofCrypto (parseHead object)
  requireObjectIdentity objectKey head
  if head.kemId = kemIdNone then ofCrypto (openObject L.toPrimitives v.rootKey object)
  else if head.kemId = kemIdHybrid then do
    let kw ← v.recoverObjectKw L view object
    ofCrypto (openWithKw L.toPrimitives kw object)
  else throw (unsupportedKemId head.kemId)

def readObject (objectKey path : String) : Except CoreError Bytes := do
  let object ← ofStore (view.get objectKey)
  let opened ← v.openStored L view objectKey object
  match opened.metadata with
  | some metadata =>
    reject (L.hash opened.plaintext ≠ metadata.contentBlake3) (.integrity path)
    pure opened.plaintext
  | none => pure opened.plaintext

def getFile (path : String) : Except CoreError Bytes := do
  let path ← ofCrypto (Path.normalize L.toUnicode path)
  let objectKey ← v.resolve L view path
  v.readObject L view objectKey path

end Vault

@[simp, reducible] def maxHeaderProbes : Nat := 3

def truncated (path : String) : CoreError :=
  .integrity (path ++ ": object truncated inside its header")

def fetchHeaderLoop (view : View) (key path : String) :
    (remaining want : Nat) → Except CoreError (Bytes × Nat)
  | 0, _ => .error (.integrity (path ++ ": object header did not resolve in " ++
      toString maxHeaderProbes ++ " reads"))
  | remaining + 1, want => do
    let front ← ofStore (view.getRange key 0 want)
    match ← ofCrypto (headerExtent front) with
    | .complete headerLen => pure (front, headerLen)
    | .short need =>
      -- A short answer means that the object ends inside its own header.
      if want ≤ front.length then fetchHeaderLoop view key path remaining need
      else .error (truncated path)

def fetchHeader (view : View) (key path : String) : Except CoreError (Bytes × Nat) :=
  fetchHeaderLoop view key path maxHeaderProbes objectHeaderProbeLen

structure RangeReader where
  key : String
  header : RangeHeader
  headerBytes : Bytes
  path : String

structure DecryptedChunk where
  index : Nat
  plaintext : Bytes

namespace Vault

variable (v : Vault) (view : View)

def openRangeReader (path : String) : Except CoreError RangeReader := do
  let path ← ofCrypto (Path.normalize L.toUnicode path)
  let key ← v.resolve L view path
  let (front, headerLen) ← fetchHeader view key path
  let head ← ofCrypto (parseHead front)
  requireObjectIdentity key head
  let headerBytes := front.take headerLen
  if head.kemId = kemIdNone then do
    let header ← ofCrypto (RangeHeader.openRoot L.toPrimitives v.rootKey headerBytes)
    pure { key, header, headerBytes, path }
  else if head.kemId = kemIdHybrid then do
    let kw ← v.recoverObjectKw L view front
    let header ← ofCrypto (RangeHeader.openWithKw L.toPrimitives kw headerBytes)
    pure { key, header, headerBytes, path }
  else throw (unsupportedKemId head.kemId)

end Vault

namespace RangeReader

variable (r : RangeReader) (view : View)

def contentBlake3 : Option Digest := r.header.metadata.map (·.contentBlake3)

def fetch (span : ChunkSpan) : Except CoreError Bytes := do
  let bytes ← ofStore (view.getRange r.key span.ciphertextOffset span.ciphertextLen)
  reject (bytes.length ≠ span.ciphertextLen) (.integrity (r.path ++ ": ranged read returned " ++
    toString bytes.length ++ " bytes, expected " ++ toString span.ciphertextLen))
  pure bytes

def readChunksInner (first count : Nat) (footer : Option Bytes) :
    Except CoreError (List DecryptedChunk × Option Bytes) := do
  let span ← ofCrypto (r.header.chunkSpan first count)
  if span.chunkCount = 0 then pure ([], footer)
  else do
    let ciphertext ← r.fetch view span
    let chunks ← ofCrypto (r.header.openChunks L.toPrimitives span ciphertext
      (fun chunks index plaintext => pure (chunks ++ [{ index, plaintext }])) [])
    pure (chunks, footer.map (· ++ ciphertext))

def footerFold : Option Bytes := if r.header.head.hasFooter then some r.headerBytes else none

def payloadEnd : Except CoreError Nat :=
  if r.header.head.chunkCount = 0 then pure r.header.payloadStart
  else do
    let span ← ofCrypto (r.header.chunkSpan (r.header.head.chunkCount.toNat - 1) 1)
    pure (min (span.ciphertextOffset + span.ciphertextLen) (2 ^ 64 - 1))

def confirmFooter (fold : Bytes) : Except CoreError Unit := do
  let start ← r.payloadEnd
  let stored ← ofStore (view.getRange r.key start footerLen)
  reject (stored.length ≠ footerLen)
    (.integrity (r.path ++ ": object declares a footer and holds " ++
    toString stored.length ++ " of its " ++ toString footerLen ++ " bytes"))
  reject (stored ≠ (L.hash fold).bytes)
    (.integrity (r.path ++ ": the object's footer does not match the bytes it served"))

def confirmObjectLength : Except CoreError Unit :=
  if r.header.head.chunkCount = 0 then pure ()
  else do
    let payloadEnd ← r.payloadEnd
    let stored ← ofStore (view.head r.key)
    if stored = payloadEnd ∨ stored = (payloadEnd + footerLen) % 2 ^ 64 then pure ()
    else throw (.integrity (r.path ++ ": stored object is " ++ toString stored ++
      " bytes, its authenticated geometry accounts for " ++ toString payloadEnd))

end RangeReader

end Dctl.Core

namespace Dctl.Core

open ProofKit Crypto Object

variable (L : Libraries) {σ : Type}

@[simp, reducible] def streamWindowChunks : Nat := 8

/-- A writer, `none` when it fails. -/
structure Writer (σ : Type) where
  write : Sink σ
  flush : σ → Option σ

def vecWriter : Writer Bytes where
  write := vecSink
  flush := some

def sinkWriter : Writer Unit where
  write _ _ := some ()
  flush := some

def ioError : CoreError := .store (.io "write failed")

structure Streamed where
  bytes : Nat
  plaintextHash : Digest
  deriving DecidableEq

structure Walk (σ : Type) where
  hashed : Bytes
  footer : Option Bytes
  written : Nat
  next : Nat
  out : σ

/-- Hand one chunk on.  The additions of the source saturate, below the length of the plaintext. -/
def Walk.emit (w : Writer σ) (s : Walk σ) (chunk : DecryptedChunk) : Except CoreError (Walk σ) := do
  let out ← okOr ioError (w.write s.out chunk.plaintext)
  pure { s with
    hashed := s.hashed ++ chunk.plaintext
    written := s.written + chunk.plaintext.length
    next := s.next + 1
    out }

namespace RangeReader

variable (r : RangeReader) (view : View)

def walk (normalized : String) (w : Writer σ) : (rounds : Nat) → Walk σ → Except CoreError (Walk σ)
  | 0, s =>
    if s.next < r.header.head.chunkCount.toNat then throw (.integrity normalized) else pure s
  | rounds + 1, s =>
    if s.next < r.header.head.chunkCount.toNat then do
      let (chunks, footer) ← r.readChunksInner L view s.next streamWindowChunks s.footer
      reject (chunks.isEmpty) (.integrity (normalized ++ ": object stopped after " ++
        toString s.written ++ " of " ++ toString r.header.head.plaintextLen ++ " bytes"))
      let s ← chunks.foldlM (Walk.emit w) { s with footer }
      walk normalized w rounds s
    else pure s

def confirmContent (normalized : String) (plaintextHash : Digest) : Except CoreError Unit :=
  match r.contentBlake3 with
  | some expected => reject (plaintextHash ≠ expected) (.integrity normalized)
  | none => pure ()

def confirmFold (footer : Option Bytes) : Except CoreError Unit :=
  match footer with
  | some fold => r.confirmFooter L view fold
  | none => pure ()

def streamTo (normalized : String) (w : Writer σ) (out : σ) : Except CoreError (Streamed × σ) := do
  let s ← r.walk L view normalized w r.header.head.chunkCount.toNat
    { hashed := [], footer := r.footerFold, written := 0, next := 0, out }
  reject (s.written ≠ r.header.head.plaintextLen.toNat) (.integrity (normalized ++ ": streamed " ++
    toString s.written ++ " bytes, object declares " ++ toString r.header.head.plaintextLen))
  let plaintextHash := L.hash s.hashed
  r.confirmContent normalized plaintextHash
  r.confirmFold L view s.footer
  let out ← okOr ioError (w.flush s.out)
  pure ({ bytes := s.written, plaintextHash }, out)

end RangeReader

namespace Vault

variable (v : Vault) (view : View)

def streamFileTo (path : String) (w : Writer σ) (out : σ) : Except CoreError (Streamed × σ) := do
  let normalized ← ofCrypto (Path.normalize L.toUnicode path)
  let reader ← v.openRangeReader L view normalized
  reader.streamTo L view normalized w out

abbrev Files := Std.ExtTreeMap String Bytes

/-- Stream the plaintext of the file at a path onto a local file: into a staging file beside it,
which is renamed at the end and removed on a failure.  The disk itself works. -/
def getFileToPath (logicalPath staging dest : String) (fs : Files) :
    Except CoreError Streamed × Files :=
  let created := fs.insert staging []
  match v.streamFileTo L view logicalPath vecWriter [] with
  | .error e => (.error e, created.erase staging)
  | .ok (streamed, bytes) =>
    (.ok streamed, ((created.insert staging bytes).erase staging).insert dest bytes)

def verifyFile (path : String) : Except CoreError Unit := do
  let normalized ← ofCrypto (Path.normalize L.toUnicode path)
  let reader ← v.openRangeReader L view normalized
  reader.confirmObjectLength view
  let _ ← reader.streamTo L view normalized sinkWriter ()

end Vault

end Dctl.Core
