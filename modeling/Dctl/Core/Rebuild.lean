import Dctl.Core.Put

/-! Rebuilding the index of a vault from its name records (`vault/restore.rs`), as a program over
the two stores of the vault. -/

namespace Dctl.Core

open ProofKit Crypto Kem Index Object

structure Rebuilt where
  files : Nat
  measured : Nat
  unmeasured : Nat
  deriving DecidableEq, Inhabited

structure Described where
  size : UInt64
  modifiedUnix : Option Int64
  contentHash : Bytes
  deriving DecidableEq

/-- What the row of an object says that could not be described. -/
def Described.unmeasured : Described where
  size := 0
  modifiedUnix := none
  contentHash := []

def Described.row (d : Described) (path objectKey : String) : Record where
  path := path
  objectKey := objectKey
  size := d.size
  modifiedUnix := d.modifiedUnix
  contentHash := d.contentHash

def describedHeader (header : RangeHeader) : Described :=
  match header.metadata with
  | none => { Described.unmeasured with size := header.head.plaintextLen }
  | some m =>
    { size := header.head.plaintextLen, modifiedUnix := m.recordedMtime,
      contentHash := m.contentBlake3.bytes }

variable (L : Libraries) (v : Vault)

def askHeaderLoop (key path : String) : (remaining want : Nat) → VaultM (Bytes × Nat)
  | 0, _ => throw (.integrity (path ++ ": object header did not resolve in " ++
      toString maxHeaderProbes ++ " reads"))
  | remaining + 1, want => do
    let front ← fetchRange key 0 want
    let extent ← liftCrypto (headerExtent front)
    match extent with
    | .complete headerLen => pure (front, headerLen)
    | .short need =>
      if want ≤ front.length then askHeaderLoop key path remaining need
      else throw (truncated path)

def askHeader (key path : String) : VaultM (Bytes × Nat) :=
  askHeaderLoop key path maxHeaderProbes objectHeaderProbeLen

def splitFront (blob : Bytes) : Except CoreError (Bytes × Bytes) := do
  reject (blob.length < objectHeadLen + 2) (.integrity "object truncated (head/kem_ct_len)")
  let kemCtLen := leAt blob objectHeadLen 2
  let blockStart := objectHeadLen + 2
  let blockEnd := blockStart + kemCtLen
  reject (blob.length < blockEnd) (.integrity "object truncated (kem_wrap)")
  pure (blob.take objectHeadLen, (blob.drop blockStart).take kemCtLen)

namespace Vault

def recoverFromSidecar (headBytes : Bytes) (fileId : FileId) (answer : Except StoreError Bytes) :
    Except CoreError Key :=
  match answer with
  | .error (.notFound _) => throw notARecipient
  | .error e => throw (.store e)
  | .ok bytes => do
    let parsed ← ofCrypto (Sidecar.parse L.toPrimitives bytes fileId headBytes)
    recoverGranted L headBytes parsed.grants v.allIdentities

def askObjectKw (blob : Bytes) : VaultM Key := do
  let (headBytes, block) ← Prog.ofExcept (splitFront blob)
  let found ← liftCrypto (recoverInline L headBytes block v.allIdentities)
  match found with
  | some kw => pure kw
  | none => do
    let fileId := Block.slice fileIdLen headBytes 52
    let answer ← tryFetch (grantKeyOf fileId)
    Prog.ofExcept (v.recoverFromSidecar L headBytes fileId answer)

def askRangeHeader (key path : String) : VaultM RangeHeader := do
  let (front, headerLen) ← askHeader key path
  let head ← liftCrypto (parseHead front)
  Prog.ofExcept (requireObjectIdentity key head)
  if head.kemId = kemIdNone then
    liftCrypto (RangeHeader.openRoot L.toPrimitives v.rootKey (front.take headerLen))
  else if head.kemId = kemIdHybrid then do
    let kw ← v.askObjectKw L front
    liftCrypto (RangeHeader.openWithKw L.toPrimitives kw (front.take headerLen))
  else throw (unsupportedKemId head.kemId)

def describe (key path : String) : VaultM Described := do
  let header ← v.askRangeHeader L key path
  pure (describedHeader header)

def rebuildRow (record : NameRecord) (rebuilt : Rebuilt) : VaultM Rebuilt := do
  let objectKey := objectKeyOf record.fileId
  -- A header that cannot be read leaves a row without measurements.
  let described ← ExceptT.lift (v.describe L objectKey record.path).run
  match described with
  | .ok d => do
    indexPut (d.row record.path objectKey)
    pure { rebuilt with files := rebuilt.files + 1, measured := rebuilt.measured + 1 }
  | .error _ => do
    indexPut (Described.unmeasured.row record.path objectKey)
    pure { rebuilt with files := rebuilt.files + 1, unmeasured := rebuilt.unmeasured + 1 }

def rebuildItem (nameKey : String) (rebuilt : Rebuilt) : VaultM Rebuilt := do
  let value ← fetch nameKey
  match v.nameKeys.openRecord L.toPrimitives L.keyedHash v.vaultId nameKey value with
  | .ok record => v.rebuildRow L record rebuilt
  | .error _ => pure rebuilt

def rebuildItems : List String → Rebuilt → VaultM Rebuilt
  | [], rebuilt => pure rebuilt
  | nameKey :: rest, rebuilt => do
    let rebuilt ← v.rebuildItem L nameKey rebuilt
    rebuildItems rest rebuilt

def rebuildPages : (fuel : Nat) → Option String → Rebuilt → VaultM (Option Rebuilt)
  | 0, _, _ => pure none
  | fuel + 1, cursor, rebuilt => do
    let answer ← ask (.listPage nameKeyPrefix cursor)
    let page ← liftStore answer
    let rebuilt ← v.rebuildItems L page.items rebuilt
    match page.nextCursor with
    | some next => rebuildPages fuel (some next) rebuilt
    | none => pure (some rebuilt)

def rebuildIndex (fuel : Nat) : VaultM (Option Rebuilt) := v.rebuildPages L fuel none default

end Vault

end Dctl.Core
