import Dctl.Core.Put
import Dctl.Kem.Discovery

/-! Sharing (`vault/share.rs`): storing a file for recipients, and adding recipients to a stored
file or removing them from it, as programs over the two stores of a vault. -/

namespace Dctl.Core

open ProofKit Crypto Kem Index Object

@[simp, reducible] def discoveryKeyPrefix : String := "d/"

def discoveryKeyOf (keyId : KeyId) (fileId : FileId) : String :=
  discoveryKeyPrefix ++ (hexEncode keyId.bytes ++ "/" ++ hexEncode fileId.bytes)

/-- What sharing reads of a stored object: its head, the id in it, and the block of its inline
recipients. -/
structure ObjectFront where
  headBytes : Bytes
  fileId : FileId
  block : Bytes

structure SharedDraws where
  object : RecipientDraws
  name : Nonce
  discovery : Nat → DiscoveryDraws

structure ShareDraws where
  grants : Nat → EncapsDraws
  discovery : Nat → DiscoveryDraws

variable (L : Libraries) (v : Vault)

namespace Vault

def identityKeyId : KeyId := v.identity.keyId L.toPrimitives L.toKemPrimitives

def writeDiscoveryRecord (recipient : Drk1Public) (headBytes : Bytes) (disc : DiscoveryInfo)
    (draws : DiscoveryDraws) : VaultM Unit := do
  let record ← liftCrypto
    (sealDgd1 L.toPrimitives L.toKemPrimitives L.toUnicode recipient headBytes disc draws)
  putObject (discoveryKeyOf (recipient.keyId L.toPrimitives) disc.fileId) record

/-- The discovery records of the recipients from number `index` on.  The owner needs none. -/
def writeDiscoveryRecords (headBytes : Bytes) (disc : DiscoveryInfo) (draws : Nat →
    DiscoveryDraws) :
    Nat → List Drk1Public → VaultM Unit
  | _, [] => pure ()
  | index, r :: rest =>
    if r.keyId L.toPrimitives = v.identityKeyId L then
      writeDiscoveryRecords headBytes disc draws (index + 1) rest
    else do
      writeDiscoveryRecord L r headBytes disc (draws index)
      writeDiscoveryRecords headBytes disc draws (index + 1) rest

def distinctRecipients (seen : List KeyId) : List Drk1Public → List Drk1Public
  | [] => []
  | r :: rest =>
    if r.keyId L.toPrimitives ∈ seen then distinctRecipients seen rest
    else r :: distinctRecipients (seen ++ [r.keyId L.toPrimitives]) rest

def recipientSet (recipients : List Drk1Public) : List Drk1Public :=
  v.identity.public L.toKemPrimitives :: distinctRecipients L [v.identityKeyId L] recipients

def sealShared (draws : RecipientDraws) (nfcPath : String) (data : Bytes)
    (recipients : List Drk1Public) : Except CoreError Bytes := do
  let object ← ofCrypto (sealToRecipients L.toPrimitives L.toKemPrimitives draws
    (v.recipientSet L recipients) data (Metadata.new nfcPath) v.chunkSize)
  reject (object.length < 68) (.integrity "sealed object shorter than head")
  pure object

def sharedInfo (nfcPath : String) (fileId : FileId) (data : Bytes) : DiscoveryInfo where
  objSuite := kemSuiteX25519Mlkem768
  fileId := fileId
  size := UInt64.ofNat data.length
  contentHash := L.hash data
  path := nfcPath
  ext := []

def storeShared (draws : SharedDraws) (nfcPath : String) (data : Bytes)
    (recipients : List Drk1Public) (modifiedUnix : Option Int64) (previous : Option String) :
    VaultM Unit := do
  let object ← Prog.ofExcept (v.sealShared L draws.object nfcPath data recipients)
  let fileId := Block.slice fileIdLen object 52
  let headBytes := object.take objectHeadLen
  v.storeSealed L draws.name fileId object (bufferedRow L nfcPath fileId data modifiedUnix)
  v.writeDiscoveryRecords L headBytes (sharedInfo L nfcPath fileId data) draws.discovery 0
    (v.recipientSet L recipients)
  gcSupersededObject previous (objectKeyOf fileId)

def putFileShared (draws : SharedDraws) (clock : Option Int64) (path : String) (data : Bytes)
    (recipients : List Drk1Public) (modified : Modified) : VaultM Unit := do
  let path ← liftCrypto (Path.normalize L.toUnicode path)
  let previous ← v.lookupKey L path
  v.storeShared L draws path data recipients (modified.resolve clock) previous

def checkFront (front : Bytes) : Except CoreError Nat := do
  reject (front.length < objectHeadLen + 2) (.integrity "object truncated (head/kem_ct_len)")
  let head ← ofCrypto (parseHead front)
  reject (head.kemId ≠ kemIdHybrid) (.crypto
    (.format "not a shared (kem_id=1) object — cannot add/remove recipients"))
  pure (leAt front objectHeadLen 2)

def fetchHeadAndBlock (objectKey : String) : VaultM ObjectFront := do
  let front ← fetchRange objectKey 0 (objectHeadLen + 2)
  let kemCtLen ← Prog.ofExcept (checkFront front)
  let block ← fetchRange objectKey (objectHeadLen + 2) kemCtLen
  Prog.ofExcept (reject (block.length ≠ kemCtLen) (.integrity "object truncated (kem_wrap)"))
  let headBytes := front.take objectHeadLen
  pure { headBytes, fileId := Block.slice fileIdLen headBytes 52, block }

def recoverKwForShare (headBytes block : Bytes) (grants : List GrantRecord) :
    Except CoreError Key := do
  match ← ofCrypto (recoverInline L headBytes block v.allIdentities) with
  | some kw => pure kw
  | none =>
    let granted := v.allIdentities.findSome? fun id =>
      (grants.find? fun g => grantKeyId g = id.keyId L.toPrimitives L.toKemPrimitives).map fun g =>
        (g, id)
    match granted with
    | some (grant, id) =>
      ofCrypto (Sidecar.recoverKwAsRecipient L.toPrimitives L.toKemPrimitives grant id headBytes)
    | none => throw (.crypto
        (.format "cannot share: this vault is not a recipient of the object"))

/-- The generation behind `gen`. -/
def nextGen (gen : UInt64) : Except CoreError UInt64 :=
  if gen.toNat + 1 < 2 ^ 64 then pure (gen + 1)
  else throw (.crypto (.format "grant_gen overflow"))

def grantsOf (front : ObjectFront) (answer : Except StoreError Bytes) :
    Except CoreError (List GrantRecord × UInt64) :=
  match answer with
  | .ok bytes => do
    let parsed ← ofCrypto (Sidecar.parse L.toPrimitives bytes front.fileId front.headBytes)
    pure (parsed.grants, parsed.grantGen)
  | .error (.notFound _) => pure ([], 0)
  | .error e => throw (.store e)

def addGrants (kw : Key) (headBytes : Bytes) (encaps : Nat → EncapsDraws) :
    Nat → List KeyId → List Drk1Public → Except CryptoError (List GrantRecord)
  | _, _, [] => pure []
  | index, present, r :: rest =>
    if r.keyId L.toPrimitives ∈ present then addGrants kw headBytes encaps (index + 1) present rest
    else do
      let grant ← Sidecar.sealKwToRecipient L.toPrimitives L.toKemPrimitives kw r headBytes
        (encaps index)
      let grants ← addGrants kw headBytes encaps (index + 1)
        (present ++ [r.keyId L.toPrimitives]) rest
      pure (grant :: grants)

def planAdd (front : ObjectFront) (recipients : List Drk1Public) (encaps : Nat → EncapsDraws)
    (answer : Except StoreError Bytes) : Except CoreError (Key × Option Bytes) := do
  let (grants, gen) ← grantsOf L front answer
  let kw ← v.recoverKwForShare L front.headBytes front.block grants
  let inlineIds ← ofCrypto (Sidecar.inlineKeyIds front.block)
  let present := inlineIds ++ [v.identityKeyId L] ++ grants.map grantKeyId
  let added ← ofCrypto (addGrants L kw front.headBytes encaps 0 present recipients)
  reject (maxGrantCount < (grants ++ added).length)
    (.crypto (.format "grant_count would exceed 4096"))
  if added = [] then pure (kw, none)
  else do
    let gen ← nextGen gen
    let sidecar ← ofCrypto
      (Sidecar.serialize L.toPrimitives front.fileId front.headBytes gen (grants ++ added))
    pure (kw, some sidecar)

def writeSidecar (fileId : FileId) : Option Bytes → VaultM Unit
  | some sidecar => putObject (grantKeyOf fileId) sidecar
  | none => pure ()

def objectContentHash (objectKey : String) (kw : Key) : VaultM Digest := do
  let object ← fetch objectKey
  let opened ← liftCrypto (openWithKw L.toPrimitives kw object)
  Prog.ofExcept (okOr (.integrity "shared object missing metadata")
    (opened.metadata.map (·.contentBlake3)))

def shareContentHash (nfcPath objectKey : String) (kw : Key) : VaultM Digest := do
  let row ← indexGet nfcPath
  match row.bind fun record => Block.of? 32 record.contentHash with
  | some contentHash => pure contentHash
  | none => objectContentHash L objectKey kw

def discoveryInfoForShare (nfcPath : String) (front : ObjectFront) (objectKey : String) (kw : Key) :
    VaultM DiscoveryInfo := do
  let head ← liftCrypto (parseHead front.headBytes)
  let contentHash ← shareContentHash L nfcPath objectKey kw
  pure
    { objSuite := kemSuiteX25519Mlkem768, fileId := front.fileId, size := head.plaintextLen,
      contentHash, path := nfcPath, ext := [] }

def resolveForShare (nfcPath : String) : VaultM String := do
  let found ← v.lookupKey L nfcPath
  Prog.ofExcept (okOr (.notFound nfcPath) found)

def addToObject (draws : ShareDraws) (nfcPath objectKey : String) (recipients : List Drk1Public) :
    VaultM (Option Key) := do
  let front ← fetchHeadAndBlock objectKey
  let answer ← tryFetch (grantKeyOf front.fileId)
  let (kw, sidecar) ← Prog.ofExcept (v.planAdd L front recipients draws.grants answer)
  writeSidecar front.fileId sidecar
  let disc ← discoveryInfoForShare L nfcPath front objectKey kw
  v.writeDiscoveryRecords L front.headBytes disc draws.discovery 0 recipients
  pure (sidecar.map fun _ => kw)

def shareAddWith (draws : ShareDraws) (path : String) (recipients : List Drk1Public) :
    VaultM (Option Key) := do
  let path ← liftCrypto (Path.normalize L.toUnicode path)
  let objectKey ← v.resolveForShare L path
  v.addToObject L draws path objectKey recipients

def shareAddRecipients (draws : ShareDraws) (path : String) (recipients : List Drk1Public) :
    VaultM Unit := do
  let _ ← v.shareAddWith L draws path recipients
  pure ()

/-- What `share_remove_recipient` does with the sidecar it fetched: the sidecar to write. -/
def planRemove (nfcPath : String) (front : ObjectFront) (keyId : KeyId)
    (answer : Except StoreError Bytes) : Except CoreError Bytes :=
  match answer with
  | .ok bytes => do
    let parsed ← ofCrypto (Sidecar.parse L.toPrimitives bytes front.fileId front.headBytes)
    let grants := parsed.grants.filter fun g => grantKeyId g ≠ keyId
    reject (grants.length = parsed.grants.length)
      (.notFound ("no sidecar grant for the given key_id on " ++ nfcPath))
    let gen ← nextGen parsed.grantGen
    ofCrypto (Sidecar.serialize L.toPrimitives front.fileId front.headBytes gen grants)
  | .error (.notFound _) => throw (.notFound ("no grant sidecar for " ++ nfcPath))
  | .error e => throw (.store e)

def removeFromObject (nfcPath objectKey : String) (keyId : KeyId) : VaultM Unit := do
  let front ← fetchHeadAndBlock objectKey
  let answer ← tryFetch (grantKeyOf front.fileId)
  let sidecar ← Prog.ofExcept (planRemove L nfcPath front keyId answer)
  putObject (grantKeyOf front.fileId) sidecar
  deleteObject (discoveryKeyOf keyId front.fileId)

def shareRemoveRecipient (path : String) (keyId : KeyId) : VaultM Unit := do
  let path ← liftCrypto (Path.normalize L.toUnicode path)
  let objectKey ← v.resolveForShare L path
  removeFromObject L path objectKey keyId

end Vault

def View.front (view : View) (objectKey : String) : Except CoreError ObjectFront := do
  let front ← ofStore (view.getRange objectKey 0 (objectHeadLen + 2))
  let kemCtLen ← Vault.checkFront front
  let block ← ofStore (view.getRange objectKey (objectHeadLen + 2) kemCtLen)
  reject (block.length ≠ kemCtLen) (.integrity "object truncated (kem_wrap)")
  let headBytes := front.take objectHeadLen
  pure { headBytes, fileId := Block.slice fileIdLen headBytes 52, block }

def sampleFriend : Drk1Public := ⟨Block.replicate 32 1, default⟩

def sampleSharedDraws : SharedDraws where
  object := ⟨⟨default, default, default, default, default⟩, default,
    fun _ => ⟨fun _ => default, default, default⟩⟩
  name := default
  discovery _ := ⟨default, ⟨fun _ => default, default, default⟩, default⟩

end Dctl.Core
