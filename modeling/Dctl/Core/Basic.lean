import Dctl.Crypto.Names
import Dctl.Index.Database
import Dctl.Kem.Sidecar
import Dctl.Object.Head

/-! An open vault over two stores: a backend of objects and a local index (`vault/mod.rs`,
`vault/layout.rs`, `error.rs`, and the path resolution of `vault/get.rs`). -/

namespace Dctl.Core

open ProofKit Crypto Kem Index Object

inductive StoreError where
  | notFound (key : String)
  | rangeOutOfBounds (size : Nat)
  | io (message : String)
  | backend (message : String)
  deriving DecidableEq, Repr

inductive CoreError where
  | unlock
  | noVault (key : String)
  | notFound (path : String)
  | integrity (message : String)
  | crypto (e : CryptoError)
  | store (e : StoreError)
  | index (e : IndexError)
  deriving DecidableEq, Repr

abbrev Backend := Std.ExtTreeMap String Bytes

abbrev Rows := Std.ExtTreeMap String Record

namespace Backend

variable (b : Backend)

def get (key : String) : Except StoreError Bytes := okOr (.notFound key) b[key]?

/-- Fetch a byte range.  A length past the end is clamped. -/
def getRange (key : String) (offset length : Nat) : Except StoreError Bytes := do
  let bytes ← b.get key
  reject (bytes.length < offset) (.rangeOutOfBounds bytes.length)
  pure ((bytes.drop offset).take length)

def head (key : String) : Except StoreError Nat := do
  let bytes ← b.get key
  pure bytes.length

end Backend

structure View where
  get : String → Except StoreError Bytes
  getRange : String → (offset length : Nat) → Except StoreError Bytes
  head : String → Except StoreError Nat
  indexGet : String → Except IndexError (Option Record)

def Backend.view (b : Backend) (indexGet : String → Except IndexError (Option Record)) : View where
  get := b.get
  getRange := b.getRange
  head := b.head
  indexGet := indexGet

structure Libraries extends Primitives, KemPrimitives, Unicode where
  keyedHash : Key → Bytes → Digest

/-- Libraries that hide nothing, so that results about a vault can be evaluated. -/
def clearLibraries : Libraries where
  toPrimitives := clearPrimitives
  x25519Base := id
  x25519 _ _ := default
  mlkemEk _ := default
  mlkemEncapsulate _ m := some (Block.slice mlkem768CtLen m.bytes 0, m)
  mlkemDecapsulate _ ct := some (Block.slice 32 ct.bytes 0)
  hkdf ikm _ := Block.slice 32 ikm 0
  nfc := id
  assigned _ := true
  nfc_nfc _ := rfl
  keyedHash _ bytes := Block.slice 32 bytes 0

/-- Libraries that hide nothing, with a key exchange that can wrap keys for others. -/
def sharingLibraries : Libraries :=
  { clearLibraries with x25519 := fun _ _ => Block.replicate 32 1 }

structure Vault where
  rootKey : Key
  nameKeys : NameKeys
  vaultId : VaultId
  chunkSize : UInt32
  identity : RecipientKeypair
  imported : List RecipientKeypair

@[simp, reducible] def objectKeyPrefix : String := "o/"
@[simp, reducible] def grantKeyPrefix : String := "g/"

def objectKeyOf (fileId : FileId) : String := objectKeyPrefix ++ hexEncode fileId.bytes

def grantKeyOf (fileId : FileId) : String := grantKeyPrefix ++ hexEncode fileId.bytes

def namedFileId (objectKey : String) : Option FileId := do
  let hex ← stripPrefix objectKeyPrefix objectKey
  let raw ← hexDecode hex
  Block.of? fileIdLen raw

@[simp] theorem namedFileId_objectKeyOf (fileId : FileId) :
    namedFileId (objectKeyOf fileId) = some fileId := by
  simp [namedFileId, objectKeyOf]

theorem objectKeyOf_inj {a b : FileId} : objectKeyOf a = objectKeyOf b ↔ a = b := by
  rw [objectKeyOf, objectKeyOf, append_right_inj, hexEncode_inj, Block.ext_iff]

def requireObjectIdentity (objectKey : String) (head : Head) : Except CoreError Unit :=
  match namedFileId objectKey with
  | some expected =>
    reject (expected ≠ head.fileId) (.integrity
      ("the object stored at '" ++ objectKey ++ "' identifies itself as '" ++ objectKeyPrefix ++
        hexEncode head.fileId.bytes ++
          "'. The bytes at that key belong to a different object than " ++
        "the key names, so nothing was returned: answering with them would report content this " ++
        "vault never stored there."))
  | none =>
    .error
      (.integrity ("'" ++ objectKey ++ "' is not a well-formed object key, so the object found " ++
      "there cannot be checked against the name it was fetched by."))

theorem requireObjectIdentity_eq_ok {objectKey : String} {head : Head} :
    requireObjectIdentity objectKey head = .ok () ↔ namedFileId objectKey = some head.fileId := by
  unfold requireObjectIdentity
  cases namedFileId objectKey with
  | none => simp
  | some expected => simp

variable (L : Libraries) (v : Vault)

namespace Vault

def allIdentities : List RecipientKeypair := v.identity :: v.imported

def lookupObjectKey (view : View) (nfcPath : String) : Except CoreError (Option String) := do
  let row ← (view.indexGet nfcPath).mapError .index
  match row with
  | some record => pure (some record.objectKey)
  | none =>
    let nameKey := v.nameKeys.recordKey L.keyedHash nfcPath
    match view.get nameKey with
    | .error _ => pure none
    | .ok value =>
      match v.nameKeys.openRecord L.toPrimitives L.keyedHash v.vaultId nameKey value with
      | .ok record => pure (some (objectKeyOf record.fileId))
      | .error _ => pure none

def resolve (view : View) (path : String) : Except CoreError String := do
  let objectKey ← v.lookupObjectKey L view path
  okOr (.notFound path) objectKey

end Vault

end Dctl.Core
