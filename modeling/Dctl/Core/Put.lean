import Dctl.Core.Store

/-! Storing and deleting files (`vault/put.rs`, `vault/put_stream.rs`, `vault/modified.rs`,
`delete_file` of `vault/list.rs`) as programs over the two stores of a vault. -/

namespace Dctl.Core

open ProofKit Crypto Index Object Prog

inductive Modified where
  | atTime (unix : Int64)
  | now
  | unknown
  deriving DecidableEq

def Modified.resolve (clock : Option Int64) : Modified → Option Int64
  | .atTime seconds => some seconds
  | .now => clock
  | .unknown => none

structure PutDraws where
  object : Object.Draws
  name : Nonce

def Stores.view (s : Stores) : View := s.objects.view fun path => .ok s.rows[path]?

variable (L : Libraries) (v : Vault)

namespace Vault

def nameKey (nfcPath : String) : String := v.nameKeys.recordKey L.keyedHash nfcPath

def namedKey (nfcPath : String) (answer : Except StoreError Bytes) : Option String :=
  match answer with
  | .error _ => none
  | .ok value =>
    match v.nameKeys.openRecord L.toPrimitives L.keyedHash v.vaultId
      (v.nameKey L nfcPath) value with
    | .ok record => some (objectKeyOf record.fileId)
    | .error _ => none

def lookupKey (nfcPath : String) : VaultM (Option String) := do
  let row ← indexGet nfcPath
  match row with
  | some record => pure (some record.objectKey)
  | none => do
    let answer ← tryFetch (v.nameKey L nfcPath)
    pure (v.namedKey L nfcPath answer)

def gcSupersededObject (previous : Option String) (current : String) : VaultM Unit :=
  match previous with
  | none => pure ()
  | some old =>
    if old = current then pure ()
    else do
      let _ ← ask (.delete old)
      pure ()

def storeSealed (nonce : Nonce) (fileId : FileId) (object : Bytes) (record : Record) :
    VaultM Unit := do
  putObject record.objectKey object
  let (nameKey, nameVal) ← liftCrypto
    (v.nameKeys.sealRecord L.toPrimitives L.keyedHash v.vaultId nonce record.path fileId 0)
  putObject nameKey nameVal
  indexPut record

def sealFile (draws : Object.Draws) (nfcPath : String) (data : Bytes)
    (modifiedUnix : Option Int64) : Except CoreError Bytes := do
  let object ← ofCrypto (sealObject L.toPrimitives v.rootKey draws data
    ((Metadata.new nfcPath).withMtime modifiedUnix) v.chunkSize)
  reject (object.length < 68) (.integrity "sealed object shorter than head")
  pure object

def bufferedRow (nfcPath : String) (fileId : FileId) (data : Bytes) (modifiedUnix : Option Int64) :
    Record where
  path := nfcPath
  objectKey := objectKeyOf fileId
  size := UInt64.ofNat data.length
  modifiedUnix := modifiedUnix
  contentHash := (L.hash data).bytes

def storeFile (draws : PutDraws) (nfcPath : String) (data : Bytes) (modifiedUnix : Option Int64)
    (previous : Option String) : VaultM Unit := do
  let object ← Prog.ofExcept (v.sealFile L draws.object nfcPath data modifiedUnix)
  let fileId := Block.slice fileIdLen object 52
  v.storeSealed L draws.name fileId object (bufferedRow L nfcPath fileId data modifiedUnix)
  gcSupersededObject previous (objectKeyOf fileId)

def putFile (draws : PutDraws) (clock : Option Int64) (path : String) (data : Bytes)
    (modified : Modified) : VaultM Unit := do
  let path ← liftCrypto (Path.normalize L.toUnicode path)
  let previous ← v.lookupKey L path
  v.storeFile L draws path data (modified.resolve clock) previous

/-- Seal the source for `put_file_from_source`, in two passes.  The backend commits the object only
when the sealer has finished and both agree on its digest, so that a sealer that fails writes
nothing. -/
def sealSource (draws : Object.Draws) (nfcPath : String) (source : Source) (plaintextLen : UInt64)
    (modifiedUnix : Option Int64) : Except CoreError (PlannedSeal × Bytes) := do
  let (plan, source) ← ofCrypto (PlannedSeal.prepare L.toPrimitives v.rootKey draws source
    plaintextLen ((Metadata.new nfcPath).withMtime modifiedUnix) v.chunkSize)
  let object ← ofCrypto (plan.emit L.toPrimitives source vecSink [])
  pure (plan, object)

def streamedRow (nfcPath : String) (plan : PlannedSeal) (modifiedUnix : Option Int64) : Record where
  path := nfcPath
  objectKey := objectKeyOf plan.fileId
  size := plan.plaintextLen
  modifiedUnix := modifiedUnix
  contentHash := plan.contentBlake3.bytes

def storeSource (draws : PutDraws) (nfcPath : String) (source : Source) (plaintextLen : UInt64)
    (modifiedUnix : Option Int64) (previous : Option String) : VaultM Streamed := do
  let (plan, object) ← Prog.ofExcept
    (v.sealSource L draws.object nfcPath source plaintextLen modifiedUnix)
  v.storeSealed L draws.name plan.fileId object (streamedRow nfcPath plan modifiedUnix)
  gcSupersededObject previous (objectKeyOf plan.fileId)
  pure { bytes := plan.plaintextLen.toNat, plaintextHash := plan.contentBlake3 }

def putFileFromSource (draws : PutDraws) (clock : Option Int64) (path : String) (source : Source)
    (plaintextLen : UInt64) (modified : Modified) : VaultM Streamed := do
  let path ← liftCrypto (Path.normalize L.toUnicode path)
  let previous ← v.lookupKey L path
  v.storeSource L draws path source plaintextLen (modified.resolve clock) previous

def removeFile (nfcPath : String) (found : Option String) : VaultM Bool :=
  match found with
  | none => pure false
  | some objectKey => do
    deleteObject objectKey
    deleteObject (v.nameKey L nfcPath)
    indexDelete nfcPath
    pure true

def deleteFile (path : String) : VaultM Bool := do
  let path ← liftCrypto (Path.normalize L.toUnicode path)
  let found ← v.lookupKey L path
  v.removeFile L path found

end Vault

variable {L v} {s s' : Stores} {nfcPath : String}

theorem Vault.namedKey_eq_some {answer : Except StoreError Bytes} {key : String} :
    v.namedKey L nfcPath answer = some key ↔ ∃ value record, answer = .ok value ∧
      v.nameKeys.openRecord L.toPrimitives L.keyedHash v.vaultId (v.nameKey L nfcPath) value =
        .ok record ∧ objectKeyOf record.fileId = key := by
  unfold namedKey
  constructor
  · intro h
    split at h
    · cases h
    · split at h
      · rename_i hopen
        exact ⟨_, _, rfl, hopen, Option.some.inj h⟩
      · cases h
  · rintro ⟨value, record, rfl, hopen, rfl⟩
    simp only [hopen]

/-- A path leads to the object of its row, and without a row to that of its name record. -/
theorem Vault.lookupObjectKey_eq {view : View} {row : Option Record}
    (hrow : view.indexGet nfcPath = .ok row) : v.lookupObjectKey L view nfcPath = .ok
      ((row.map (·.objectKey)).or (v.namedKey L nfcPath (view.get (v.nameKey L nfcPath)))) := by
  unfold lookupObjectKey namedKey nameKey
  rw [hrow, Except.mapError, ok_bind]
  cases row with
  | some record => rfl
  | none =>
    dsimp only
    cases view.get (v.nameKeys.recordKey L.keyedHash nfcPath) with
    | error e => rfl
    | ok value =>
      dsimp only
      cases v.nameKeys.openRecord L.toPrimitives L.keyedHash v.vaultId
          (v.nameKeys.recordKey L.keyedHash nfcPath) value with
      | error e => rfl
      | ok record => rfl

theorem Vault.run_lookupKey {x : Except CoreError (Option String)} :
    Prog.Run honest (v.lookupKey L nfcPath).run s x s' ↔
      v.lookupObjectKey L s.view nfcPath = x ∧ s' = s := by
  unfold lookupKey
  rw [honest_indexGet_bind,
    lookupObjectKey_eq (rfl : s.view.indexGet nfcPath = .ok s.rows[nfcPath]?)]
  cases s.rows[nfcPath]? with
  | some record =>
    rw [run_pure]
    exact and_congr eq_comm eq_comm
  | none =>
    simp only [honest_tryFetch_bind, run_pure]
    exact and_congr eq_comm eq_comm

namespace Stores

def withObject (s : Stores) (fileId : FileId) (object : Bytes) : Stores :=
  { s with objects := s.objects.insert (objectKeyOf fileId) object }

def withName (s : Stores) (fileId : FileId) (object : Bytes) (key : String) (value : Bytes) :
    Stores :=
  { s with objects := (s.withObject fileId object).objects.insert key value }

def withRow (s : Stores) (fileId : FileId) (object : Bytes) (key : String) (value : Bytes)
    (record : Record) : Stores :=
  { s.withName fileId object key value with rows := s.rows.insert record.path record }

def collect (s : Stores) (previous : Option String) (current : String) : Stores :=
  match previous with
  | none => s
  | some old => if old = current then s else { s with objects := s.objects.erase old }

def without (s : Stores) (objectKey nameKey nfcPath : String) : Stores where
  objects := (s.objects.erase objectKey).erase nameKey
  rows := s.rows.erase nfcPath

end Stores

theorem Vault.nameKey_of_sealRecord {nonce : Nonce} {fileId : FileId} {metadataGen : UInt64}
    {key : String} {value : Bytes}
    (hsealed : v.nameKeys.sealRecord L.toPrimitives L.keyedHash v.vaultId nonce nfcPath fileId
      metadataGen = .ok (key, value)) :
    key = v.nameKey L nfcPath :=
  NameKeys.sealRecord_key hsealed

theorem Vault.run_storeSealed (hP : L.toPrimitives.Lawful) {nonce : Nonce} {fileId : FileId}
    {object : Bytes} {record : Record} (hkey : record.objectKey = objectKeyOf fileId)
    (hpath : (utf8 record.path).length ≤ 65535) {x : Except CoreError Unit} :
    Prog.Run honest (v.storeSealed L nonce fileId object record).run s x s' ↔
      x = .ok () ∧ ∃ value,
        v.nameKeys.sealRecord L.toPrimitives L.keyedHash v.vaultId nonce record.path fileId 0 =
          .ok (v.nameKey L record.path, value) ∧
        s' = s.withRow fileId object (v.nameKey L record.path) value record := by
  obtain ⟨value, hsealed⟩ := @NameKeys.sealRecord_isOk L.toPrimitives L.keyedHash hP v.nameKeys
    v.vaultId nonce record.path hpath fileId 0
  have hrun : Prog.Run honest (v.storeSealed L nonce fileId object record).run s x s' ↔
      x = .ok () ∧ s.withRow fileId object (v.nameKey L record.path) value record = s' := by
    unfold storeSealed liftCrypto
    rw [honest_putObject_bind, hkey, hsealed, ofCrypto, Except.mapError, run_ofExcept_ok_bind,
      honest_putObject_bind, ← bind_pure (indexPut record), honest_indexPut_bind, run_pure]
    exact Iff.rfl
  rw [hrun]
  apply and_congr_right
  intro _
  constructor
  · intro hs
    exact ⟨value, hsealed, hs.symm⟩
  · intro h
    obtain ⟨value', hsealed', rfl⟩ := h
    have hsame := hsealed.symm.trans hsealed'
    cases hsame
    rfl

theorem Vault.run_gc {previous : Option String} {current : String} {x : Except CoreError Unit} :
    Prog.Run honest (gcSupersededObject previous current).run s x s' ↔
      x = .ok () ∧ s.collect previous current = s' := by
  unfold gcSupersededObject Stores.collect
  cases previous with
  | none => exact run_pure
  | some old =>
    by_cases hold : old = current
    · simp only [if_pos hold]
      exact run_pure
    · simp only [if_neg hold, run_query_bind]
      constructor
      · intro h
        obtain ⟨_, _, ⟨rfl, rfl⟩, h⟩ := h
        exact run_pure.mp h
      · intro h
        exact ⟨_, _, ⟨rfl, rfl⟩, run_pure.mpr h⟩

end Dctl.Core
