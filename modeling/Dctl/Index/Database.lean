import Dctl.Crypto.Aead
import Dctl.Index.Keying
import Dctl.ProofKit.Table
import Dctl.ProofKit.Text

/-! The index record (`record.rs`, `error.rs` of the index), and the index database (`index.rs`):
three tables of sealed rows, and the transactions over them.  A transaction that fails leaves the
database as it was. -/

namespace Dctl.Index

open ProofKit

inductive IndexError where
  | db (message : String)
  | serialize
  | crypto
  deriving DecidableEq, Repr

structure Record where
  path : String
  objectKey : String
  size : UInt64
  modifiedUnix : Option Int64
  contentHash : Bytes
  deriving DecidableEq

def Record.unmeasured (r : Record) : Bool := r.size = 0 && r.contentHash.isEmpty

structure Totals where
  objects : UInt64
  bytes : UInt64
  unmeasured : UInt64
  deriving DecidableEq

instance : Inhabited Totals := ⟨⟨0, 0, 0⟩⟩

def Totals.measuredBytes (t : Totals) : Option UInt64 :=
  if t.unmeasured = 0 then some t.bytes else none

end Dctl.Index

namespace Dctl

open ProofKit Crypto

namespace Index

instance : Std.TransOrd Digest := inferInstance

/-- The serialization of the values (`postcard`). -/
structure Codec where
  encodeRecord : Record → Bytes
  decodeRecord : Bytes → Option Record
  encodeTotals : Totals → Bytes
  decodeTotals : Bytes → Option Totals

/-- The documented behaviour of the serialization: what was written is read back, and three `u64`
take at most ten bytes each. -/
structure Codec.Lawful (C : Codec) : Prop where
  decode_encodeRecord : ∀ r, C.decodeRecord (C.encodeRecord r) = some r
  decode_encodeTotals : ∀ t, C.decodeTotals (C.encodeTotals t) = some t
  length_encodeTotals : ∀ t, (C.encodeTotals t).length ≤ 30

end Index

open Index in
/-- The keys of an open index, and what comes from other libraries. -/
structure Index extends Primitives, Codec where
  keyedHash : Key → Bytes → Digest
  keyingKey : Key
  encKey : Key

namespace Index

structure RecordRow where
  parent : Bytes
  value : Bytes

structure DirRow where
  parent : Digest
  value : Bytes
  refs : Int

/-- The database.  A file that does not exist yet has no rows and version 0; records of version 0
have no parent, and the column is empty here. -/
structure Database where
  records : Table Digest RecordRow
  dirs : Table Digest DirRow
  totals : Option Bytes
  version : Int

def Database.empty : Database := { records := ∅, dirs := ∅, totals := none, version := 0 }

@[simp, reducible] def schemaVersion : Int := 1

def totalsDomain : String := String.ofList ['\x00', 't', 'o', 't', 'a', 'l', 's']

def saturatingAdd (a b : UInt64) : UInt64 := UInt64.ofNat (min (a.toNat + b.toNat) (2 ^ 64 - 1))

def saturatingSub (a b : UInt64) : UInt64 := UInt64.ofNat (a.toNat - b.toNat)

def Totals.without (t : Totals) (r : Record) : Totals :=
  if r.unmeasured then
    { t with objects := saturatingSub t.objects 1, unmeasured := saturatingSub t.unmeasured 1 }
  else { t with objects := saturatingSub t.objects 1, bytes := saturatingSub t.bytes r.size }

def Totals.with (t : Totals) (r : Record) : Totals :=
  if r.unmeasured then
    { t with objects := saturatingAdd t.objects 1, unmeasured := saturatingAdd t.unmeasured 1 }
  else { t with objects := saturatingAdd t.objects 1, bytes := saturatingAdd t.bytes r.size }

structure PutDraws where
  record : Nonce
  dir : String → Nonce
  totals : Nonce

variable (ix : Index)

def indexKey (path : String) : Digest := ix.keyedHash ix.keyingKey (utf8 path)

def sealValue (nonce : Nonce) (plaintext : Bytes) (key : Digest) : Except IndexError Bytes :=
  (Aead.encrypt ix.toPrimitives ix.encKey nonce plaintext key.bytes).mapError fun _ => .crypto

def openValue (key : Digest) (value : Bytes) : Except IndexError Bytes :=
  (Aead.decrypt ix.toPrimitives ix.encKey value key.bytes).mapError fun _ => .crypto

def decode (key : Digest) (value : Bytes) : Except IndexError Record := do
  let plaintext ← ix.openValue key value
  okOr .serialize (ix.decodeRecord plaintext)

def read (db : Database) (key : Digest) : Except IndexError (Option Record) :=
  match db.records[key]? with
  | some row => some <$> ix.decode key row.value
  | none => pure none

/-- Move the reference count of a directory, and create or collect its row. -/
def bumpDir (dirs : Table Digest DirRow) (nonce : Nonce) (dir : String) (delta : Int) :
    Except IndexError (Table Digest DirRow) :=
  let key := ix.indexKey dir
  if 0 < delta then do
    let parent := ix.indexKey (parentOf dir)
    let value ← ix.sealValue nonce (utf8 dir) key
    match dirs[key]? with
    | some row => pure (dirs.insert key { row with refs := row.refs + delta })
    | none => pure (dirs.insert key { parent, value, refs := delta })
  else
    match dirs[key]? with
    | some row =>
      if row.refs + delta ≤ 0 then pure (dirs.erase key)
      else pure (dirs.insert key { row with refs := row.refs + delta })
    | none => pure dirs

def readTotals (db : Database) : Except IndexError Totals :=
  match db.totals with
  | none => pure default
  | some value => do
    let plaintext ← ix.openValue (ix.indexKey totalsDomain) value
    okOr .serialize (ix.decodeTotals plaintext)

def writeTotals (nonce : Nonce) (totals : Totals) : Except IndexError Bytes :=
  ix.sealValue nonce (ix.encodeTotals totals) (ix.indexKey totalsDomain)

def shiftTotals (db : Database) (nonce : Nonce) (was now : Option Record) :
    Except IndexError Bytes := do
  let totals ← ix.readTotals db
  let totals := match was with
    | some record => totals.without record
    | none => totals
  let totals := match now with
    | some record => totals.with record
    | none => totals
  ix.writeTotals nonce totals

def bumpDirs (dirs : Table Digest DirRow) (draw : String → Nonce) (path : String) (delta : Int) :
    Except IndexError (Table Digest DirRow) :=
  (ancestorsOf path).foldlM (fun dirs dir => ix.bumpDir dirs (draw dir) dir delta) dirs

def implyDirs (dirs : Table Digest DirRow) (draw : String → Nonce) (path : String)
    (previous : Option Record) : Except IndexError (Table Digest DirRow) :=
  if previous.isNone then ix.bumpDirs dirs draw path 1 else pure dirs

def put (db : Database) (record : Record) (draws : PutDraws) : Except IndexError Database := do
  let key := ix.indexKey record.path
  let parent := ix.indexKey (parentOf record.path)
  let blob ← ix.sealValue draws.record (ix.encodeRecord record) key
  let previous ← ix.read db key
  let records := db.records.insert key { parent := parent.bytes, value := blob }
  let dirs ← ix.implyDirs db.dirs draws.dir record.path previous
  let totals ← ix.shiftTotals db draws.totals previous (some record)
  pure { db with records, dirs, totals := some totals }

def delete (db : Database) (path : String) (nonce : Nonce) :
    Except IndexError (Bool × Database) := do
  let key := ix.indexKey path
  match ← ix.read db key with
  | none => pure (false, db)
  | some previous => do
    let records := db.records.erase key
    let dirs ← ix.bumpDirs db.dirs (fun _ => nonce) path (-1)
    let totals ← ix.shiftTotals db nonce (some previous) none
    pure (true, { db with records, dirs, totals := some totals })

def get (db : Database) (path : String) : Except IndexError (Option Record) :=
  ix.read db (ix.indexKey path)

def containsDir (db : Database) (dir : String) : Bool := (db.dirs[ix.indexKey dir]?).isSome

def totals (db : Database) : Except IndexError Totals := ix.readTotals db

def all (db : Database) : Except IndexError (List Record) :=
  db.records.toList.mapM fun e => ix.decode e.1 e.2.value

def children (db : Database) (dir : String) : Except IndexError (List Record) :=
  (db.records.toList.filter fun e => e.2.parent = (ix.indexKey dir).bytes).mapM fun e =>
    ix.decode e.1 e.2.value

def decodeDir (key : Digest) (value : Bytes) : Except IndexError String := do
  let plaintext ← ix.openValue key value
  okOr .serialize (fromUtf8 plaintext)

def childDirs (db : Database) (dir : String) : Except IndexError (List String) :=
  (db.dirs.toList.filter fun e => e.2.parent = ix.indexKey dir).mapM fun e =>
    ix.decodeDir e.1 e.2.value

end Index

end Dctl
