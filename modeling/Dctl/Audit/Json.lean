import Mathlib.Algebra.Order.BigOperators.Group.List
import Dctl.ProofKit.Json
import Dctl.Audit.Chain
import Dctl.Audit.Serialize

/-! Audit records as JSON objects.  The library that the log is written with reads more than it
writes; here it reads flat objects, with the names in any order. -/

namespace Dctl.Audit

open ProofKit List

def recordFields (record : AuditRecord) : List (String × JsonValue) :=
  (match record.v with | some version => [("v", .num version.toNat)] | none => []) ++
    [("index", .num record.index.toNat), ("time", .str record.time), ("op", .str record.op),
      ("result", .str record.result), ("direction", .str record.direction),
      ("path", .str record.path), ("size", .num record.size.toNat),
      ("bytes", .num record.bytes.toNat), ("objects", .num record.objects.toNat),
      ("plaintext_hash", .str record.plaintextHash),
        ("ciphertext_hash", .str record.ciphertextHash),
      ("remote", .str record.remote), ("prev", .str record.prev), ("hash", .str record.hash)]

def stringField (fields : List (String × JsonValue)) (name : String) : Option String :=
  match fields.lookup name with
  | some (.str s) => some s
  | _ => none

def stringOr (fields : List (String × JsonValue)) (name : String) : Option String :=
  if (fields.lookup name).isNone then some "" else stringField fields name

def numberField (fields : List (String × JsonValue)) (name : String) : Option UInt64 :=
  match fields.lookup name with
  | some (.num n) => if n < 2 ^ 64 then some (UInt64.ofNat n) else none
  | _ => none

def numberOr (fields : List (String × JsonValue)) (name : String) : Option UInt64 :=
  if (fields.lookup name).isNone then some 0 else numberField fields name

def versionField (fields : List (String × JsonValue)) : Option (Option UInt32) :=
  match fields.lookup "v" with
  | none => some none
  | some (.num n) => if n < 2 ^ 32 then some (some (UInt32.ofNat n)) else none
  | some (.str _) => none

def recordOf (fields : List (String × JsonValue)) : Option AuditRecord := do
  let v ← versionField fields
  let index ← numberField fields "index"
  let time ← stringField fields "time"
  let op ← stringField fields "op"
  let result ← stringField fields "result"
  let direction ← stringOr fields "direction"
  let path ← stringOr fields "path"
  let size ← numberOr fields "size"
  let bytes ← numberOr fields "bytes"
  let objects ← numberOr fields "objects"
  let plaintextHash ← stringOr fields "plaintext_hash"
  let ciphertextHash ← stringOr fields "ciphertext_hash"
  let remote ← stringOr fields "remote"
  let prev ← stringField fields "prev"
  let hash ← stringField fields "hash"
  some
    { v := v, index, time, op, result, direction, path, size, bytes, objects, plaintextHash,
      ciphertextHash, remote, prev, hash }

def flatJson : Serde where
  toVec record := utf8 (String.ofList (writeObject (recordFields record)))
  fromSlice line :=
    match (fromUtf8 line).bind fun text => (readObject text.toList).bind recordOf with
    | some record => .ok record
    | none => .error "expected an audit record"

theorem recordOf_recordFields (record : AuditRecord) :
    recordOf (recordFields record) = some record := by
  obtain ⟨v, index, time, op, result, direction, path, size, bytes, objects, plaintextHash,
    ciphertextHash, remote, prev, hash⟩ := record
  have hlt : ∀ n : UInt64, n.toNat < 18446744073709551616 := UInt64.toNat_lt
  have hlt32 : ∀ n : UInt32, n.toNat < 4294967296 := UInt32.toNat_lt
  cases v <;> simp [recordOf, recordFields, versionField, numberField, stringField,
    stringOr, numberOr,
    lookup_cons, hlt, hlt32]

theorem flatJson_lawful : flatJson.Lawful where
  fromSlice_toVec record := by
    simp only [flatJson, fromUtf8_utf8, Option.bind_some, String.toList_ofList,
      readObject_writeObject, recordOf_recordFields]
  terminator_notMem record := by
    intro hmem
    obtain ⟨c, hc, hterminator⟩ := mem_utf8_ofList (by decide) hmem
    have hprintable := printable_writeObject hc
    rw [hterminator] at hprintable
    exact absurd hprintable (by decide)
  not_blank record := by
    obtain ⟨rest, hrest⟩ : ∃ rest, writeObject (recordFields record) = Char.ofNat 0x7b :: rest := by
      cases recordFields record <;> exact ⟨_, rfl⟩
    simp only [flatJson, hrest, utf8_ofList, flatMap_cons]
    rfl

theorem length_path_le (record : AuditRecord) :
    record.path.toList.length ≤ (flatJson.toVec record).length := by
  have hfield : ("path", JsonValue.str record.path) ∈ recordFields record := by simp [recordFields]
  have hwritten := length_writeField_le hfield
  have hescaped := length_le_flatMap_escapeChar record.path.toList
  have hencoded := length_le_length_utf8 (writeObject (recordFields record))
  simp only [writeField, writeValue, writeString, length_append, length_cons] at hwritten
  simp only [flatJson]
  omega

/-- How long a field can be: a character takes up to six, a number has up to twenty digits. -/
def fieldBound : String × JsonValue → Nat
  | (name, .num _) => 6 * name.toList.length + 24
  | (name, .str s) => 6 * name.toList.length + 6 * s.toList.length + 6

theorem length_writeField_num {n : Nat} (name : String) (hn : n < 2 ^ 64) :
    (writeField (name, .num n)).length + 1 ≤ fieldBound (name, .num n) := by
  have hname := length_writeString_le name
  have hdigits : n.repr.toList.length ≤ 20 := by
    rw [Nat.toList_repr, Nat.length_toDigits_le_iff (by decide) (by decide)]
    exact hn.trans (by decide)
  simp only [writeField, writeValue, fieldBound, length_append, length_cons]
  omega

theorem length_writeField_str (name s : String) :
    (writeField (name, .str s)).length + 1 ≤ fieldBound (name, .str s) := by
  have hname := length_writeString_le name
  have hvalue := length_writeString_le s
  simp only [writeField, writeValue, fieldBound, length_append, length_cons]
  omega

theorem length_recordFields_le (record : AuditRecord) {field : String × JsonValue}
    (h : field ∈ recordFields record) : (writeField field).length + 1 ≤ fieldBound field := by
  obtain ⟨name, value⟩ := field
  cases value with
  | str s => exact length_writeField_str name s
  | num n =>
    apply length_writeField_num
    cases hversion : record.v with
    | none =>
      simp only [recordFields, hversion, nil_append, mem_cons, Prod.mk.injEq,
        JsonValue.num.injEq, reduceCtorEq, and_false, false_or, or_false, not_mem_nil] at h
      rcases h with ⟨-, rfl⟩ | ⟨-, rfl⟩ | ⟨-, rfl⟩ | ⟨-, rfl⟩ <;> exact UInt64.toNat_lt _
    | some version =>
      simp only [recordFields, hversion, cons_append, nil_append, mem_cons,
        Prod.mk.injEq, JsonValue.num.injEq, reduceCtorEq, and_false, false_or, or_false,
        not_mem_nil] at h
      rcases h with ⟨-, rfl⟩ | ⟨-, rfl⟩ | ⟨-, rfl⟩ | ⟨-, rfl⟩ | ⟨-, rfl⟩
      · exact version.toNat_lt.trans (by decide)
      all_goals exact UInt64.toNat_lt _

theorem length_toVec_le (record : AuditRecord) :
    (flatJson.toVec record).length ≤ 24 * (record.strings.map fun s => s.toList.length).sum +
      24 * (record.prev.toList.length + record.hash.toList.length) + 4000 := by
  have hencoded := length_utf8_le (writeObject (recordFields record))
  have hobject := length_writeObject_le (recordFields record)
  have hfields : ((recordFields record).map fun field => (writeField field).length + 1).sum ≤
      ((recordFields record).map fieldBound).sum :=
    sum_le_sum fun _ h => length_recordFields_le record h
  have hbound : ((recordFields record).map fieldBound).sum ≤
      6 * (record.strings.map fun s => s.toList.length).sum +
        6 * (record.prev.toList.length + record.hash.toList.length) + 900 := by
    cases hversion : record.v <;>
      · simp [recordFields, hversion, AuditRecord.strings, fieldBound]
        omega
  simp only [flatJson]
  omega

end Dctl.Audit
