import Dctl.ProofKit.Text
import Dctl.ProofKit.Hex
import Dctl.Crypto.Aead

/-! Path normalization and validation (`path.rs`), and name records (`names.rs`): the map from a
path to the id of its object, kept in the backend under a keyed hash of the path.  The normalization
form and the table of assigned code points come from other libraries. -/

namespace Dctl.Crypto

open ProofKit

/-- What the code takes from the Unicode tables.  Normalizing a second time changes nothing. -/
structure Unicode where
  nfc : String → String
  assigned : Char → Bool
  nfc_nfc : ∀ s, nfc (nfc s) = nfc s

namespace Path

@[simp, reducible] def maxPathBytes : Nat := 4096
@[simp, reducible] def maxPathSegmentBytes : Nat := 255

def err (message : String) : CryptoError := .format ("invalid path: " ++ message)

/-- C0, DEL and C1. -/
def isBannedControl (c : Char) : Bool :=
  c.toNat ≤ 0x1F || c.toNat == 0x7F || (0x80 ≤ c.toNat && c.toNat ≤ 0x9F)

def isNoncharacter (c : Char) : Bool :=
  (0xFDD0 ≤ c.toNat && c.toNat ≤ 0xFDEF) || c.toNat &&& 0xFFFE == 0xFFFE

def validateChar (U : Unicode) (c : Char) : Except CryptoError Unit := do
  reject (isBannedControl c) (err "C0/DEL/C1 control code point")
  reject (c = '\\') (err "backslash not allowed")
  reject (isNoncharacter c) (err "noncharacter code point")
  reject (¬U.assigned c) (err "unassigned code point (outside the Unicode 15.1 repertoire)")

def isDrive : List Char → Bool
  | letter :: ':' :: _ => letter.isAlpha
  | _ => false

def validateSegment (seg : List Char) : Except CryptoError Unit := do
  reject (seg = []) (err "empty segment ('a//b')")
  reject (seg = ['.'] ∨ seg = ['.', '.']) (err "'.'/'..' segment")
  reject (maxPathSegmentBytes < (utf8 (String.ofList seg)).length)
    (err "segment exceeds 255 bytes")

def validate (U : Unicode) (path : String) : Except CryptoError Unit := do
  reject (path = "") (err "empty path")
  reject (maxPathBytes < (utf8 path).length) (err "path exceeds 4096 bytes")
  reject (path.toList.head? = some '/' ∨ path.toList.getLast? = some '/')
    (err "leading/trailing '/'")
  path.toList.forM (validateChar U)
  let segments := path.toList.splitOn '/'
  reject (isDrive (segments.headD [])) (err "drive-letter prefix")
  segments.forM validateSegment

def normalize (U : Unicode) (raw : String) : Except CryptoError String := do
  let nfc := U.nfc raw
  validate U nfc
  pure nfc

variable {U : Unicode}

theorem normalize_eq_ok {raw path : String} :
    normalize U raw = .ok path ↔ U.nfc raw = path ∧ validate U path = .ok () := by
  simp only [normalize, bind_eq_ok, pure_eq_ok]
  constructor
  · rintro ⟨_, hvalid, rfl⟩
    exact ⟨rfl, hvalid⟩
  · rintro ⟨rfl, hvalid⟩
    exact ⟨(), hvalid, rfl⟩

theorem normalize_normalized {raw path : String} (h : normalize U raw = .ok path) :
    normalize U path = .ok path := by
  obtain ⟨rfl, hvalid⟩ := normalize_eq_ok.mp h
  exact normalize_eq_ok.mpr ⟨U.nfc_nfc raw, hvalid⟩

theorem validate_length {path : String} (h : validate U path = .ok ()) :
    (utf8 path).length ≤ maxPathBytes := by
  simp only [validate, bind_eq_ok, reject_eq_ok] at h
  obtain ⟨_, -, _, hle, -⟩ := h
  exact not_lt.mp hle

end Path

end Dctl.Crypto

namespace Dctl.Crypto

open ProofKit

abbrev VaultId := Block 16

@[simp, reducible] def nameKeyPrefix : String := "n/"

/-- `file_id(16) ‖ metadata_gen(8) ‖ path_len(2)`. -/
@[simp, reducible] def valueFixedPrefix : Nat := 16 + 8 + 2

structure NameKeys where
  hashKey : Key
  valueKey : Key

structure NameRecord where
  fileId : FileId
  metadataGen : UInt64
  path : String

variable (P : Primitives) (keyedHash : Key → Bytes → Digest)

def nameAad (vaultId : VaultId) (keyBytes : Bytes) : Bytes :=
  nameAadPrefix ++ vaultId.bytes ++ keyBytes

namespace NameKeys

def recordKey (keys : NameKeys) (nfcPath : String) : String :=
  nameKeyPrefix ++ hexEncode (keyedHash keys.hashKey (utf8 nfcPath)).bytes

def encodeValue (nfcPath : String) (fileId : FileId) (metadataGen : UInt64) : Bytes :=
  fileId.bytes ++ le 8 metadataGen.toNat ++ le 2 (utf8 nfcPath).length ++ utf8 nfcPath

def sealRecord (keys : NameKeys) (vaultId : VaultId) (nonce : Nonce) (nfcPath : String)
    (fileId : FileId) (metadataGen : UInt64) : Except CryptoError (String × Bytes) := do
  let key := keys.recordKey keyedHash nfcPath
  reject (65535 < (utf8 nfcPath).length) (.format "name path too long")
  let value ← Aead.encrypt P keys.valueKey nonce (encodeValue nfcPath fileId metadataGen)
    (nameAad vaultId (utf8 key))
  pure (key, value)

def openRecord (keys : NameKeys) (vaultId : VaultId) (recordKey : String) (value : Bytes) :
    Except CryptoError NameRecord := do
  let pt ← Aead.decrypt P keys.valueKey value (nameAad vaultId (utf8 recordKey))
  reject (pt.length < valueFixedPrefix) (.format "name record too short")
  let pathLen := leAt pt 24 2
  reject (valueFixedPrefix + pathLen ≠ pt.length) (.format "name record length mismatch")
  let path ← okOr (.format "name path not UTF-8") (fromUtf8 (pt.drop valueFixedPrefix))
  reject (keys.recordKey keyedHash path ≠ recordKey)
    (.format "name record path does not match its key (corrupt/transplanted)")
  pure { fileId := Block.slice fileIdLen pt 0, metadataGen := UInt64.ofNat (leAt pt 16 8), path }

variable {P keyedHash} {keys : NameKeys} {vaultId : VaultId}

theorem openRecord_sealRecord (hP : P.Lawful) {nonce : Nonce} {path key : String} {fileId : FileId}
    {metadataGen : UInt64} {value : Bytes}
    (h : keys.sealRecord P keyedHash vaultId nonce path fileId metadataGen = .ok (key, value)) :
    keys.openRecord P keyedHash vaultId key value = .ok { fileId, metadataGen, path } := by
  simp only [sealRecord, bind_eq_ok, reject_eq_ok, pure_eq_ok, Prod.mk.injEq, not_lt] at h
  obtain ⟨_, hlen, value, hvalue, rfl, rfl⟩ := h
  generalize hpt : encodeValue path fileId metadataGen = pt at *
  have hgen := metadataGen.toNat_lt
  have hlength : pt.length = 26 + (utf8 path).length := by
    simp [← hpt, encodeValue]
    omega
  have hfileId : Block.slice fileIdLen pt 0 = fileId := by
    refine Block.slice_eq (t := le 8 metadataGen.toNat ++ (le 2 (utf8 path).length ++ utf8 path)) ?_
    simp [← hpt, encodeValue]
  have hmetadataGen : leAt pt 16 8 = metadataGen.toNat := by
    refine leAt_eq (t := le 2 (utf8 path).length ++ utf8 path) ?_ (by omega)
    rw [← hpt, encodeValue, List.append_assoc, List.append_assoc, List.drop_left' fileId.length]
  have hpathLen : leAt pt 24 2 = (utf8 path).length := by
    refine leAt_eq (t := utf8 path) ?_ (by omega)
    rw [← hpt, encodeValue, List.append_assoc, List.drop_left' (by simp)]
  have hpath : pt.drop valueFixedPrefix = utf8 path := by
    rw [← hpt, encodeValue, List.drop_left' (by simp)]
  simp only [openRecord, Aead.decrypt_encrypt hP hvalue, ok_bind, bind_eq_ok, reject_eq_ok,
    okOr_eq_ok, pure_eq_ok, hpath, hpathLen, fromUtf8_utf8, hfileId, hmetadataGen]
  refine ⟨(), by simp [hlength], (), by simp [hlength], path, rfl, (), by simp, ?_⟩
  simp

theorem sealRecord_key {nonce : Nonce} {path key : String} {fileId : FileId} {metadataGen : UInt64}
    {value : Bytes}
    (h : keys.sealRecord P keyedHash vaultId nonce path fileId metadataGen = .ok (key, value)) :
    key = keys.recordKey keyedHash path := by
  simp only [sealRecord, bind_eq_ok, pure_eq_ok, Prod.mk.injEq] at h
  obtain ⟨_, -, _, -, rfl, -⟩ := h
  rfl

theorem sealRecord_isOk (hP : P.Lawful) (keys : NameKeys) (vaultId : VaultId) (nonce : Nonce)
    {path : String} (hpath : (utf8 path).length ≤ 65535) (fileId : FileId) (metadataGen : UInt64) :
    ∃ value, keys.sealRecord P keyedHash vaultId nonce path fileId metadataGen =
      .ok (keys.recordKey keyedHash path, value) := by
  obtain ⟨value, hvalue⟩ := Aead.encrypt_isOk hP keys.valueKey nonce
    (encodeValue path fileId metadataGen)
    (nameAad vaultId (utf8 (keys.recordKey keyedHash path))) (by
      simp only [encodeValue, List.length_append, length_le, fileId.length, maxMessageLen]
      simp only [fileIdLen]
      omega)
  refine ⟨value, ?_⟩
  simp only [sealRecord, bind_eq_ok, reject_eq_ok, pure_eq_ok, not_lt]
  exact ⟨(), hpath, value, hvalue, rfl⟩

end NameKeys

end Dctl.Crypto
