import Dctl.Core.Put
import Dctl.Core.Readable

/-! The objects that the puts of a vault store, and how they read back. -/

namespace Dctl.Core

open ProofKit Crypto Kem Index Object

variable {L : Libraries} {v : Vault}

theorem objectKeyOf_ne_grantKeyOf (a b : FileId) : objectKeyOf a ≠ grantKeyOf b :=
  @append_ne_append "o/" "g/" (by simp) (by decide) _ _

theorem Vault.nameKey_ne_objectKeyOf (nfcPath : String) (fileId : FileId) :
    v.nameKey L nfcPath ≠ objectKeyOf fileId :=
  @append_ne_append "n/" "o/" (by simp) (by decide) _ _

theorem Vault.nameKey_ne_grantKeyOf (nfcPath : String) (fileId : FileId) :
    v.nameKey L nfcPath ≠ grantKeyOf fileId :=
  @append_ne_append "n/" "g/" (by simp) (by decide) _ _

theorem eq_objectKeyOf_of_named {objectKey : String} {fileId : FileId}
    (h : namedFileId objectKey = some fileId) : ∃ hex, objectKey = objectKeyPrefix ++ hex := by
  simp only [namedFileId, Option.bind_eq_bind, Option.bind_eq_some_iff] at h
  obtain ⟨hex, hstrip, -⟩ := h
  exact ⟨hex, stripPrefix_eq_some.mp hstrip⟩

theorem Vault.nameKey_ne_of_named {objectKey nfcPath : String} {fileId : FileId}
    (h : namedFileId objectKey = some fileId) : v.nameKey L nfcPath ≠ objectKey := by
  obtain ⟨hex, rfl⟩ := eq_objectKeyOf_of_named h
  exact @append_ne_append "n/" "o/" (by simp) (by decide) _ _

theorem Vault.readObject_congr {view view' : View} {objectKey path : String}
    (hobject : view'.get objectKey = view.get objectKey)
    (hgrants : ∀ fileId, view'.get (grantKeyOf fileId) = view.get (grantKeyOf fileId)) :
    v.readObject L view' objectKey path = v.readObject L view objectKey path := by
  have hparts : ∀ headBytes kemWrapBlock fileId,
      v.recoverObjectKwParts L view' headBytes kemWrapBlock fileId =
        v.recoverObjectKwParts L view headBytes kemWrapBlock fileId := by
    intro headBytes kemWrapBlock fileId
    unfold recoverObjectKwParts
    rw [hgrants]
  have hstored : ∀ object, v.openStored L view' objectKey object =
      v.openStored L view objectKey object := by
    intro object
    unfold openStored recoverObjectKw
    simp only [hparts]
  unfold readObject
  rw [hobject]
  simp only [hstored]

section

variable {key other : String} (hne : key ≠ other)
include hne

theorem Backend.getElem?_insert_of_ne {b : Backend} {value : Bytes} :
    (b.insert key value)[other]? = b[other]? := by
  rw [Std.ExtTreeMap.getElem?_insert, if_neg (by simpa using hne)]

theorem Backend.getElem?_erase_of_ne {b : Backend} : (b.erase key)[other]? = b[other]? := by
  rw [Std.ExtTreeMap.getElem?_erase, if_neg (by simpa using hne)]

theorem Backend.get_insert_of_ne {b : Backend} {value : Bytes} :
    Backend.get (b.insert key value) other = b.get other := by
  rw [Backend.get, Backend.get, getElem?_insert_of_ne hne]

end

theorem Vault.readObject_insert {s : Stores} {rows : Rows} {key objectKey path : String}
    {value : Bytes} (hobject : key ≠ objectKey) (hgrant : ∀ fileId, key ≠ grantKeyOf fileId) :
    v.readObject L (Stores.view { objects := s.objects.insert key value, rows }) objectKey path =
      v.readObject L s.view objectKey path := by
  apply readObject_congr
  · exact Backend.get_insert_of_ne hobject
  · intro fileId
    exact Backend.get_insert_of_ne (hgrant fileId)

theorem Vault.named_of_readObject {view : View} {objectKey path : String} {data : Bytes}
    (h : v.readObject L view objectKey path = .ok data) :
    (∃ object, view.get objectKey = .ok object) ∧
      ∃ fileId, namedFileId objectKey = some fileId := by
  have hget := h
  simp only [readObject, bind_eq_ok, ofStore_eq_ok] at hget
  obtain ⟨object, hobject, -⟩ := hget
  obtain ⟨f, _, _, _, hopens, -⟩ := (readObject_eq_ok hobject).mp h
  exact ⟨⟨object, hobject⟩, _, hopens.named⟩

section Sealed

variable {draws : Object.Draws} {nfcPath : String} {data object : Bytes}
  {modifiedUnix : Option Int64}

def sealedMetadata (L : Libraries) (nfcPath : String) (data : Bytes) (modifiedUnix : Option Int64) :
    Metadata :=
  (((Metadata.new nfcPath).withMtime modifiedUnix).filled (UInt64.ofNat data.length)
    (L.hash data)).readBack

section

variable (hP : L.toPrimitives.Lawful) (hlen : data.length < 2 ^ 64)
  (h : v.sealFile L draws nfcPath data modifiedUnix = .ok object)
include hP hlen h

theorem Vault.sealFile_eq_frame :
    ∃ f : Frame, object = f.bytes ∧ f.kemWrap = [] ∧
      f.head = sealHead kemIdNone draws (UInt64.ofNat data.length) v.chunkSize ∧
      AdmitsChunkSize v.chunkSize ∧
      f.Opens L.toPrimitives v.rootKey draws.dek (some (sealedMetadata L nfcPath data modifiedUnix))
        (chunks v.chunkSize.toNat data) := by
  simp only [sealFile, bind_eq_ok, ofCrypto_eq_ok, reject_eq_ok, pure_eq_ok] at h
  obtain ⟨_, hseal, _, -, rfl⟩ := h
  obtain ⟨f, kemWrap, hbytes, hwrap, hkemWrap, hhead, hadm, hopens⟩ :=
    sealCore_eq_frame hP (Or.inl rfl) hlen hseal
  cases hwrap
  exact ⟨f, hbytes, hkemWrap, hhead, hadm, hopens⟩

theorem Vault.fileId_of_sealFile : Block.slice fileIdLen object 52 = draws.fileId := by
  obtain ⟨f, rfl, -, hhead, -⟩ := sealFile_eq_frame hP hlen h
  rw [f.bytes_eq, Header.bytes_append, (readAt_buildHead f.head _).fileId, hhead]
  rfl

theorem Vault.readObject_sealFile {view : View} {path : String}
    (hget : view.get (objectKeyOf draws.fileId) = .ok object) :
    v.readObject L view (objectKeyOf draws.fileId) path = .ok data := by
  obtain ⟨f, rfl, hwrap, hhead, hadm, hopens⟩ := sealFile_eq_frame hP hlen h
  refine (readObject_eq_ok hget).mpr ⟨f, draws.dek, _, _,
    ⟨?_, ⟨v.rootKey, ?_, hopens⟩, ?_⟩, rfl, ?_⟩
  · rw [namedFileId_objectKeyOf, hhead]
    rfl
  · exact .root (by rw [hhead]; rfl) hwrap
  · intro m hm
    cases hm
    rw [flatten_chunks hadm.pos]
    rfl
  · rw [flatten_chunks hadm.pos]

end

theorem Vault.sealSource_eq_ok (hP : L.toPrimitives.Lawful) (hlen : data.length < 2 ^ 64)
    {grants : List Nat} {plaintextLen : UInt64} {plan : PlannedSeal}
    (h : v.sealSource L draws nfcPath (Source.of data grants) plaintextLen modifiedUnix =
      .ok (plan, object)) :
    v.sealFile L draws nfcPath data modifiedUnix = .ok object ∧ plan.fileId = draws.fileId ∧
      streamedRow nfcPath plan modifiedUnix =
        bufferedRow L nfcPath draws.fileId data modifiedUnix := by
  simp only [sealSource, bind_eq_ok, ofCrypto_eq_ok, pure_eq_ok, Prod.exists, Prod.mk.injEq] at h
  obtain ⟨_, input, hprepare, _, hemit, rfl, rfl⟩ := h
  have hparts := hprepare
  simp only [PlannedSeal.prepare, bind_eq_ok, reject_eq_ok, Prod.exists, ne_eq, not_not] at hparts
  obtain ⟨_, hcs, hashed, total, input', hpass, _, htotal, _, -, _, -, metaPt, hbuild, -⟩ := hparts
  have hadm : AdmitsChunkSize v.chunkSize := by
    rw [not_or, not_lt] at hcs
    exact hcs
  obtain ⟨input'', hpass', -⟩ :=
    hashPass_eq_ok (data.length + 1) hadm.pos (Source.of data grants) [] 0
    (by simp) (by simpa using hlen)
  rw [Source.rest_of, hpass', Except.ok.injEq, Prod.mk.injEq, Prod.mk.injEq] at hpass
  obtain ⟨rfl, rfl, -⟩ := hpass
  have hplaintextLen : plaintextLen = UInt64.ofNat data.length := by
    rw [← UInt64.toNat_inj, ← htotal, UInt64.toNat_ofNat_of_lt' hlen]
    simp
  subst hplaintextLen
  have hbuildable := (buildMetadata_eq_ok.mp hbuild).1.of_filled
  obtain ⟨f, hseal, -⟩ := sealCore_isOk hP v.rootKey draws (Or.inl rfl) (fun _ => pure []) hlen rfl
    (Nat.zero_le _) hbuildable hadm
  obtain ⟨plan', input3, hprepare', -, hid, hplain, hhash, hemit'⟩ :=
    PlannedSeal.prepare_eq hP hlen hseal grants
  rw [hprepare'] at hprepare
  split at hprepare
  · cases hprepare
    rw [hemit'] at hemit
    cases hemit
    refine ⟨?_, hid, ?_⟩
    · simp only [sealFile, bind_eq_ok, ofCrypto_eq_ok, reject_eq_ok, pure_eq_ok, not_lt]
      refine ⟨_, hseal, (), ?_, rfl⟩
      rw [f.bytes_eq, List.length_append, Header.length_bytes]
      omega
    · simp only [streamedRow, bufferedRow, hid, hplain, hhash]
  · cases hprepare

end Sealed

end Dctl.Core
