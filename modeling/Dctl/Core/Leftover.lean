import Dctl.Core.History

/-! What is left of a file once it is deleted or replaced. -/

namespace Dctl.Core

open ProofKit Crypto Kem Index Object

variable (L : Libraries) (v : Vault)

/-- The path's row or its name record leads to the object of this file id. -/
def Vault.LeadsTo (s : Stores) (nfcPath : String) (fileId : FileId) : Prop :=
  (∃ row, s.rows[nfcPath]? = some row ∧ row.objectKey = objectKeyOf fileId) ∨
    ∃ value record, s.objects[v.nameKey L nfcPath]? = some value ∧
      v.nameKeys.openRecord L.toPrimitives L.keyedHash v.vaultId (v.nameKey L nfcPath) value =
        .ok record ∧
      record.path = nfcPath ∧ record.fileId = fileId

/-- Neither a sidecar nor a discovery record of the file id is there. -/
def Stores.NoSide (s : Stores) (fileId : FileId) : Prop :=
  ∀ key, SideKey fileId key → s.objects[key]? = none

/-- The calls that put an end to the object that the path led to. -/
def Call.Ends : Call → Prop
  | .put .. | .putSource .. | .putShared .. | .delete _ => True
  | .shareAdd .. | .shareRemove .. => False

/-- The file that the call ends has no sidecar and no discovery record. -/
def Vault.Unshared (s : Stores) (c : Call) : Prop :=
  ∀ nfcPath fileId, Path.normalize L.toUnicode c.path = .ok nfcPath → c.Ends →
    v.LeadsTo L s nfcPath fileId → s.NoSide fileId

/-- The objects that the path led to are gone with their sidecars and discovery records, and after a
delete its name record is too. -/
def Vault.LeavesNothing (s : Stores) (c : Call) (s' : Stores) : Prop :=
  ∀ nfcPath, Path.normalize L.toUnicode c.path = .ok nfcPath → c.Ends →
    (∀ fileId, v.LeadsTo L s nfcPath fileId →
      s'.objects[objectKeyOf fileId]? = none ∧ s'.NoSide fileId) ∧
    (c = .delete c.path → s'.objects[v.nameKey L nfcPath]? = none)

variable {L v} {s s' s1 : Stores} {nfcPath : String} {fileId other : FileId}

theorem Vault.Consistent.leadsTo_iff (h : v.Consistent L s) :
    v.LeadsTo L s nfcPath fileId ↔
      ∃ row, s.rows[nfcPath]? = some row ∧ row.objectKey = objectKeyOf fileId := by
  constructor
  · intro hleads
    rcases hleads with hrow | ⟨value, record, hvalue, hopen, rfl, rfl⟩
    · exact hrow
    · obtain ⟨row, hrow⟩ := Option.isSome_iff_exists.mp (h.name _ value record hvalue hopen)
      exact ⟨row, hrow, h.name_eq hrow hvalue hopen⟩
  · exact Or.inl

theorem Vault.PutLeaves.noSide_iff {object : Bytes} {row : Record}
    (hleaves : v.PutLeaves L s fileId object row s1) (hne : other ≠ fileId) {old : FileId} :
    Stores.NoSide { s1 with objects := s1.objects.erase (objectKeyOf old) } other ↔
      s.NoSide other := by
  obtain ⟨_, value, _, hside⟩ := hleaves
  apply forall_congr'
  intro key
  apply imp_congr_right
  intro hkey
  have hobject : ∀ id, objectKeyOf id ≠ key := by
    intro id heq
    rw [← heq] at hkey
    exact not_sideKey_objectKeyOf other id hkey
  have hname : v.nameKey L row.path ≠ key := by
    intro heq
    rw [← heq] at hkey
    exact not_sideKey_nameKey other row.path hkey
  have hunchanged : (s1.objects.erase (objectKeyOf old))[key]? = s.objects[key]? := by
    rw [Backend.getElem?_erase_of_ne (hobject old), hside.objects key fun h => hne (hkey.unique h)]
    simp only [Stores.withRow, Stores.withName, Stores.withObject]
    rw [Backend.getElem?_insert_of_ne hname, Backend.getElem?_insert_of_ne (hobject fileId)]
  rw [hunchanged]

theorem Stores.noSide_without_iff {id : FileId} :
    (s.without (objectKeyOf id) (v.nameKey L nfcPath) nfcPath).NoSide other ↔ s.NoSide other := by
  apply forall_congr'
  intro key
  apply imp_congr_right
  intro hkey
  have hobject : objectKeyOf id ≠ key := by
    intro heq
    rw [← heq] at hkey
    exact not_sideKey_objectKeyOf other id hkey
  have hname : v.nameKey L nfcPath ≠ key := by
    intro heq
    rw [← heq] at hkey
    exact Vault.not_sideKey_nameKey other nfcPath hkey
  rw [Stores.without, Backend.getElem?_erase_of_ne hname, Backend.getElem?_erase_of_ne hobject]

def sampleShared (recipients : List Drk1Public) : Call :=
  .putShared sampleSharedDraws none "a" [] recipients .unknown

def sharedRecord (recipients : List Drk1Public) (r : Drk1Public) : Except CryptoError Bytes :=
  sealDgd1 sharingLibraries.toPrimitives sharingLibraries.toKemPrimitives
    sharingLibraries.toUnicode r
    ((sharedObject sampleSharedDraws.object recipients).take objectHeadLen)
      (Vault.sharedInfo sharingLibraries "a" default [])
    (sampleSharedDraws.discovery 0)

def sharedStores (recipients : List Drk1Public) (value : Bytes) : Stores :=
  Stores.withRow ⟨∅, ∅⟩ default (sharedObject sampleSharedDraws.object recipients)
    (sampleVault.nameKey sharingLibraries "a")
    value (Vault.bufferedRow sharingLibraries "a" default [] none)

theorem sharedStores_noSide (recipients : List Drk1Public) (value : Bytes) (fileId : FileId) :
    (sharedStores recipients value).NoSide fileId := by
  intro key hkey
  have hname : sampleVault.nameKey sharingLibraries "a" ≠ key := by
    intro heq
    rw [← heq] at hkey
    exact Vault.not_sideKey_nameKey fileId "a" hkey
  have hobject : objectKeyOf default ≠ key := by
    intro heq
    rw [← heq] at hkey
    exact not_sideKey_objectKeyOf fileId default hkey
  simp only [sharedStores, Stores.withRow, Stores.withName, Stores.withObject]
  rw [Backend.getElem?_insert_of_ne hname, Backend.getElem?_insert_of_ne hobject]
  rfl

theorem exists_delete_shared {recipients : List Drk1Public}
    (hsealed : (sampleVault.sealShared sharingLibraries sampleSharedDraws.object "a" []
      recipients).isOk)
    (hrecords : ∀ r ∈ sampleVault.recipientSet sharingLibraries recipients,
      (sharedRecord recipients r).isOk) :
    ∃ s s' value, sampleVault.History sharingLibraries s ∧
      sampleVault.Admits sharingLibraries s (.delete "a") ∧
      Prog.Run honest (sampleVault.deleteFile sharingLibraries "a").run s (.ok true) s' ∧
      s' = s.without (objectKeyOf default) (sampleVault.nameKey sharingLibraries "a") "a" ∧
      sampleVault.LeadsTo sharingLibraries s "a" default ∧
      Prog.Run honest (sampleVault.writeDiscoveryRecords sharingLibraries
        ((sharedObject sampleSharedDraws.object recipients).take objectHeadLen)
        (Vault.sharedInfo sharingLibraries "a" default []) sampleSharedDraws.discovery 0
        (sampleVault.recipientSet sharingLibraries recipients)).run
          (sharedStores recipients value) (.ok ()) s := by
  have hpath : Path.normalize sharingLibraries.toUnicode "a" = .ok "a" := normalize_a
  have hlen : ([] : Bytes).length < 2 ^ 64 := by decide
  have hobject :
      sampleVault.sealShared sharingLibraries sampleSharedDraws.object "a" [] recipients =
      .ok (sharedObject sampleSharedDraws.object recipients) := sealShared_sharedObject hsealed
  have hall : ∀ i : Nat, ∀ r ∈ sampleVault.recipientSet sharingLibraries recipients, ∃ record,
      sealDgd1 sharingLibraries.toPrimitives sharingLibraries.toKemPrimitives
        sharingLibraries.toUnicode r
          ((sharedObject sampleSharedDraws.object recipients).take objectHeadLen)
        (Vault.sharedInfo sharingLibraries "a" default []) (sampleSharedDraws.discovery i) =
          .ok record := by
    intro i r hr
    have hok := hrecords r hr
    cases hrecord : sharedRecord recipients r with
    | ok record => exact ⟨record, hrecord⟩
    | error e =>
      rw [hrecord] at hok
      cases hok
  obtain ⟨s, previous, value, hput, hprevious, hdiscovery⟩ :=
    @Vault.exists_run_putFileShared sharingLibraries sampleVault "a" clearPrimitives_lawful
      sampleSharedDraws none "a" [] (sharedObject sampleSharedDraws.object recipients) recipients
        .unknown hlen hpath hobject
      hall ⟨∅, ∅⟩
  cases hprevious
  have hside : Stores.SameOff (SideKey default) (sharedStores recipients value) s := by
    have hid : (Vault.sharedInfo sharingLibraries "a" default []).fileId = default := rfl
    exact Stores.SameOff.run (Vault.asks_writeDiscoveryRecords hid
      (fun keyId => Or.inr ⟨keyId, rfl⟩) 0 _) hdiscovery
  have hrow : s.rows["a"]? = some (Vault.bufferedRow sharingLibraries "a" default [] none) := by
    rw [hside.rows]
    exact Std.ExtTreeMap.getElem?_insert_self
  have hrun :
      Prog.Run honest ((sampleShared recipients).run sharingLibraries sampleVault).run ⟨∅, ∅⟩
      (.ok true) s :=
        Prog.run_fallible_bind.mpr (Or.inr ⟨(), s, hput, Prog.run_pure.mpr ⟨rfl, rfl⟩⟩)
  refine ⟨s, s.without (objectKeyOf default) (sampleVault.nameKey sharingLibraries "a") "a", value,
    ?_, ?_, ?_, rfl, Or.inl ⟨_, hrow, rfl⟩, hdiscovery⟩
  · refine .call (.start rfl ?_) ?_ hrun
    · intro key value record hvalue
      cases hvalue
    · refine ⟨hlen, fun _ _ => rfl, ?_⟩
      intro nfcPath _ other row hother
      cases hother
  · refine ⟨hlen, ?_, ?_⟩
    · intro fileId hid
      cases hid
    · intro nfcPath hnfc other row hother _
      rw [hside.rows] at hother
      have hnfc' : Path.normalize sharingLibraries.toUnicode "a" = .ok nfcPath := hnfc
      rw [hpath] at hnfc'
      cases hnfc'
      by_cases hne : "a" = other
      · exact hne.symm
      · rw [sharedStores, Stores.withRow] at hother
        rw [Std.ExtTreeMap.getElem?_insert, if_neg (by simpa [Vault.bufferedRow] using hne)]
          at hother
        cases hother
  · unfold Vault.deleteFile liftCrypto
    rw [hpath, ofCrypto, Except.mapError, Prog.run_ofExcept_ok_bind, Prog.run_fallible_bind]
    refine Or.inr ⟨_, s, Vault.run_lookupKey.mpr ⟨?_, rfl⟩, Vault.run_removeFile.mpr ⟨rfl, rfl⟩⟩
    have hview : s.view.indexGet "a" = .ok (some _) := congrArg Except.ok hrow
    exact Vault.lookupObjectKey_eq hview

end Dctl.Core
