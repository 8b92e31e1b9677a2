import Dctl.Core.Lookup
import Dctl.Core.Share
import Dctl.Core.Stored

/-! The keys that sharing writes under (`vault/share.rs`): the sidecar of an object and its
discovery records. -/

namespace Dctl.Core

open ProofKit Crypto Kem Index Object

variable {L : Libraries} {v : Vault} {s s' : Stores} {nfcPath : String} {fileId other : FileId}

/-- The keys of the sidecar and of the discovery records of the file. -/
def SideKey (fileId : FileId) (key : String) : Prop :=
  key = grantKeyOf fileId ∨ ∃ keyId, key = discoveryKeyOf keyId fileId

theorem objectKeyOf_ne_discoveryKeyOf (fileId : FileId) (keyId : KeyId) (other : FileId) :
    objectKeyOf fileId ≠ discoveryKeyOf keyId other :=
  @append_ne_append "o/" "d/" (by simp) (by decide) _ _

theorem Vault.nameKey_ne_discoveryKeyOf (nfcPath : String) (keyId : KeyId) (fileId : FileId) :
    v.nameKey L nfcPath ≠ discoveryKeyOf keyId fileId :=
  @append_ne_append "n/" "d/" (by simp) (by decide) _ _

theorem not_sideKey_objectKeyOf (fileId other : FileId) : ¬SideKey fileId (objectKeyOf other) := by
  intro h
  rcases h with h | ⟨keyId, h⟩
  · exact objectKeyOf_ne_grantKeyOf other fileId h
  · exact objectKeyOf_ne_discoveryKeyOf other keyId fileId h

theorem Vault.not_sideKey_nameKey (fileId : FileId) (nfcPath : String) :
    ¬SideKey fileId (v.nameKey L nfcPath) := by
  intro h
  rcases h with h | ⟨keyId, h⟩
  · exact nameKey_ne_grantKeyOf nfcPath fileId h
  · exact nameKey_ne_discoveryKeyOf nfcPath keyId fileId h

theorem grantKeyOf_inj {a b : FileId} : grantKeyOf a = grantKeyOf b ↔ a = b := by
  rw [grantKeyOf, grantKeyOf, append_right_inj, hexEncode_inj, Block.ext_iff]

theorem grantKeyOf_ne_discoveryKeyOf (fileId : FileId) (keyId : KeyId) (other : FileId) :
    grantKeyOf fileId ≠ discoveryKeyOf keyId other :=
  @append_ne_append "g/" "d/" (by simp) (by decide) _ _

theorem discoveryKeyOf_inj {a b : KeyId} {fileId other : FileId} :
    discoveryKeyOf a fileId = discoveryKeyOf b other ↔ a = b ∧ fileId = other := by
  constructor
  · intro h
    have hrest := append_right_inj.mp h
    rw [String.append_assoc, String.append_assoc] at hrest
    have hlen : (hexEncode a.bytes).toList.length = (hexEncode b.bytes).toList.length := by
      rw [length_hexEncode, length_hexEncode, a.length, b.length]
    obtain ⟨hkey, hid⟩ := append_inj_of_length hlen hrest
    exact ⟨Block.ext (hexEncode_inj.mp hkey),
      Block.ext (hexEncode_inj.mp (append_right_inj.mp hid))⟩
  · intro h
    rw [h.1, h.2]

theorem SideKey.unique {key : String} (h : SideKey fileId key) (h' : SideKey other key) :
    fileId = other := by
  rcases h with rfl | ⟨keyId, rfl⟩
  · rcases h' with heq | ⟨otherId, heq⟩
    · exact grantKeyOf_inj.mp heq
    · exact absurd heq (grantKeyOf_ne_discoveryKeyOf fileId otherId other)
  · rcases h' with heq | ⟨otherId, heq⟩
    · exact absurd heq.symm (grantKeyOf_ne_discoveryKeyOf other keyId fileId)
    · exact (discoveryKeyOf_inj.mp heq).2

section Asks

variable {keys : String → Prop} {key path : String}

theorem asks_tryFetch : (tryFetch key).run.Asks (Request.WritesOnly keys) := Prog.asks_query trivial

theorem asks_fetch : (fetch key).run.Asks (Request.WritesOnly keys) :=
  Prog.asks_bind asks_tryFetch fun _ => trivial

theorem asks_fetchRange {offset length : Nat} :
    (fetchRange key offset length).run.Asks (Request.WritesOnly keys) :=
  Prog.asks_bind (Prog.asks_query trivial) fun _ => trivial

theorem asks_indexGet : (indexGet path).run.Asks (Request.WritesOnly keys) :=
  Prog.asks_bind (Prog.asks_query trivial) fun _ => trivial

theorem asks_putObject {data : Bytes} (hkey : keys key) :
    (putObject key data).run.Asks (Request.WritesOnly keys) :=
  Prog.asks_bind (Prog.asks_query hkey) fun _ => trivial

theorem asks_deleteObject (hkey : keys key) :
    (deleteObject key).run.Asks (Request.WritesOnly keys) :=
  Prog.asks_bind (Prog.asks_query hkey) fun _ => trivial

theorem Vault.asks_lookupKey : (v.lookupKey L nfcPath).run.Asks (Request.WritesOnly keys) := by
  apply Prog.asks_bind asks_indexGet
  intro row
  cases row with
  | some record => trivial
  | none => exact Prog.asks_bind asks_tryFetch fun _ => trivial

theorem Vault.asks_resolveForShare :
    (v.resolveForShare L nfcPath).run.Asks (Request.WritesOnly keys) :=
  Prog.asks_bind asks_lookupKey fun _ => trivial

theorem Vault.asks_fetchHeadAndBlock :
    (fetchHeadAndBlock key).run.Asks (Request.WritesOnly keys) := by
  apply Prog.asks_bind asks_fetchRange
  intro front
  apply Prog.asks_bind (Prog.asks_ofExcept _)
  intro kemCtLen
  apply Prog.asks_bind asks_fetchRange
  intro block
  exact Prog.asks_bind (Prog.asks_ofExcept _) fun _ => trivial

theorem Vault.asks_objectContentHash {kw : Key} :
    (objectContentHash L key kw).run.Asks (Request.WritesOnly keys) :=
  Prog.asks_bind asks_fetch fun _ => Prog.asks_bind (Prog.asks_ofExcept _) fun _ => trivial

theorem Vault.asks_shareContentHash {kw : Key} :
    (shareContentHash L nfcPath key kw).run.Asks (Request.WritesOnly keys) := by
  apply Prog.asks_bind asks_indexGet
  intro row
  cases row.bind fun record => Block.of? 32 record.contentHash with
  | some contentHash => trivial
  | none => exact asks_objectContentHash

theorem Vault.asks_writeDiscoveryRecords {headBytes : Bytes} {disc : DiscoveryInfo}
    {draws : Nat → DiscoveryDraws} (hid : disc.fileId = fileId)
    (hkeys : ∀ keyId, keys (discoveryKeyOf keyId fileId)) (index : Nat)
    (recipients : List Drk1Public) :
    (v.writeDiscoveryRecords L headBytes disc draws index recipients).run.Asks
      (Request.WritesOnly keys) := by
  subst hid
  induction recipients generalizing index with
  | nil => trivial
  | cons r rest ih =>
    unfold writeDiscoveryRecords
    by_cases howner : r.keyId L.toPrimitives = v.identityKeyId L
    · rw [if_pos howner]
      exact ih (index + 1)
    · rw [if_neg howner]
      refine Prog.asks_bind ?_ fun _ => ih (index + 1)
      unfold writeDiscoveryRecord
      apply Prog.asks_bind (Prog.asks_ofExcept _)
      intro record
      exact asks_putObject (hkeys _)

theorem Vault.asks_discoveryInfoForShare {front : ObjectFront} {kw : Key} :
    (discoveryInfoForShare L nfcPath front key kw).run.Asks (Request.WritesOnly keys) := by
  unfold discoveryInfoForShare
  apply Prog.asks_bind (Prog.asks_ofExcept _)
  intro head
  exact Prog.asks_bind asks_shareContentHash fun _ => trivial

end Asks

section Discovery

variable {headBytes : Bytes} {disc : DiscoveryInfo} {discovery : Nat → DiscoveryDraws}

theorem Vault.run_writeDiscoveryRecords_ok (index : Nat) (recipients : List Drk1Public)
    (hsealed : ∀ i, ∀ r ∈ recipients, ∃ record,
      sealDgd1 L.toPrimitives L.toKemPrimitives L.toUnicode r headBytes disc (discovery i) =
        .ok record) (s : Stores) :
    ∃ s', Prog.Run honest (v.writeDiscoveryRecords L headBytes disc discovery index
      recipients).run s
      (.ok ()) s' := by
  induction recipients generalizing index s with
  | nil => exact ⟨s, Prog.run_pure.mpr ⟨rfl, rfl⟩⟩
  | cons r rest ih =>
    have hrest : ∀ i, ∀ r ∈ rest, ∃ record, sealDgd1 L.toPrimitives L.toKemPrimitives L.toUnicode r
        headBytes disc (discovery i) = .ok record :=
      fun i r hr => hsealed i r (List.mem_cons_of_mem _ hr)
    unfold writeDiscoveryRecords
    by_cases howner : r.keyId L.toPrimitives = v.identityKeyId L
    · rw [if_pos howner]
      exact ih (index + 1) hrest s
    · rw [if_neg howner]
      obtain ⟨record, hrecord⟩ := hsealed index r (List.mem_cons_self ..)
      obtain ⟨s', hrun⟩ := ih (index + 1) hrest { s with
        objects := s.objects.insert (discoveryKeyOf (r.keyId L.toPrimitives) disc.fileId) record }
      refine ⟨s', ?_⟩
      unfold writeDiscoveryRecord liftCrypto
      rw [hrecord, bind_assoc]
      exact Prog.run_ofExcept_ok_bind.mpr (honest_putObject_bind.mpr hrun)

/-- A discovery record that is written stays, and every recipient but the owner gets one, unless the
call fails. -/
theorem Vault.discovered_of_run (index : Nat) (recipients : List Drk1Public)
    {x : Except CoreError Unit} (h : Prog.Run mayLoseAnswer
      (v.writeDiscoveryRecords L headBytes disc discovery index recipients).run s x s') :
    (∀ key : String, s.objects[key]?.isSome → s'.objects[key]?.isSome) ∧
      (x = .ok () → ∀ r ∈ recipients, r.keyId L.toPrimitives ≠ v.identityKeyId L →
        s'.objects[discoveryKeyOf (r.keyId L.toPrimitives) disc.fileId]?.isSome) := by
  have hinsert : ∀ (t : Stores) (key other : String) (value : Bytes), t.objects[other]?.isSome →
      (t.objects.insert key value)[other]?.isSome := by
    intro t key other value hother
    rw [Std.ExtTreeMap.getElem?_insert]
    split
    · rfl
    · exact hother
  induction recipients generalizing index s with
  | nil =>
    obtain ⟨-, rfl⟩ := Prog.run_pure.mp h
    exact ⟨fun _ => id, fun _ r hr => by cases hr⟩
  | cons r rest ih =>
    unfold writeDiscoveryRecords at h
    by_cases howner : r.keyId L.toPrimitives = v.identityKeyId L
    · rw [if_pos howner] at h
      obtain ⟨hkeep, hall⟩ := ih (index + 1) h
      refine ⟨hkeep, fun hx other hother hne => ?_⟩
      rcases List.mem_cons.mp hother with rfl | hother
      · exact absurd howner hne
      · exact hall hx other hother hne
    · rw [if_neg howner] at h
      unfold writeDiscoveryRecord liftCrypto at h
      rw [bind_assoc] at h
      rcases Prog.run_ofExcept_bind.mp h with ⟨e, -, rfl, rfl⟩ | ⟨record, hrecord, hwrites⟩
      · exact ⟨fun _ => id, fun hx => by cases hx⟩
      rcases Prog.run_fallible_bind.mp hwrites with ⟨e, hput, rfl⟩ | ⟨_, s1, hput, hrest⟩
      · refine ⟨fun key hkey => ?_, fun hx => by cases hx⟩
        rcases lossy_putObject hput with ⟨hx, -⟩ | ⟨-, rfl | rfl⟩
        · cases hx
        · exact hkey
        · exact hinsert s _ key _ hkey
      · rcases lossy_putObject hput with ⟨-, rfl⟩ | ⟨⟨e, hx⟩, -⟩
        · obtain ⟨hkeep, hall⟩ := ih (index + 1) hrest
          refine ⟨fun key hkey => hkeep key (hinsert s _ key _ hkey), fun hx other hother hne => ?_⟩
          rcases List.mem_cons.mp hother with rfl | hother
          · apply hkeep
            rw [Std.ExtTreeMap.getElem?_insert_self]
            rfl
          · exact hall hx other hother hne
        · cases hx

end Discovery

def sharedObject (draws : RecipientDraws) (recipients : List Drk1Public) : Bytes :=
  match sampleVault.sealShared sharingLibraries draws "a" [] recipients with
  | .ok object => object
  | .error _ => []

def sampleShareDraws : ShareDraws where
  grants := sampleSharedDraws.object.encaps
  discovery := sampleSharedDraws.discovery

theorem sealShared_sharedObject {draws : RecipientDraws} {recipients : List Drk1Public}
    (h : (sampleVault.sealShared sharingLibraries draws "a" [] recipients).isOk) :
    sampleVault.sealShared sharingLibraries draws "a" [] recipients =
      .ok (sharedObject draws recipients) := by
  unfold sharedObject
  cases hseal : sampleVault.sealShared sharingLibraries draws "a" [] recipients with
  | ok object => rfl
  | error e =>
    rw [hseal] at h
    cases h

end Dctl.Core
