import Dctl.Core.Put
import Dctl.Core.ReadAgree

/-! What a lookup that finds nothing says about the path, over stores that may fail. -/

namespace Dctl.Core

open ProofKit Crypto Index Object Prog

variable (L : Libraries) (v : Vault)

/-- Some name record that opens is about the path. -/
def Vault.Named (objects : Backend) (nfcPath : String) : Prop :=
  ∃ key value record, objects[key]? = some value ∧
    v.nameKeys.openRecord L.toPrimitives L.keyedHash v.vaultId key value = .ok record ∧
    record.path = nfcPath

/-- The path has a row or a name record. -/
def Vault.Recorded (s : Stores) (nfcPath : String) : Prop :=
  s.rows[nfcPath]?.isSome ∨ v.Named L s.objects nfcPath

/-- The lookup learns whether the path is recorded: the index has a row, or fails; or the backend
answers the request for the name record; or there is no name record to miss. -/
def Vault.LookupAnswered (fault : Request → Fault) (s : Stores) (nfcPath : String) : Prop :=
  s.rows[nfcPath]?.isSome ∨ fault (.indexGet nfcPath) ≠ .none ∨
    fault (.get (v.nameKey L nfcPath)) = .none ∨ ¬v.Named L s.objects nfcPath

/-- A run of `put_file` that treats the path as new: its lookup finds nothing to replace. -/
def Vault.PutsAsNew (serve : Prog.Server Stores Request Request.Answer) (draws : PutDraws)
    (nfcPath : String) (data : Bytes) (modifiedUnix : Option Int64) (s : Stores)
    (x : Except CoreError Unit) (s' : Stores) : Prop :=
  ∃ s1, Prog.Run serve (v.lookupKey L nfcPath).run s (.ok none) s1 ∧
    Prog.Run serve (v.storeFile L draws nfcPath data modifiedUnix none).run s1 x s'

variable {L v} {fault : Request → Fault} {serve : Prog.Server Stores Request Request.Answer}
  {s s' : Stores} {path nfcPath : String}

theorem Vault.Named.at_key {objects : Backend} (h : v.Named L objects nfcPath) :
    (v.namedKey L nfcPath (objects.get (v.nameKey L nfcPath))).isSome := by
  obtain ⟨key, value, record, hstored, hopen, rfl⟩ := h
  have hkey : v.nameKey L record.path = key := by
    simp only [NameKeys.openRecord, bind_eq_ok, reject_eq_ok, pure_eq_ok, ne_eq, not_not] at hopen
    obtain ⟨_, -, _, -, _, -, _, -, _, hkey, rfl⟩ := hopen
    exact hkey
  rw [hkey, Backend.get, hstored]
  simp only [okOr, namedKey, hkey, hopen, Option.isSome_some]

theorem Vault.run_lookupKey_none
    (h : Prog.Run (faulty fault) (v.lookupKey L nfcPath).run s (.ok none) s') :
    s.rows[nfcPath]? = none ∧ fault (.indexGet nfcPath) = .none ∧
      (fault (.get (v.nameKey L nfcPath)) = .none →
        v.namedKey L nfcPath (s.objects.get (v.nameKey L nfcPath)) = none) := by
  unfold lookupKey indexGet liftIndex at h
  rw [run_request_bind] at h
  obtain ⟨answer, s1, hindex, ⟨e, -, he, -⟩ | ⟨row, hrow, h⟩⟩ := h
  · cases he
  have hanswer : answer = .ok row := mapError_eq_ok.mp hrow
  unfold faulty at hindex
  cases hfault : fault (.indexGet nfcPath) with
  | before | after =>
    rw [hfault] at hindex
    obtain ⟨⟨e, he⟩, -⟩ := hindex
    rw [hanswer] at he
    cases he
  | none =>
    rw [hfault] at hindex
    obtain ⟨rfl, rfl⟩ := hindex
    cases hanswer
    cases hstored : s1.rows[nfcPath]? with
    | some record =>
      rw [hstored] at h
      cases (run_pure.mp h).1
    | none =>
      rw [hstored] at h
      refine ⟨rfl, rfl, fun hget => ?_⟩
      obtain ⟨answer, s2, hserve, h⟩ := run_query_bind.mp h
      rw [faulty, hget] at hserve
      obtain ⟨rfl, rfl⟩ := hserve
      exact (Except.ok.inj (run_pure.mp h).1).symm

theorem Vault.run_lookupKey_missed (hrow : s.rows[nfcPath]? = none)
    (hindex : fault (.indexGet nfcPath) = .none)
    (hget : fault (.get (v.nameKey L nfcPath)) ≠ .none) :
    Prog.Run (faulty fault) (v.lookupKey L nfcPath).run s (.ok none) s := by
  unfold lookupKey indexGet liftIndex
  rw [run_request_bind]
  refine ⟨.ok none, s, ?_, Or.inr ⟨none, rfl, ?_⟩⟩
  · unfold faulty
    rw [hindex]
    exact ⟨by rw [hrow], rfl⟩
  · refine run_query_bind.mpr ⟨.error (.io ""), s, ?_, run_pure.mpr ⟨rfl, rfl⟩⟩
    unfold faulty
    cases hfault : fault (.get (v.nameKey L nfcPath)) with
    | none => exact absurd hfault hget
    | before => exact ⟨⟨_, rfl, rfl⟩, rfl⟩
    | after => exact ⟨⟨_, rfl, rfl⟩, _, rfl, rfl⟩

theorem Vault.run_deleteFile (hpath : Path.normalize L.toUnicode path = .ok nfcPath)
    {x : Except CoreError Bool} :
    Prog.Run serve (v.deleteFile L path).run s x s' ↔
      (∃ e, Prog.Run serve (v.lookupKey L nfcPath).run s (.error e) s' ∧ x = .error e) ∨
        ∃ found s1, Prog.Run serve (v.lookupKey L nfcPath).run s (.ok found) s1 ∧
          Prog.Run serve (v.removeFile L nfcPath found).run s1 x s' := by
  unfold deleteFile liftCrypto
  rw [hpath, ofCrypto, Except.mapError, run_ofExcept_ok_bind, run_fallible_bind]

theorem Vault.run_deleteFile_false (hpath : Path.normalize L.toUnicode path = .ok nfcPath) :
    Prog.Run (faulty fault) (v.deleteFile L path).run s (.ok false) s' ↔
      Prog.Run (faulty fault) (v.lookupKey L nfcPath).run s (.ok none) s' := by
  rw [run_deleteFile hpath]
  constructor
  · intro h
    rcases h with ⟨e, -, he⟩ | ⟨found, s1, hlookup, h⟩
    · cases he
    cases found with
    | none =>
      obtain ⟨-, rfl⟩ := run_pure.mp h
      exact hlookup
    | some objectKey =>
      obtain ⟨_, s2, -, h⟩ := run_bind_ok.mp h
      obtain ⟨_, s3, -, h⟩ := run_bind_ok.mp h
      obtain ⟨_, s4, -, h⟩ := run_bind_ok.mp h
      cases (run_pure.mp h).1
  · intro h
    exact Or.inr ⟨none, s', h, run_pure.mpr ⟨rfl, rfl⟩⟩

theorem Vault.not_recorded_of_lookup (hanswered : v.LookupAnswered L fault s nfcPath)
    (h : Prog.Run (faulty fault) (v.lookupKey L nfcPath).run s (.ok none) s') :
    ¬v.Recorded L s nfcPath := by
  obtain ⟨hrow, hindex, hname⟩ := run_lookupKey_none h
  have hunnamed : ¬v.Named L s.objects nfcPath := by
    intro hnamed
    rcases hanswered with hsome | hfails | hget | hnot
    · rw [hrow] at hsome
      cases hsome
    · exact hfails hindex
    · have hsome := hnamed.at_key
      rw [hname hget] at hsome
      cases hsome
    · exact hnot hnamed
  intro hrecorded
  rcases hrecorded with hsome | hnamed
  · rw [hrow] at hsome
    cases hsome
  · exact hunnamed hnamed

/-- `delete_file` reports an absent file, and `put_file` treats a path as new, only when the path is
recorded nowhere, exactly if the lookup is answered.  The failure of the backend to answer for the
name record counts as absence. -/
theorem Vault.absence_is_real_iff (L : Libraries) (v : Vault) (fault : Request → Fault) (s : Stores)
    {path nfcPath : String} (hpath : Path.normalize L.toUnicode path = .ok nfcPath)
    (draws : PutDraws) (data : Bytes) (modifiedUnix : Option Int64) :
    ((∀ s', Prog.Run (faulty fault) (v.deleteFile L path).run s (.ok false) s' →
        ¬v.Recorded L s nfcPath) ∧
      ∀ x s', v.PutsAsNew L (faulty fault) draws nfcPath data modifiedUnix s x s' →
        ¬v.Recorded L s nfcPath) ↔
      v.LookupAnswered L fault s nfcPath := by
  constructor
  · intro h
    by_contra hanswered
    simp only [LookupAnswered, not_or, not_not, Option.not_isSome_iff_eq_none] at hanswered
    obtain ⟨hrow, hindex, hget, hnamed⟩ := hanswered
    have hrun := run_lookupKey_missed hrow hindex hget
    exact h.1 s ((run_deleteFile_false hpath).mpr hrun) (Or.inr hnamed)
  · intro hanswered
    constructor
    · intro s' hrun
      exact not_recorded_of_lookup hanswered ((run_deleteFile_false hpath).mp hrun)
    · intro x s' hnew
      obtain ⟨s1, hlookup, -⟩ := hnew
      exact not_recorded_of_lookup hanswered hlookup

def sampleNameValue : Bytes :=
  match sampleVault.nameKeys.sealRecord clearPrimitives clearLibraries.keyedHash sampleVault.vaultId
    default "a" default 0 with
  | .ok (_, value) => value
  | .error _ => []

def namedStores : Stores where
  objects := (∅ : Backend).insert (sampleVault.nameKey clearLibraries "a") sampleNameValue
  rows := ∅

/-- Only the request for the name record of the path `a` fails. -/
def nameFault : Request → Fault
  | .get key => if key = sampleVault.nameKey clearLibraries "a" then .before else .none
  | _ => .none

theorem normalize_a : Path.normalize clearLibraries.toUnicode "a" = .ok "a" := by decide

theorem openRecord_sampleNameValue :
    sampleVault.nameKeys.openRecord clearPrimitives clearLibraries.keyedHash sampleVault.vaultId
        (sampleVault.nameKey clearLibraries "a") sampleNameValue =
      .ok { fileId := default, metadataGen := 0, path := "a" } := by
  have hlen : (utf8 "a").length ≤ 65535 := by decide
  obtain ⟨value, hvalue⟩ := @NameKeys.sealRecord_isOk clearPrimitives clearLibraries.keyedHash
    clearPrimitives_lawful sampleVault.nameKeys sampleVault.vaultId default "a" hlen default 0
  have hsample : sampleNameValue = value := by
    unfold sampleNameValue
    rw [hvalue]
  rw [hsample]
  exact NameKeys.openRecord_sealRecord clearPrimitives_lawful hvalue

theorem namedStores_named : sampleVault.Named clearLibraries namedStores.objects "a" :=
  ⟨_, _, _, Std.ExtTreeMap.getElem?_insert_self, openRecord_sampleNameValue, rfl⟩

theorem Vault.absence_is_real_of_row :
    (∀ s', Prog.Run (faulty fun _ => .none) (sampleVault.deleteFile clearLibraries "a").run
        namedStores (.ok false) s' → ¬sampleVault.Recorded clearLibraries namedStores "a") ∧
      ∀ x s', sampleVault.PutsAsNew clearLibraries (faulty fun _ => .none)
        ⟨⟨default, default, default, default, default⟩, default⟩ "a" [] none namedStores x s' →
        ¬sampleVault.Recorded clearLibraries namedStores "a" :=
  (Vault.absence_is_real_iff clearLibraries sampleVault (fun _ => .none) namedStores normalize_a
    ⟨⟨default, default, default, default, default⟩, default⟩ [] none).mpr
      (Or.inr (Or.inr (Or.inl rfl)))

/-- A device without an index, whose backend fails to answer for the name record, is told that the
file is not there. -/
theorem Vault.deleteFile_misses_recorded_file :
    ∃ s', Prog.Run (faulty nameFault) (sampleVault.deleteFile clearLibraries "a").run namedStores
        (.ok false) s' ∧ sampleVault.Recorded clearLibraries namedStores "a" := by
  have hget : nameFault (.get (sampleVault.nameKey clearLibraries "a")) ≠ .none := by
    rw [nameFault, if_pos rfl]
    decide
  have hrow : namedStores.rows["a"]? = none := by simp [namedStores]
  exact ⟨namedStores, (run_deleteFile_false normalize_a).mpr (run_lookupKey_missed hrow rfl hget),
    Or.inr namedStores_named⟩

end Dctl.Core
