import Dctl.Core.Stored
import Dctl.Core.Lookup

/-! A put that fails: what the failure leaves of the files of the vault, over stores of which every
request may fail before or after it took effect. -/

namespace Dctl.Core

open ProofKit Crypto Index Object Prog

variable (L : Libraries) (v : Vault)

/-- The row of the path leads to these bytes. -/
def Vault.ReadsByRow (s : Stores) (nfcPath : String) (bytes : Bytes) : Prop :=
  ∃ row, s.rows[nfcPath]? = some row ∧ v.readObject L s.view row.objectKey nfcPath = .ok bytes

/-- The name record of the path leads to these bytes. -/
def Vault.ReadsByName (s : Stores) (nfcPath : String) (bytes : Bytes) : Prop :=
  ∃ value record, s.objects[v.nameKey L nfcPath]? = some value ∧
    v.nameKeys.openRecord L.toPrimitives L.keyedHash v.vaultId (v.nameKey L nfcPath) value =
      .ok record ∧
    record.path = nfcPath ∧ v.readObject L s.view (objectKeyOf record.fileId) nfcPath = .ok bytes

/-- What the path led to, by its row and by its name record, it still leads to. -/
def Vault.KeepsPath (s s' : Stores) (nfcPath : String) : Prop :=
  ∀ bytes, (v.ReadsByRow L s nfcPath bytes → v.ReadsByRow L s' nfcPath bytes) ∧
    (v.ReadsByName L s nfcPath bytes → v.ReadsByName L s' nfcPath bytes)

/-- Every path keeps what it led to. -/
def Vault.KeepsFiles (s s' : Stores) : Prop := ∀ nfcPath, v.KeepsPath L s s' nfcPath

/-- Nothing fails before the put writes the name record `value` under `key`. -/
structure Vault.ReachesName (fault : Request → Fault) (nonce : Nonce) (fileId : FileId)
    (object : Bytes) (record : Record) (key : String) (value : Bytes) : Prop where
  lookup : fault (.indexGet record.path) = .none
  object : fault (.put record.objectKey object) = .none
  sealed : v.nameKeys.sealRecord L.toPrimitives L.keyedHash v.vaultId nonce record.path fileId 0 =
    .ok (key, value)

/-- The first failure comes after the write of the name record took effect, and not after the commit
of the row is done. -/
def Vault.FailsPastName (fault : Request → Fault) (nonce : Nonce) (fileId : FileId) (object : Bytes)
    (record : Record) : Prop :=
  ∃ key value, v.ReachesName L fault nonce fileId object record key value ∧
    (fault (.put key value) = .after ∨
      fault (.put key value) = .none ∧ fault (.indexPut record) ≠ .none)

/-- The commit of the row takes effect and is reported as a failure. -/
def Vault.FailsPastRow (fault : Request → Fault) (nonce : Nonce) (fileId : FileId) (object : Bytes)
    (record : Record) : Prop :=
  ∃ key value, v.ReachesName L fault nonce fileId object record key value ∧
    fault (.put key value) = .none ∧ fault (.indexPut record) = .after

/-- A failure past the name record, or past the row, finds nothing but `data` to replace there. -/
def Vault.ReplacesNothing (fault : Request → Fault) (s : Stores) (nonce : Nonce) (fileId : FileId)
    (object : Bytes) (record : Record) (data : Bytes) : Prop :=
  (v.FailsPastName L fault nonce fileId object record →
      ∀ bytes, v.ReadsByName L s record.path bytes → bytes = data) ∧
    (v.FailsPastRow L fault nonce fileId object record →
      ∀ bytes, v.ReadsByRow L s record.path bytes → bytes = data)

variable {L v} {fault : Request → Fault} {s s' : Stores} {nfcPath : String}

theorem Vault.ReadsByRow.unique {a b : Bytes} (ha : v.ReadsByRow L s nfcPath a)
    (hb : v.ReadsByRow L s nfcPath b) : a = b := by
  obtain ⟨row, hrow, ha⟩ := ha
  obtain ⟨row', hrow', hb⟩ := hb
  rw [hrow] at hrow'
  cases hrow'
  rw [ha] at hb
  exact Except.ok.inj hb

theorem Vault.ReadsByName.unique {a b : Bytes} (ha : v.ReadsByName L s nfcPath a)
    (hb : v.ReadsByName L s nfcPath b) : a = b := by
  obtain ⟨value, record, hvalue, hopen, -, ha⟩ := ha
  obtain ⟨value', record', hvalue', hopen', -, hb⟩ := hb
  rw [hvalue] at hvalue'
  cases hvalue'
  rw [hopen] at hopen'
  cases hopen'
  rw [ha] at hb
  exact Except.ok.inj hb

theorem Vault.KeepsFiles.refl (s : Stores) : v.KeepsFiles L s s :=
  fun _ _ => ⟨id, id⟩

variable {bytes : Bytes} {path : String}

theorem Vault.ne_of_readObject {key objectKey : String} (hfresh : s.objects[key]? = none)
    (h : v.readObject L s.view objectKey path = .ok bytes) : key ≠ objectKey := by
  intro heq
  obtain ⟨⟨object, hobject⟩, -⟩ := named_of_readObject h
  rw [← heq] at hobject
  simp only [Stores.view, Backend.view, Backend.get, hfresh, okOr] at hobject
  cases hobject

theorem Vault.nameKey_ne_of_readObject {objectKey : String}
    (h : v.readObject L s.view objectKey path = .ok bytes) : v.nameKey L nfcPath ≠ objectKey := by
  obtain ⟨-, fileId, hnamed⟩ := named_of_readObject h
  exact nameKey_ne_of_named hnamed

theorem Vault.keepsFiles_object {fileId : FileId} {object : Bytes}
    (hfresh : s.objects[objectKeyOf fileId]? = none) :
    v.KeepsFiles L s { s with objects := s.objects.insert (objectKeyOf fileId) object } := by
  intro nfcPath bytes
  constructor
  · intro h
    obtain ⟨row, hrow, hread⟩ := h
    refine ⟨row, hrow, ?_⟩
    rw [readObject_insert (ne_of_readObject hfresh hread) (objectKeyOf_ne_grantKeyOf fileId)]
    exact hread
  · intro h
    obtain ⟨value, record, hvalue, hopen, hpath, hread⟩ := h
    refine ⟨value, record, ?_, hopen, hpath, ?_⟩
    · rw [Backend.getElem?_insert_of_ne (nameKey_ne_objectKeyOf nfcPath fileId).symm]
      exact hvalue
    · rw [readObject_insert (ne_of_readObject hfresh hread) (objectKeyOf_ne_grantKeyOf fileId)]
      exact hread

theorem Vault.ReadsByRow.insert_name {written : String} {value : Bytes}
    (h : v.ReadsByRow L s nfcPath bytes) :
    v.ReadsByRow L { s with objects := s.objects.insert (v.nameKey L written) value }
      nfcPath bytes := by
  obtain ⟨row, hrow, hread⟩ := h
  refine ⟨row, hrow, ?_⟩
  rw [readObject_insert (nameKey_ne_of_readObject hread) (nameKey_ne_grantKeyOf written)]
  exact hread

theorem Vault.ReadsByName.insert_name {written : String} {value : Bytes}
    (h : v.ReadsByName L s nfcPath bytes) (hkey : v.nameKey L written ≠ v.nameKey L nfcPath) :
    v.ReadsByName L { s with objects := s.objects.insert (v.nameKey L written) value } nfcPath
      bytes := by
  obtain ⟨stored, record, hstored, hopen, hpath, hread⟩ := h
  refine ⟨stored, record, ?_, hopen, hpath, ?_⟩
  · rw [Backend.getElem?_insert_of_ne hkey]
    exact hstored
  · rw [readObject_insert (nameKey_ne_of_readObject hread) (nameKey_ne_grantKeyOf written)]
    exact hread

variable {record : Record}

theorem Vault.ReadsByRow.insert_row (h : v.ReadsByRow L s nfcPath bytes)
    (hpath : record.path ≠ nfcPath) :
    v.ReadsByRow L { s with rows := s.rows.insert record.path record } nfcPath bytes := by
  obtain ⟨row, hrow, hread⟩ := h
  refine ⟨row, ?_, hread⟩
  rw [Std.ExtTreeMap.getElem?_insert, if_neg (by simpa using hpath)]
  exact hrow

/-- What a put writes: the object reads as `data` under its key, which is not in use, the row is
about it, and no other file shares the key of the name record. -/
structure Vault.Writes (L : Libraries) (v : Vault) (s : Stores) (nonce : Nonce) (fileId : FileId)
    (object : Bytes) (record : Record) (data : Bytes) : Prop where
  lawful : L.toPrimitives.Lawful
  fresh : s.objects[objectKeyOf fileId]? = none
  objectKey : record.objectKey = objectKeyOf fileId
  reads : ∀ view path, view.get (objectKeyOf fileId) = .ok object →
    v.readObject L view (objectKeyOf fileId) path = .ok data
  alone : ∀ nfcPath bytes, v.ReadsByName L s nfcPath bytes →
    v.nameKey L nfcPath = v.nameKey L record.path → nfcPath = record.path

namespace Vault.Writes

variable {nonce : Nonce} {fileId : FileId} {object data : Bytes} {record : Record}

variable (h : v.Writes L s nonce fileId object record data)
include h

theorem readObject_withObject (path : String) :
    v.readObject L (s.withObject fileId object).view (objectKeyOf fileId) path = .ok data := by
  apply h.reads
  simp only [Stores.view, Backend.view, Backend.get, Stores.withObject,
    Std.ExtTreeMap.getElem?_insert_self, okOr]

variable {key : String} {value : Bytes}
  (hsealed : v.nameKeys.sealRecord L.toPrimitives L.keyedHash v.vaultId nonce record.path fileId 0 =
    .ok (key, value))
include hsealed

theorem readObject_withName (path : String) :
    v.readObject L (s.withName fileId object key value).view (objectKeyOf fileId) path =
      .ok data := by
  rw [Stores.withName, nameKey_of_sealRecord hsealed,
    readObject_insert (nameKey_ne_objectKeyOf _ fileId)
    (nameKey_ne_grantKeyOf _)]
  exact h.readObject_withObject path

theorem readsByName_withName :
    v.ReadsByName L (s.withName fileId object key value) record.path data := by
  have hopen := NameKeys.openRecord_sealRecord h.lawful hsealed
  have hread := h.readObject_withName hsealed record.path
  rw [nameKey_of_sealRecord hsealed] at hopen hread ⊢
  exact ⟨value, _, Std.ExtTreeMap.getElem?_insert_self, hopen, rfl, hread⟩

theorem keepsFiles_withName (hsame : ∀ bytes, v.ReadsByName L s record.path bytes → bytes = data) :
    v.KeepsFiles L s (s.withName fileId object key value) := by
  have hkeeps := @keepsFiles_object L v s fileId object h.fresh
  intro nfcPath bytes
  constructor
  · intro hrow
    rw [Stores.withName, nameKey_of_sealRecord hsealed]
    exact ((hkeeps nfcPath bytes).1 hrow).insert_name
  · intro hname
    by_cases hpath : nfcPath = record.path
    · subst hpath
      rw [hsame bytes hname]
      exact h.readsByName_withName hsealed
    · rw [Stores.withName, nameKey_of_sealRecord hsealed]
      refine ((hkeeps nfcPath bytes).2 hname).insert_name ?_
      intro hkey
      exact hpath (h.alone nfcPath bytes hname hkey.symm)

theorem readsByRow_withRow :
    v.ReadsByRow L (s.withRow fileId object key value record) record.path data := by
  refine ⟨record, Std.ExtTreeMap.getElem?_insert_self, ?_⟩
  rw [h.objectKey]
  exact h.readObject_withName hsealed record.path

theorem keepsFiles_withRow (hname : ∀ bytes, v.ReadsByName L s record.path bytes → bytes = data)
    (hrow : ∀ bytes, v.ReadsByRow L s record.path bytes → bytes = data) :
    v.KeepsFiles L s (s.withRow fileId object key value record) := by
  have hkeeps := h.keepsFiles_withName hsealed hname
  intro nfcPath bytes
  constructor
  · intro hread
    by_cases hpath : nfcPath = record.path
    · subst hpath
      rw [hrow bytes hread]
      exact h.readsByRow_withRow hsealed
    · exact ((hkeeps nfcPath bytes).1 hread).insert_row (Ne.symm hpath)
  · exact (hkeeps nfcPath bytes).2

omit h hsealed in
/-- What a failed run of the three writes leaves: one more object at most, or the new name record,
or the new row as well, each where the faults say so. -/
theorem run_storeSealed_error (hkey : record.objectKey = objectKeyOf fileId)
    (hlookup : fault (.indexGet record.path) = .none) {e : CoreError}
    (hrun :
      Prog.Run (faulty fault) (v.storeSealed L nonce fileId object record).run s (.error e) s') :
    s' = s ∨ s' = s.withObject fileId object ∨
      ∃ key value, v.ReachesName L fault nonce fileId object record key value ∧
        ((fault (.put key value) = .after ∨
            fault (.put key value) = .none ∧ fault (.indexPut record) = .before) ∧
          s' = s.withName fileId object key value ∨
        (fault (.put key value) = .none ∧ fault (.indexPut record) = .after) ∧
          s' = s.withRow fileId object key value record) := by
  unfold storeSealed liftCrypto at hrun
  rw [faulty_putObject_bind] at hrun
  cases hobject : fault (.put record.objectKey object) with
  | before =>
    rw [hobject] at hrun
    exact Or.inl hrun.2
  | after =>
    rw [hobject, hkey] at hrun
    exact Or.inr (Or.inl hrun.2)
  | none =>
    rw [hobject] at hrun
    rcases run_ofExcept_bind.mp hrun with ⟨_, -, -, rfl⟩ | ⟨⟨key, value⟩, hsealed, hrun⟩
    · rw [hkey]
      exact Or.inr (Or.inl rfl)
    rw [hkey] at hrun
    have hreaches : v.ReachesName L fault nonce fileId object record key value :=
      ⟨hlookup, hobject, ofCrypto_eq_ok.mp hsealed⟩
    rw [faulty_putObject_bind] at hrun
    cases hname : fault (.put key value) with
    | before =>
      rw [hname] at hrun
      exact Or.inr (Or.inl hrun.2)
    | after =>
      rw [hname] at hrun
      exact Or.inr (Or.inr ⟨key, value, hreaches, Or.inl ⟨Or.inl hname, hrun.2⟩⟩)
    | none =>
      rw [hname] at hrun
      rw [faulty_indexPut] at hrun
      cases hrow : fault (.indexPut record) with
      | none =>
        rw [hrow] at hrun
        cases hrun.1
      | before =>
        rw [hrow] at hrun
        exact Or.inr (Or.inr ⟨key, value, hreaches, Or.inl ⟨Or.inr ⟨hname, rfl⟩, hrun.2⟩⟩)
      | after =>
        rw [hrow] at hrun
        exact Or.inr (Or.inr ⟨key, value, hreaches, Or.inr ⟨⟨hname, rfl⟩, hrun.2⟩⟩)

end Vault.Writes

section Late

variable {nonce : Nonce} {fileId : FileId} {object value : Bytes} {record : Record} {key : String}

theorem Vault.ReachesName.run_storeSealed
    (h : v.ReachesName L fault nonce fileId object record key value)
    (hkey : record.objectKey = objectKeyOf fileId) {x : Except CoreError Unit} :
    Prog.Run (faulty fault) (v.storeSealed L nonce fileId object record).run s x s' ↔
      Prog.Run (faulty fault) (putObject key value >>= fun _ => indexPut record).run
        (s.withObject fileId object) x s' := by
  unfold storeSealed liftCrypto
  rw [faulty_putObject_bind, h.object, h.sealed, hkey]
  exact run_ofExcept_ok_bind

theorem Vault.FailsPastName.exists_run (h : v.FailsPastName L fault nonce fileId object record)
    (hkey : record.objectKey = objectKeyOf fileId) (s : Stores) : ∃ e s' key value,
      Prog.Run (faulty fault) (v.storeSealed L nonce fileId object record).run s (.error e) s' ∧
        v.nameKeys.sealRecord L.toPrimitives L.keyedHash v.vaultId nonce record.path fileId 0 =
          .ok (key, value) ∧
        s'.objects = (s.withName fileId object key value).objects := by
  obtain ⟨key, value, hreaches, hfault⟩ := h
  simp only [hreaches.run_storeSealed hkey, faulty_putObject_bind, faulty_indexPut]
  rcases hfault with hname | ⟨hname, hrow⟩
  · refine ⟨.store (.io ""), _, key, value, ?_, hreaches.sealed, rfl⟩
    rw [hname]
    exact ⟨⟨_, rfl, rfl⟩, rfl⟩
  · cases hindex : fault (.indexPut record) with
    | none => exact absurd hindex hrow
    | before =>
      refine ⟨.index (.db ""), _, key, value, ?_, hreaches.sealed, rfl⟩
      rw [hname]
      exact ⟨⟨_, rfl⟩, rfl⟩
    | after =>
      refine ⟨.index (.db ""), s.withRow fileId object key value record, key, value, ?_,
        hreaches.sealed, rfl⟩
      rw [hname]
      exact ⟨⟨_, rfl⟩, rfl⟩

theorem Vault.FailsPastRow.exists_run (h : v.FailsPastRow L fault nonce fileId object record)
    (hkey : record.objectKey = objectKeyOf fileId) (s : Stores) : ∃ e key value,
      Prog.Run (faulty fault) (v.storeSealed L nonce fileId object record).run s (.error e)
          (s.withRow fileId object key value record) ∧
        v.nameKeys.sealRecord L.toPrimitives L.keyedHash v.vaultId nonce record.path fileId 0 =
          .ok (key, value) := by
  obtain ⟨key, value, hreaches, hname, hrow⟩ := h
  refine ⟨.index (.db ""), key, value, ?_, hreaches.sealed⟩
  rw [hreaches.run_storeSealed hkey, faulty_putObject_bind, hname, faulty_indexPut, hrow]
  exact ⟨⟨_, rfl⟩, rfl⟩

end Late

theorem Vault.Writes.exists_run_readsByName {nonce : Nonce} {fileId : FileId} {object data : Bytes}
    {record : Record} (h : v.Writes L s nonce fileId object record data)
    (hpast : v.FailsPastName L fault nonce fileId object record) : ∃ e s',
      Prog.Run (faulty fault) (v.storeSealed L nonce fileId object record).run s (.error e) s' ∧
        v.ReadsByName L s' record.path data := by
  obtain ⟨e, s', key, value, hrun, hsealed, hobjects⟩ := hpast.exists_run h.objectKey s
  obtain ⟨stored, r, hstored, hopen, hpath, hread⟩ := h.readsByName_withName hsealed
  refine ⟨e, s', hrun, stored, r, by rw [hobjects]; exact hstored, hopen, hpath, ?_⟩
  rw [← hread]
  apply readObject_congr
  · exact congrArg (Backend.get · _) hobjects
  · intro fileId
    exact congrArg (Backend.get · _) hobjects

variable {data object : Bytes}

/-- A failed run of the three writes keeps every file, exactly if a failure past the name record, or
past the row, finds nothing to replace there. -/
theorem Vault.Writes.keepsFiles_iff {nonce : Nonce} {fileId : FileId}
    (h : v.Writes L s nonce fileId object record data)
    (hlookup : fault (.indexGet record.path) = .none) :
    (∀ e s', Prog.Run (faulty fault) (v.storeSealed L nonce fileId object record).run s
      (.error e) s' →
        v.KeepsFiles L s s') ↔
      v.ReplacesNothing L fault s nonce fileId object record data := by
  constructor
  · intro hkeeps
    constructor
    · intro hpast bytes hread
      obtain ⟨e, s', hrun, hnew⟩ := h.exists_run_readsByName hpast
      have hafter := (hkeeps e s' hrun record.path bytes).2 hread
      exact hafter.unique hnew
    · intro hpast bytes hread
      obtain ⟨e, key, value, hrun, hsealed⟩ := hpast.exists_run h.objectKey s
      have hafter := (hkeeps e _ hrun record.path bytes).1 hread
      exact hafter.unique (h.readsByRow_withRow hsealed)
  · intro hreplaces e s' hrun
    rcases run_storeSealed_error h.objectKey hlookup hrun with rfl | rfl | hlate
    · exact KeepsFiles.refl s'
    · exact keepsFiles_object h.fresh
    obtain ⟨key, value, hreaches, ⟨hname, rfl⟩ | ⟨⟨hname, hrow⟩, rfl⟩⟩ := hlate
    · refine h.keepsFiles_withName hreaches.sealed (hreplaces.1 ⟨key, value, hreaches, ?_⟩)
      rcases hname with hname | ⟨hname, hrow⟩
      · exact Or.inl hname
      · refine Or.inr ⟨hname, ?_⟩
        rw [hrow]
        decide
    · refine h.keepsFiles_withRow hreaches.sealed
        (hreplaces.1 ⟨key, value, hreaches, Or.inr ⟨hname, ?_⟩⟩)
        (hreplaces.2 ⟨key, value, hreaches, hname, hrow⟩)
      rw [hrow]
      decide

theorem Vault.ReplacesNothing.of_lookup {nonce : Nonce} {fileId : FileId}
    (hindex : fault (.indexGet record.path) ≠ .none) :
    v.ReplacesNothing L fault s nonce fileId object record data := by
  constructor
  · intro hpast
    obtain ⟨_, _, hreaches, -⟩ := hpast
    exact absurd hreaches.lookup hindex
  · intro hpast
    obtain ⟨_, _, hreaches, -⟩ := hpast
    exact absurd hreaches.lookup hindex

theorem Vault.run_lookupKey_faulty {x : Except CoreError (Option String)}
    (h : Prog.Run (faulty fault) (v.lookupKey L nfcPath).run s x s') :
    s' = s ∧ (fault (.indexGet nfcPath) = .none ↔ ∃ found, x = .ok found) := by
  unfold lookupKey indexGet liftIndex at h
  rw [run_request_bind] at h
  obtain ⟨answer, s1, hindex, h⟩ := h
  unfold faulty at hindex
  cases hfault : fault (.indexGet nfcPath) with
  | before =>
    rw [hfault] at hindex
    obtain ⟨⟨e, rfl⟩, rfl⟩ := hindex
    rcases h with ⟨_, -, rfl, rfl⟩ | ⟨_, hok, -⟩
    · simp
    · cases hok
  | after =>
    rw [hfault] at hindex
    obtain ⟨⟨e, rfl⟩, _, -, rfl⟩ := hindex
    rcases h with ⟨_, -, rfl, rfl⟩ | ⟨_, hok, -⟩
    · simp
    · cases hok
  | none =>
    rw [hfault] at hindex
    obtain ⟨rfl, rfl⟩ := hindex
    rcases h with ⟨_, herror, -⟩ | ⟨row, hok, h⟩
    · cases herror
    cases row with
    | some record =>
      obtain ⟨rfl, rfl⟩ := run_pure.mp h
      simp
    | none =>
      obtain ⟨answer, s2, hserve, h⟩ := run_query_bind.mp h
      obtain ⟨rfl, rfl⟩ := run_pure.mp h
      have hs : s2 = s1 := by
        unfold faulty at hserve
        cases hget : fault (.get (v.nameKey L nfcPath)) with
        | none =>
          rw [hget] at hserve
          exact hserve.2
        | before =>
          rw [hget] at hserve
          exact hserve.2
        | after =>
          rw [hget] at hserve
          obtain ⟨-, _, -, hs⟩ := hserve
          exact hs
      simp [hs]

theorem Vault.exists_run_lookupKey (hindex : fault (.indexGet nfcPath) = .none) :
    ∃ found, Prog.Run (faulty fault) (v.lookupKey L nfcPath).run s (.ok found) s := by
  cases hrow : s.rows[nfcPath]? with
  | none =>
    by_cases hget : fault (.get (v.nameKey L nfcPath)) = .none
    · refine ⟨v.namedKey L nfcPath (s.objects.get (v.nameKey L nfcPath)), ?_⟩
      unfold lookupKey indexGet liftIndex
      rw [run_request_bind]
      refine ⟨.ok none, s, ?_, Or.inr ⟨none, rfl, ?_⟩⟩
      · unfold faulty
        rw [hindex]
        exact ⟨by rw [hrow], rfl⟩
      · refine run_query_bind.mpr ⟨s.objects.get (v.nameKey L nfcPath), s, ?_,
          run_pure.mpr ⟨rfl, rfl⟩⟩
        unfold faulty
        rw [hget]
        exact ⟨rfl, rfl⟩
    · exact ⟨none, run_lookupKey_missed hrow hindex hget⟩
  | some record =>
    refine ⟨some record.objectKey, ?_⟩
    unfold lookupKey indexGet liftIndex
    rw [run_request_bind]
    refine ⟨.ok (some record), s, ?_, Or.inr ⟨some record, rfl, run_pure.mpr ⟨rfl, rfl⟩⟩⟩
    unfold faulty
    rw [hindex]
    exact ⟨by rw [hrow], rfl⟩

variable {previous : Option String}

theorem Vault.run_gcSupersededObject {serve : Prog.Server Stores Request Request.Answer}
    {current : String} {x : Except CoreError Unit}
    (h : Prog.Run serve (gcSupersededObject previous current).run s x s') : x = .ok () := by
  unfold gcSupersededObject at h
  cases previous with
  | none => exact (run_pure.mp h).1
  | some old =>
    dsimp only at h
    by_cases hold : old = current
    · rw [if_pos hold] at h
      exact (run_pure.mp h).1
    · rw [if_neg hold] at h
      obtain ⟨_, _, -, h⟩ := run_query_bind.mp h
      exact (run_pure.mp h).1

variable {modifiedUnix : Option Int64} {draws : PutDraws}

theorem Vault.writes_of_sealFile (hP : L.toPrimitives.Lawful) (hlen : data.length < 2 ^ 64)
    (hfresh : s.objects[objectKeyOf draws.object.fileId]? = none)
    (halone : ∀ other bytes, v.ReadsByName L s other bytes →
      v.nameKey L other = v.nameKey L nfcPath → other = nfcPath)
    (hsealed : v.sealFile L draws.object nfcPath data modifiedUnix = .ok object) :
    v.Writes L s draws.name draws.object.fileId object
      (bufferedRow L nfcPath draws.object.fileId data modifiedUnix) data where
  lawful := hP
  fresh := hfresh
  objectKey := rfl
  reads _ _ hget := readObject_sealFile hP hlen hsealed hget
  alone := halone

variable {e : CoreError}

/-- What is sealed is stored by the three writes, and what comes after them reports no error. -/
theorem Vault.run_sealed_error {α β : Type} {sealing : Except CoreError β} {nonce : Nonce}
    {fileId : FileId} {object : β → Bytes} {store : β → VaultM α}
    (hstore : ∀ b, sealing = .ok b → ∃ tail,
      store b = v.storeSealed L nonce fileId (object b) record >>= tail ∧
        ∀ u s1 e s2, ¬Prog.Run (faulty fault) (tail u).run s1 (.error e) s2) :
    Prog.Run (faulty fault) (Prog.ofExcept sealing >>= store).run s (.error e) s' ↔
      (sealing = .error e ∧ s = s') ∨ ∃ b, sealing = .ok b ∧
        Prog.Run (faulty fault) (v.storeSealed L nonce fileId (object b) record).run s (.error e)
          s' := by
  rw [run_ofExcept_bind]
  refine or_congr ?_ (exists_congr fun b => and_congr_right fun hsealed => ?_)
  · constructor
    · rintro ⟨_, hsealed, he, rfl⟩
      cases he
      exact ⟨hsealed, rfl⟩
    · rintro ⟨hsealed, rfl⟩
      exact ⟨e, hsealed, rfl, rfl⟩
  · obtain ⟨tail, hstored, htail⟩ := hstore b hsealed
    rw [hstored, run_bind_error htail]

theorem Vault.run_storeFile_error (hP : L.toPrimitives.Lawful) (hlen : data.length < 2 ^ 64) :
    Prog.Run (faulty fault) (v.storeFile L draws nfcPath data modifiedUnix previous).run s
      (.error e)
        s' ↔
      (v.sealFile L draws.object nfcPath data modifiedUnix = .error e ∧ s = s') ∨
        ∃ object, v.sealFile L draws.object nfcPath data modifiedUnix = .ok object ∧
          Prog.Run (faulty fault) (v.storeSealed L draws.name draws.object.fileId object
            (bufferedRow L nfcPath draws.object.fileId data modifiedUnix)).run s (.error e) s' := by
  refine run_sealed_error fun object hsealed =>
    ⟨fun _ => gcSupersededObject previous (objectKeyOf draws.object.fileId), ?_,
      fun _ _ _ _ hgc => ?_⟩
  · dsimp only
    rw [fileId_of_sealFile hP hlen hsealed]
  · cases run_gcSupersededObject hgc

theorem Vault.run_storeSource_error {grants : List Nat} {plaintextLen : UInt64}
    (hP : L.toPrimitives.Lawful) (hlen : data.length < 2 ^ 64) :
    Prog.Run (faulty fault) (v.storeSource L draws nfcPath (Source.of data grants) plaintextLen
        modifiedUnix previous).run s (.error e) s' ↔
      (v.sealSource L draws.object nfcPath (Source.of data grants) plaintextLen modifiedUnix =
          .error e ∧ s = s') ∨
        ∃ sealed, v.sealSource L draws.object nfcPath (Source.of data grants) plaintextLen
            modifiedUnix = .ok sealed ∧
          Prog.Run (faulty fault) (v.storeSealed L draws.name draws.object.fileId sealed.2
            (bufferedRow L nfcPath draws.object.fileId data modifiedUnix)).run s (.error e) s' := by
  refine run_sealed_error fun sealed hsealed => ⟨fun _ => do
    gcSupersededObject previous (objectKeyOf sealed.1.fileId)
    pure ⟨sealed.1.plaintextLen.toNat, sealed.1.contentBlake3⟩, ?_, fun _ _ _ _ h => ?_⟩
  · obtain ⟨-, hid, hrow⟩ := sealSource_eq_ok hP hlen hsealed
    dsimp only
    rw [hrow, hid]
  · rcases run_fallible_bind.mp h with ⟨_, hgc, -⟩ | ⟨_, _, -, hpure⟩
    · cases run_gcSupersededObject hgc
    · cases (run_pure.mp hpure).1

theorem Vault.run_put_error {α : Type} {store : String → Option String → VaultM α} :
    Prog.Run (faulty fault) (do
        let nfcPath ← liftCrypto (Path.normalize L.toUnicode path)
        let previous ← v.lookupKey L nfcPath
        store nfcPath previous).run s (.error e) s' →
      s' = s ∨ ∃ nfcPath previous, Path.normalize L.toUnicode path = .ok nfcPath ∧
        fault (.indexGet nfcPath) = .none ∧
        Prog.Run (faulty fault) (store nfcPath previous).run s (.error e) s' := by
  intro h
  unfold liftCrypto at h
  rcases run_ofExcept_bind.mp h with ⟨_, -, -, rfl⟩ | ⟨nfcPath, hpath, h⟩
  · exact Or.inl rfl
  rcases run_fallible_bind.mp h with ⟨_, hlookup, -⟩ | ⟨previous, s1, hlookup, hstore⟩
  · exact Or.inl (run_lookupKey_faulty hlookup).1
  · obtain ⟨rfl, hindex⟩ := run_lookupKey_faulty hlookup
    exact Or.inr ⟨nfcPath, previous, ofCrypto_eq_ok.mp hpath, hindex.mpr ⟨previous, rfl⟩, hstore⟩

theorem Vault.exists_run_put {α : Type} {store : String → Option String → VaultM α}
    {x : Except CoreError α} (hpath : Path.normalize L.toUnicode path = .ok nfcPath)
    (hindex : fault (.indexGet nfcPath) = .none)
    (hrun : ∀ previous, Prog.Run (faulty fault) (store nfcPath previous).run s x s') :
    Prog.Run (faulty fault) (do
        let nfcPath ← liftCrypto (Path.normalize L.toUnicode path)
        let previous ← v.lookupKey L nfcPath
        store nfcPath previous).run s x s' := by
  obtain ⟨previous, hlookup⟩ := @exists_run_lookupKey L v fault s nfcPath hindex
  unfold liftCrypto
  rw [hpath, ofCrypto, Except.mapError, run_ofExcept_ok_bind, run_fallible_bind]
  exact Or.inr ⟨previous, s, hlookup, hrun previous⟩

theorem Vault.put_keepsFiles_iff {α β : Type} {sealing : String → Except CoreError β}
    {object : β → Bytes} {row : String → Record} {store : String → Option String → VaultM α}
    (hrow : ∀ nfcPath, (row nfcPath).path = nfcPath)
    (hwrites : ∀ nfcPath b, Path.normalize L.toUnicode path = .ok nfcPath → sealing nfcPath =
      .ok b → v.Writes L s draws.name draws.object.fileId (object b) (row nfcPath) data)
    (hstore : ∀ nfcPath previous e s', Prog.Run (faulty fault) (store nfcPath previous).run s
      (.error e) s' ↔ (sealing nfcPath = .error e ∧ s = s') ∨ ∃ b, sealing nfcPath = .ok b ∧
      Prog.Run (faulty fault) (v.storeSealed L draws.name draws.object.fileId (object b)
        (row nfcPath)).run s (.error e) s') :
    (∀ e s', Prog.Run (faulty fault) (do
          let nfcPath ← liftCrypto (Path.normalize L.toUnicode path)
          let previous ← v.lookupKey L nfcPath
          store nfcPath previous).run s (.error e) s' → v.KeepsFiles L s s') ↔
      ∀ nfcPath b, Path.normalize L.toUnicode path = .ok nfcPath → sealing nfcPath = .ok b →
        v.ReplacesNothing L fault s draws.name draws.object.fileId (object b)
          (row nfcPath) data := by
  constructor
  · intro hkeeps nfcPath b hpath hsealed
    by_cases hindex : fault (.indexGet (row nfcPath).path) = .none
    · apply ((hwrites nfcPath b hpath hsealed).keepsFiles_iff hindex).mp
      intro e s' hrun
      rw [hrow] at hindex
      refine hkeeps e s' (exists_run_put hpath hindex fun previous => ?_)
      exact (hstore nfcPath previous e s').mpr (Or.inr ⟨b, hsealed, hrun⟩)
    · exact ReplacesNothing.of_lookup hindex
  · intro hreplaces e s' hrun
    rcases run_put_error hrun with rfl | ⟨nfcPath, previous, hpath, hindex, hrun⟩
    · exact KeepsFiles.refl s'
    rcases (hstore nfcPath previous e s').mp hrun with ⟨-, rfl⟩ | ⟨b, hsealed, hrun⟩
    · exact KeepsFiles.refl s
    rw [← hrow nfcPath] at hindex
    exact ((hwrites nfcPath b hpath hsealed).keepsFiles_iff hindex).mpr
      (hreplaces nfcPath b hpath hsealed) e s' hrun

/-- Over stores of which every request may fail before or after it took effect, a put that reports
an error leaves every path leading to its bytes, by its row and by its name record, exactly if no
failure past the name record or past the row replaces other bytes there. -/
theorem Vault.failed_put_keeps_files_iff (L : Libraries) (v : Vault) (fault : Request → Fault)
    (s : Stores) (draws : PutDraws) (clock : Option Int64) (path : String) (data : Bytes)
    (grants : List Nat) (plaintextLen : UInt64) (modified : Modified) (hP : L.toPrimitives.Lawful)
    (hlen : data.length < 2 ^ 64) (hfresh : s.objects[objectKeyOf draws.object.fileId]? = none)
    (halone : ∀ nfcPath, Path.normalize L.toUnicode path = .ok nfcPath →
      ∀ other bytes, v.ReadsByName L s other bytes →
        v.nameKey L other = v.nameKey L nfcPath → other = nfcPath) :
    ((∀ e s', Prog.Run (faulty fault) (v.putFile L draws clock path data modified).run s (.error e)
          s' → v.KeepsFiles L s s') ↔
        ∀ nfcPath object, Path.normalize L.toUnicode path = .ok nfcPath →
          v.sealFile L draws.object nfcPath data (modified.resolve clock) = .ok object →
          v.ReplacesNothing L fault s draws.name draws.object.fileId object
            (bufferedRow L nfcPath draws.object.fileId data (modified.resolve clock)) data) ∧
      ((∀ e s', Prog.Run (faulty fault) (v.putFileFromSource L draws clock path
          (Source.of data grants) plaintextLen modified).run s (.error e) s' →
          v.KeepsFiles L s s') ↔
        ∀ nfcPath plan object, Path.normalize L.toUnicode path = .ok nfcPath →
          v.sealSource L draws.object nfcPath (Source.of data grants) plaintextLen
            (modified.resolve clock) = .ok (plan, object) →
          v.ReplacesNothing L fault s draws.name draws.object.fileId object
            (bufferedRow L nfcPath draws.object.fileId data (modified.resolve clock)) data) :=
  ⟨put_keepsFiles_iff (fun _ => rfl)
      (fun nfcPath _ hpath hsealed =>
        writes_of_sealFile hP hlen hfresh (halone nfcPath hpath) hsealed)
      fun _ _ _ _ => run_storeFile_error hP hlen,
    (put_keepsFiles_iff (fun _ => rfl) (fun nfcPath _ hpath hsealed =>
      writes_of_sealFile hP hlen hfresh (halone nfcPath hpath) (sealSource_eq_ok hP hlen hsealed).1)
      fun _ _ _ _ => run_storeSource_error hP hlen).trans (by simp only [Prod.forall])⟩

def filedStores : Stores where
  objects := ((∅ : Backend).insert (objectKeyOf default) emptyObject).insert
    (sampleVault.nameKey clearLibraries "a") sampleNameValue
  rows := (∅ : Rows).insert "a" (Vault.bufferedRow clearLibraries "a" default [] none)

def secondDraws : PutDraws where
  object := ⟨default, Block.replicate fileIdLen 1, default, default, default⟩
  name := default

def rowFault : Request → Fault
  | .indexPut _ => .before
  | _ => .none

theorem filedStores_fresh :
    filedStores.objects[objectKeyOf secondDraws.object.fileId]? = none := by
  have hid : objectKeyOf default ≠ objectKeyOf secondDraws.object.fileId := by
    rw [ne_eq, objectKeyOf_inj]
    decide
  rw [filedStores, Backend.getElem?_insert_of_ne (Vault.nameKey_ne_objectKeyOf "a" _),
    Backend.getElem?_insert_of_ne hid]
  rfl

theorem filedStores_alone {other : String}
    (h : sampleVault.ReadsByName clearLibraries filedStores other bytes)
    (hkey : sampleVault.nameKey clearLibraries other = sampleVault.nameKey clearLibraries "a") :
    other = "a" := by
  obtain ⟨value, record, hvalue, hopen, hpath, -⟩ := h
  rw [hkey] at hvalue hopen
  have hsample : value = sampleNameValue := by
    rw [filedStores, Std.ExtTreeMap.getElem?_insert_self, Option.some.injEq] at hvalue
    exact hvalue.symm
  rw [hsample] at hopen
  have hrecord := openRecord_sampleNameValue.symm.trans hopen
  cases hrecord
  exact hpath.symm

theorem filedStores_reads : sampleVault.ReadsByName clearLibraries filedStores "a" [] := by
  have hsealed :
      sampleVault.sealFile clearLibraries ⟨default, default, default, default, default⟩ "a" []
      none = .ok emptyObject := by decide +kernel
  refine ⟨sampleNameValue, _, Std.ExtTreeMap.getElem?_insert_self,
    openRecord_sampleNameValue, rfl, ?_⟩
  have hne := @Vault.nameKey_ne_objectKeyOf clearLibraries sampleVault "a" default
  have hstored : filedStores.objects[objectKeyOf default]? = some emptyObject := by
    rw [filedStores, Backend.getElem?_insert_of_ne hne]
    exact Std.ExtTreeMap.getElem?_insert_self
  exact Vault.readObject_sealFile clearPrimitives_lawful (by decide) hsealed
    (Backend.get_eq_ok.mpr hstored)

def objectFault : Request → Fault
  | .put .. => .before
  | _ => .none

theorem sealFile_second_isOk : ∃ object,
    sampleVault.sealFile clearLibraries secondDraws.object "a" [1] none = .ok object := by
  have hok : (sampleVault.sealFile clearLibraries secondDraws.object "a" [1] none).isOk := by
    decide +kernel
  cases hsealed : sampleVault.sealFile clearLibraries secondDraws.object "a" [1] none with
  | ok object => exact ⟨object, rfl⟩
  | error e =>
    rw [hsealed] at hok
    cases hok

/-- The write of the object fails, the put reports it, and no file is lost. -/
theorem Vault.failed_put_keeps_files_of_object : ∃ e s',
    Prog.Run (faulty objectFault) (sampleVault.putFile clearLibraries secondDraws none "a" [1]
        .unknown).run filedStores (.error e) s' ∧
      sampleVault.KeepsFiles clearLibraries filedStores s' := by
  have hlen : ([1] : Bytes).length < 2 ^ 64 := by decide
  obtain ⟨object, hsealed⟩ := sealFile_second_isOk
  have hrun :
      Prog.Run (faulty objectFault) (sampleVault.putFile clearLibraries secondDraws none "a" [1]
      .unknown).run filedStores (.error (.store (.io ""))) filedStores := by
    refine Vault.exists_run_put normalize_a rfl fun previous => ?_
    refine (Vault.run_storeFile_error clearPrimitives_lawful hlen).mpr
      (Or.inr ⟨object, hsealed, ?_⟩)
    unfold Vault.storeSealed
    exact faulty_putObject_bind.mpr ⟨⟨_, rfl, rfl⟩, rfl⟩
  refine ⟨_, _, hrun,
    (Vault.failed_put_keeps_files_iff clearLibraries sampleVault objectFault filedStores
    secondDraws none "a" [1] [] 1 .unknown clearPrimitives_lawful hlen
      filedStores_fresh ?_).1.mpr ?_
    _ _ hrun⟩
  · intro nfcPath hpath other bytes hread hkey
    rw [normalize_a] at hpath
    cases hpath
    exact filedStores_alone hread hkey
  · intro nfcPath object hpath hsealed
    constructor
    · intro hpast
      obtain ⟨key, value, hreaches, -⟩ := hpast
      cases hreaches.object
    · intro hpast
      obtain ⟨key, value, hreaches, -⟩ := hpast
      cases hreaches.object

/-- The commit of the row fails, and the put reports it.  The name record of the path leads to the
new bytes by then. -/
theorem Vault.failed_put_replaces_file : ∃ e s',
    Prog.Run (faulty rowFault) (sampleVault.putFile clearLibraries secondDraws none "a" [1]
        .unknown).run filedStores (.error e) s' ∧
      sampleVault.ReadsByName clearLibraries filedStores "a" [] ∧
      ¬sampleVault.ReadsByName clearLibraries s' "a" [] := by
  have hlen : ([1] : Bytes).length < 2 ^ 64 := by decide
  obtain ⟨object, hsealed⟩ := sealFile_second_isOk
  have hwrites := Vault.writes_of_sealFile clearPrimitives_lawful hlen filedStores_fresh
    (fun _ _ => filedStores_alone) hsealed
  have hpathLen : (utf8 "a").length ≤ 65535 := by decide
  obtain ⟨value, hname⟩ := @NameKeys.sealRecord_isOk clearPrimitives clearLibraries.keyedHash
    clearPrimitives_lawful sampleVault.nameKeys sampleVault.vaultId default "a" hpathLen
    secondDraws.object.fileId 0
  obtain ⟨e, s', hrun, hnew⟩ :=
    @Vault.Writes.exists_run_readsByName clearLibraries sampleVault rowFault _
    _ _ _ _ _ hwrites ⟨_, value, ⟨rfl, rfl, hname⟩, Or.inr ⟨rfl, by decide⟩⟩
  refine ⟨e, s', ?_, filedStores_reads, ?_⟩
  · exact Vault.exists_run_put normalize_a rfl fun previous =>
      (Vault.run_storeFile_error clearPrimitives_lawful hlen).mpr (Or.inr ⟨object, hsealed, hrun⟩)
  · intro hold
    cases hold.unique hnew

end Dctl.Core
