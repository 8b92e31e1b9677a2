import Dctl.Core.Calls

/-! Histories of a vault: the calls of one client, one after the other, over stores that work, and
what keeps its rows and its name records in step. -/

namespace Dctl.Core

open ProofKit Crypto Kem Index Object

variable {L : Libraries} {v : Vault} {s s' s1 : Stores} {nfcPath : String}

structure Vault.Consistent (L : Libraries) (v : Vault) (s : Stores) : Prop where
  row : ∀ nfcPath row, s.rows[nfcPath]? = some row → row.path = nfcPath ∧ ∃ fileId value,
    row.objectKey = objectKeyOf fileId ∧ s.objects[objectKeyOf fileId]?.isSome ∧
    s.objects[v.nameKey L nfcPath]? = some value ∧
    v.nameKeys.openRecord L.toPrimitives L.keyedHash v.vaultId (v.nameKey L nfcPath) value =
      .ok { fileId, metadataGen := 0, path := nfcPath }
  name : ∀ key value record, s.objects[key]? = some value →
    v.nameKeys.openRecord L.toPrimitives L.keyedHash v.vaultId key value = .ok record →
    s.rows[record.path]?.isSome
  apart : ∀ (p q : String) (a b : Record), s.rows[p]? = some a → s.rows[q]? = some b →
    a.objectKey = b.objectKey → p = q

/-- No other path with a row shares the key of the path's name record. -/
def Vault.Alone (L : Libraries) (v : Vault) (s : Stores) (nfcPath : String) : Prop :=
  ∀ other row, s.rows[other]? = some row → v.nameKey L other = v.nameKey L nfcPath → other = nfcPath

/-- The call stores bytes that fit in memory, under an id that is not in use, and the name key of
its path is that of no other file. -/
structure Vault.Admits (L : Libraries) (v : Vault) (s : Stores) (c : Call) : Prop where
  length : c.data.length < 2 ^ 64
  fresh : ∀ fileId, c.fileId? = some fileId → s.objects[objectKeyOf fileId]? = none
  alone : ∀ nfcPath, Path.normalize L.toUnicode c.path = .ok nfcPath → v.Alone L s nfcPath

/-- The stores of a vault after some calls that it admits, from stores without a file of it. -/
inductive Vault.History (L : Libraries) (v : Vault) : Stores → Prop
  | start {s : Stores} (hrows : s.rows = ∅)
      (hnames : ∀ key value record, s.objects[key]? = some value →
        v.nameKeys.openRecord L.toPrimitives L.keyedHash v.vaultId key value ≠ .ok record) :
      History L v s
  | call {s s' : Stores} {c : Call} {x : Except CoreError Bool} (h : History L v s)
      (hadmits : v.Admits L s c) (hrun : Prog.Run honest (c.run L v).run s x s') : History L v s'

theorem Vault.nameKey_of_openRecord {key : String} {value : Bytes} {record : NameRecord}
    (h : v.nameKeys.openRecord L.toPrimitives L.keyedHash v.vaultId key value = .ok record) :
    key = v.nameKey L record.path := by
  simp only [NameKeys.openRecord, bind_eq_ok, reject_eq_ok, pure_eq_ok, ne_eq, not_not] at h
  obtain ⟨_, -, _, -, _, -, _, -, _, hkey, rfl⟩ := h
  exact hkey.symm

namespace Vault.Consistent

theorem beside (h : v.Consistent L s) {fileId : FileId} (hside : s.SameOff (SideKey fileId) s') :
    v.Consistent L s' where
  row nfcPath row hrow := by
    rw [hside.rows] at hrow
    obtain ⟨hpath, other, value, hkey, hobject, hvalue, hopen⟩ := h.row nfcPath row hrow
    refine ⟨hpath, other, value, hkey, ?_, ?_, hopen⟩
    · rw [hside.objects _ (not_sideKey_objectKeyOf fileId other)]
      exact hobject
    · rw [hside.objects _ (not_sideKey_nameKey fileId nfcPath)]
      exact hvalue
  name key value record hvalue hopen := by
    rw [hside.rows]
    rw [hside.objects _ (nameKey_of_openRecord hopen ▸ not_sideKey_nameKey fileId record.path)]
      at hvalue
    exact h.name key value record hvalue hopen
  apart := by
    rw [hside.rows]
    exact h.apart

theorem erase (h : v.Consistent L s) {old : FileId}
    (hunused : ∀ (path : String) (row : Record), s.rows[path]? = some row →
      row.objectKey ≠ objectKeyOf old) :
    v.Consistent L { s with objects := s.objects.erase (objectKeyOf old) } := by
  constructor
  · intro path row hrow
    obtain ⟨hpath, id, value, hid, hstored, hvalue, hopen⟩ := h.row path row hrow
    refine ⟨hpath, id, value, hid, ?_, ?_, hopen⟩
    · rw [Backend.getElem?_erase_of_ne (fun heq => hunused path row hrow (hid.trans heq.symm))]
      exact hstored
    · rw [Backend.getElem?_erase_of_ne (nameKey_ne_objectKeyOf path old).symm]
      exact hvalue
  · intro key value record hvalue hopen
    have hne : objectKeyOf old ≠ key := by
      rw [nameKey_of_openRecord hopen]
      exact (nameKey_ne_objectKeyOf record.path old).symm
    rw [Backend.getElem?_erase_of_ne hne] at hvalue
    exact h.name key value record hvalue hopen
  · exact h.apart

variable (h : v.Consistent L s)
include h

theorem namedKey_eq_none (halone : v.Alone L s nfcPath) (hrow : s.rows[nfcPath]? = none) :
    v.namedKey L nfcPath (s.objects.get (v.nameKey L nfcPath)) = none := by
  cases hnamed : v.namedKey L nfcPath (s.objects.get (v.nameKey L nfcPath)) with
  | none => rfl
  | some key =>
    obtain ⟨value, record, hget, hopen, -⟩ := namedKey_eq_some.mp hnamed
    obtain ⟨row, hother⟩ := Option.isSome_iff_exists.mp
      (h.name _ value record (Backend.get_eq_ok.mp hget) hopen)
    have hpath := halone record.path row hother (nameKey_of_openRecord hopen).symm
    rw [hpath, hrow] at hother
    cases hother

theorem lookup_eq (halone : v.Alone L s nfcPath) {found : Option String}
    (hlookup : v.lookupObjectKey L s.view nfcPath = .ok found) :
    found = s.rows[nfcPath]?.map (·.objectKey) := by
  rw [lookupObjectKey_eq (rfl : s.view.indexGet nfcPath = .ok s.rows[nfcPath]?)] at hlookup
  obtain rfl := Except.ok.inj hlookup
  cases hrow : s.rows[nfcPath]? with
  | some row => rfl
  | none => exact h.namedKey_eq_none halone hrow

theorem name_eq {row : Record} (hrow : s.rows[nfcPath]? = some row) {value : Bytes}
    {record : NameRecord} (hvalue : s.objects[v.nameKey L nfcPath]? = some value)
    (hopen : v.nameKeys.openRecord L.toPrimitives L.keyedHash v.vaultId (v.nameKey L nfcPath)
      value = .ok record) :
    row.objectKey = objectKeyOf record.fileId := by
  obtain ⟨-, fileId, value', hkey, -, hvalue', hopen'⟩ := h.row nfcPath row hrow
  rw [hvalue] at hvalue'
  cases hvalue'
  rw [hopen] at hopen'
  cases hopen'
  exact hkey

variable {fileId : FileId} {object : Bytes} {row : Record}

section

variable (hP : L.toPrimitives.Lawful) (hfresh : s.objects[objectKeyOf fileId]? = none)
  (hkey : row.objectKey = objectKeyOf fileId) (halone : v.Alone L s row.path)
  (hleaves : v.PutLeaves L s fileId object row s1)
include hP hfresh hkey halone hleaves

theorem putLeaves : v.Consistent L s1 := by
  obtain ⟨nonce, value, hsealed, hside⟩ := hleaves
  have hopen := NameKeys.openRecord_sealRecord hP hsealed
  refine Consistent.beside ?_ hside
  -- The object and the name record are new keys, apart from the name record that is replaced.
  have hobject : ∀ other, s.objects[objectKeyOf other]?.isSome →
      (s.withRow fileId object (v.nameKey L row.path) value row).objects[objectKeyOf other]? =
        s.objects[objectKeyOf other]? := by
    intro other hother
    have hne : objectKeyOf fileId ≠ objectKeyOf other := by
      intro heq
      rw [← heq, hfresh] at hother
      cases hother
    simp only [Stores.withRow, Stores.withName, Stores.withObject]
    rw [Backend.getElem?_insert_of_ne (nameKey_ne_objectKeyOf row.path other),
      Backend.getElem?_insert_of_ne hne]
  have hname : ∀ key, v.nameKey L row.path ≠ key → (∃ path, key = v.nameKey L path) →
      (s.withRow fileId object (v.nameKey L row.path) value row).objects[key]? =
        s.objects[key]? := by
    intro key hne hpath
    obtain ⟨path, rfl⟩ := hpath
    simp only [Stores.withRow, Stores.withName, Stores.withObject]
    rw [Backend.getElem?_insert_of_ne hne,
      Backend.getElem?_insert_of_ne (nameKey_ne_objectKeyOf path fileId).symm]
  have hrows : ∀ path, row.path ≠ path →
      (s.withRow fileId object (v.nameKey L row.path) value row).rows[path]? = s.rows[path]? := by
    intro path hne
    simp only [Stores.withRow]
    rw [Std.ExtTreeMap.getElem?_insert, if_neg (by simpa using hne)]
  have hnew :
      (s.withRow fileId object (v.nameKey L row.path) value row).rows[row.path]? = some row :=
    Std.ExtTreeMap.getElem?_insert_self
  have hvalue : (s.withRow fileId object (v.nameKey L row.path) value row).objects[v.nameKey L
      row.path]? = some value := Std.ExtTreeMap.getElem?_insert_self
  constructor
  · intro path other hother
    by_cases hpath : row.path = path
    · subst hpath
      rw [hnew] at hother
      cases hother
      refine ⟨rfl, fileId, value, hkey, ?_, hvalue, hopen⟩
      simp only [Stores.withRow, Stores.withName, Stores.withObject]
      rw [Backend.getElem?_insert_of_ne (nameKey_ne_objectKeyOf row.path fileId),
        Std.ExtTreeMap.getElem?_insert_self]
      rfl
    · rw [hrows path hpath] at hother
      obtain ⟨hotherPath, id, stored, hid, hstored, hnamed, hopens⟩ := h.row path other hother
      refine ⟨hotherPath, id, stored, hid, ?_, ?_, hopens⟩
      · rw [hobject id hstored]
        exact hstored
      · rw [hname _ (fun heq => hpath (halone path other hother heq.symm).symm) ⟨path, rfl⟩]
        exact hnamed
  · intro key stored record hstored hopens
    by_cases hpath : row.path = record.path
    · rw [← hpath, hnew]
      rfl
    · rw [hrows _ hpath]
      have hrecord := nameKey_of_openRecord hopens
      by_cases heq : v.nameKey L row.path = key
      · rw [← heq, hvalue] at hstored
        cases hstored
        rw [← heq, hopen] at hopens
        cases hopens
        exact absurd rfl hpath
      · rw [hname key heq ⟨_, hrecord⟩] at hstored
        exact h.name key stored record hstored hopens
  · intro p q a b ha hb hab
    -- An older row has an older object.
    have hold : ∀ path other, row.path ≠ path → s.rows[path]? = some other →
        other.objectKey ≠ objectKeyOf fileId := by
      intro path other _ hother heq
      obtain ⟨-, id, _, hid, hstored, -⟩ := h.row path other hother
      rw [hid, objectKeyOf_inj] at heq
      rw [heq, hfresh] at hstored
      cases hstored
    by_cases hp : row.path = p
    · by_cases hq : row.path = q
      · rw [← hp, ← hq]
      · subst hp
        rw [hnew] at ha
        cases ha
        rw [hrows q hq] at hb
        exact absurd (hab.symm.trans hkey) (hold q b hq hb)
    · by_cases hq : row.path = q
      · subst hq
        rw [hnew] at hb
        cases hb
        rw [hrows p hp] at ha
        exact absurd (hab.trans hkey) (hold p a hp ha)
      · rw [hrows p hp] at ha
        rw [hrows q hq] at hb
        exact h.apart p q a b ha hb hab

theorem collect {previous : Option String}
    (hlookup : v.lookupObjectKey L s.view row.path = .ok previous) :
    v.Consistent L (s1.collect previous (objectKeyOf fileId)) := by
  have hstored := h.putLeaves hP hfresh hkey halone hleaves
  have hprevious := h.lookup_eq halone hlookup
  unfold Stores.collect
  cases previous with
  | none => exact hstored
  | some old =>
    dsimp only
    by_cases hold : old = objectKeyOf fileId
    · rw [if_pos hold]
      exact hstored
    rw [if_neg hold]
    obtain ⟨before, hbefore, rfl⟩ := Option.map_eq_some_iff.mp hprevious.symm
    obtain ⟨-, id, -, hid, -⟩ := h.row row.path before hbefore
    rw [hid]
    apply hstored.erase
    intro path other hother heq
    obtain ⟨_, value, -, hside⟩ := hleaves
    rw [hside.rows, Stores.withRow, Std.ExtTreeMap.getElem?_insert] at hother
    by_cases hpath : row.path = path
    · rw [if_pos (by simpa using hpath)] at hother
      cases hother
      rw [hid] at hold
      exact hold (heq.symm.trans hkey)
    · rw [if_neg (by simpa using hpath)] at hother
      exact hpath (h.apart row.path path before other hbefore hother (hid.trans heq.symm))

end

theorem without (halone : v.Alone L s nfcPath) {objectKey : String}
    (hlookup : v.lookupObjectKey L s.view nfcPath = .ok (some objectKey)) :
    v.Consistent L (s.without objectKey (v.nameKey L nfcPath) nfcPath) := by
  have hfound := h.lookup_eq halone hlookup
  obtain ⟨before, hbefore, rfl⟩ := Option.map_eq_some_iff.mp hfound.symm
  obtain ⟨-, id, -, hid, -⟩ := h.row nfcPath before hbefore
  have hrows : ∀ path row, (s.rows.erase nfcPath)[path]? = some row →
      nfcPath ≠ path ∧ s.rows[path]? = some row := by
    intro path row hrow
    rw [Std.ExtTreeMap.getElem?_erase] at hrow
    by_cases hpath : nfcPath = path
    · rw [if_pos (by simpa using hpath)] at hrow
      cases hrow
    · rw [if_neg (by simpa using hpath)] at hrow
      exact ⟨hpath, hrow⟩
  unfold Stores.without
  constructor
  · intro path row hrow
    obtain ⟨hne, hrow⟩ := hrows path row hrow
    obtain ⟨hpath, other, value, hother, hstored, hvalue, hopen⟩ := h.row path row hrow
    refine ⟨hpath, other, value, hother, ?_, ?_, hopen⟩
    · have hobject : before.objectKey ≠ objectKeyOf other := by
        intro heq
        exact hne (h.apart nfcPath path before row hbefore hrow (heq.trans hother.symm))
      rw [Backend.getElem?_erase_of_ne (nameKey_ne_objectKeyOf nfcPath other),
        Backend.getElem?_erase_of_ne hobject]
      exact hstored
    · have hname : v.nameKey L nfcPath ≠ v.nameKey L path := by
        intro heq
        exact hne (halone path row hrow heq.symm).symm
      rw [Backend.getElem?_erase_of_ne hname, hid,
        Backend.getElem?_erase_of_ne (nameKey_ne_objectKeyOf path id).symm]
      exact hvalue
  · intro key value record hvalue hopen
    have hrecord := nameKey_of_openRecord hopen
    have hname : v.nameKey L nfcPath ≠ key := by
      intro heq
      rw [heq, Std.ExtTreeMap.getElem?_erase_self] at hvalue
      cases hvalue
    have hobject : before.objectKey ≠ key := by
      rw [hid, hrecord]
      exact (nameKey_ne_objectKeyOf record.path id).symm
    rw [Backend.getElem?_erase_of_ne hname, Backend.getElem?_erase_of_ne hobject] at hvalue
    have hrow := h.name key value record hvalue hopen
    rw [Std.ExtTreeMap.getElem?_erase, if_neg]
    · exact hrow
    · intro heq
      have hpath : nfcPath = record.path := by simpa using heq
      exact hname (hpath ▸ hrecord.symm)
  · intro p q a b ha hb hab
    exact h.apart p q a b (hrows p a ha).2 (hrows q b hb).2 hab

end Vault.Consistent

theorem Call.Seals.row {c : Call} {object : Bytes} {row : Record} {fileId : FileId}
    (h : c.Seals L v nfcPath object row) (hid : c.fileId? = some fileId) :
    row.path = nfcPath ∧ row.objectKey = objectKeyOf fileId := by
  cases c with
  | put draws clock path data modified
  | putSource draws clock path data grants plaintextLen modified
  | putShared draws clock path data recipients modified =>
    obtain ⟨-, rfl⟩ := h
    cases hid
    exact ⟨rfl, rfl⟩
  | shareAdd draws path recipients => cases hid
  | shareRemove path keyId => cases hid
  | delete path => cases hid

theorem Vault.Consistent.effect (h : v.Consistent L s) (hP : L.toPrimitives.Lawful) {c : Call}
    (hadmits : v.Admits L s c) {x : Except CoreError Bool} (heffect : v.Effect L s c x s') :
    v.Consistent L s' := by
  cases heffect with
  | beside hfile hside => exact h.beside hside
  | stored hpath hid hseals hleaves =>
    obtain ⟨rfl, hkey⟩ := hseals.row hid
    exact h.putLeaves hP (hadmits.fresh _ hid) hkey (hadmits.alone _ hpath) hleaves
  | replaced hpath hlookup hid hseals hleaves =>
    obtain ⟨rfl, hkey⟩ := hseals.row hid
    exact h.collect hP (hadmits.fresh _ hid) hkey (hadmits.alone _ hpath) hleaves hlookup
  | removed hdelete hpath hlookup => exact h.without (hadmits.alone _ hpath) hlookup

theorem Vault.History.consistent (hP : L.toPrimitives.Lawful) (h : v.History L s) :
    v.Consistent L s := by
  induction h with
  | start hrows hnames =>
    constructor
    · intro path row hrow
      rw [hrows] at hrow
      cases hrow
    · intro key value record hvalue hopen
      exact absurd hopen (hnames key value record hvalue)
    · intro p q a b ha
      rw [hrows] at ha
      cases ha
  | call h hadmits hrun ih => exact ih.effect hP hadmits (Call.effect hP hadmits.length hrun)

section Files

/-- What a call that works does to the files, by their paths, and what it reports. -/
def Call.apply (L : Libraries) (c : Call) (m : String → Option Bytes) :
    (String → Option Bytes) × Bool :=
  match c, Path.normalize L.toUnicode c.path with
  | put .., .ok nfcPath | putSource .., .ok nfcPath | putShared .., .ok nfcPath =>
    (Function.update m nfcPath (some c.data), true)
  | delete _, .ok nfcPath => (Function.update m nfcPath none, (m nfcPath).isSome)
  | _, _ => (m, true)

/-- A call that fails changes no file, or it is a put and its file is stored. -/
def Call.Does (L : Libraries) (c : Call) (m : String → Option Bytes) (x : Except CoreError Bool)
    (m' : String → Option Bytes) : Prop :=
  match x with
  | .ok done => (m', done) = c.apply L m
  | .error _ => m' = m ∨ c.fileId?.isSome ∧ m' = (c.apply L m).1

/-- What a sequence of calls makes of the files. -/
inductive FilesAfter (L : Libraries) :
    (String → Option Bytes) → List (Call × Except CoreError Bool) → (String → Option Bytes) → Prop
  | done {m : String → Option Bytes} : FilesAfter L m [] m
  | call {c : Call} {x : Except CoreError Bool} {calls : List (Call × Except CoreError Bool)}
      {m m1 m' : String → Option Bytes} (hdoes : c.Does L m x m1) (h : FilesAfter L m1 calls m') :
      FilesAfter L m ((c, x) :: calls) m'

/-- The calls of one client, one after the other, with what each reports. -/
inductive Vault.Ran (L : Libraries) (v : Vault) :
    Stores → List (Call × Except CoreError Bool) → Stores → Prop
  | done {s : Stores} : Ran L v s [] s
  | call {c : Call} {x : Except CoreError Bool} {calls : List (Call × Except CoreError Bool)}
      {s s1 s' : Stores} (hadmits : v.Admits L s c) (hrun : Prog.Run honest (c.run L v).run s x s1)
      (h : Ran L v s1 calls s') : Ran L v s ((c, x) :: calls) s'

/-- The object reads as `data` wherever it is stored under the key. -/
def Vault.Reads (L : Libraries) (v : Vault) (objectKey : String) (object data : Bytes) : Prop :=
  ∀ (view : View) (path : String), view.get objectKey = .ok object →
    v.readObject L view objectKey path = .ok data

def Vault.ContainsAt (L : Libraries) (v : Vault) (s : Stores) (nfcPath : String) :
    Option Bytes → Prop
  | none => s.rows[nfcPath]? = none
  | some data => ∃ row object, s.rows[nfcPath]? = some row ∧
      s.objects[row.objectKey]? = some object ∧ v.Reads L row.objectKey object data

def Vault.Contains (L : Libraries) (v : Vault) (s : Stores) (m : String → Option Bytes) : Prop :=
  ∀ nfcPath, v.ContainsAt L s nfcPath (m nfcPath)

variable {m : String → Option Bytes} {fileId : FileId} {object : Bytes} {row : Record} {c : Call}

theorem Vault.keyId_of_mem_distinctRecipients {seen : List KeyId} {recipients : List Drk1Public}
    {r : Drk1Public} (h : r ∈ distinctRecipients L seen recipients) :
    r.keyId L.toPrimitives ∉ seen := by
  induction recipients generalizing seen with
  | nil => cases h
  | cons other rest ih =>
    unfold distinctRecipients at h
    split at h
    · exact ih h
    · rename_i hother
      rcases List.mem_cons.mp h with rfl | hrest
      · exact hother
      · exact fun hseen => ih hrest (List.mem_append_left _ hseen)

/-- The owner is the first of an object's recipients, and the only one with its key id. -/
theorem Vault.reads_sealShared (hP : L.toPrimitives.Lawful) (hK : L.toKemPrimitives.Lawful)
    {draws : RecipientDraws} {data : Bytes} {recipients : List Drk1Public}
    (hlen : data.length < 2 ^ 64) (h : v.sealShared L draws nfcPath data recipients = .ok object) :
    v.Reads L (objectKeyOf draws.fileId) object data := by
  obtain ⟨front, -, ⟨subs, hwraps, hblock⟩, -, hreads⟩ := sealShared_reads hP hlen h
  have howner : ∀ r ∈ v.recipientSet L recipients,
      r.keyId L.toPrimitives = v.identityKeyId L → r = v.identity.public L.toKemPrimitives := by
    intro r hr hkeyId
    rcases List.mem_cons.mp hr with rfl | hr
    · rfl
    · exact absurd (List.mem_singleton.mpr hkeyId) (keyId_of_mem_distinctRecipients hr)
  have hmem : v.identity.public L.toKemPrimitives ∈ v.recipientSet L recipients :=
    List.mem_cons_self ..
  have hrecover := recoverKwFromBlock_of_wraps hP hK hwraps howner hblock
  rw [if_pos hmem] at hrecover
  intro view path hget
  refine (hreads v view path hget).1 ?_
  simp only [recoverObjectKwParts, allIdentities, recoverInline, hrecover, ok_bind, ofCrypto]
  rfl

theorem Call.Seals.reads (hP : L.toPrimitives.Lawful) (hK : L.toKemPrimitives.Lawful)
    (hlen : c.data.length < 2 ^ 64) (h : c.Seals L v nfcPath object row)
    (hid : c.fileId? = some fileId) : v.Reads L (objectKeyOf fileId) object c.data := by
  cases c with
  | put draws clock path data modified
  | putSource draws clock path data grants plaintextLen modified =>
    cases hid
    exact fun view path => Vault.readObject_sealFile hP hlen h.1
  | putShared draws clock path data recipients modified =>
    cases hid
    exact Vault.reads_sealShared hP hK hlen h.1
  | shareAdd draws path recipients => cases hid
  | shareRemove path keyId => cases hid
  | delete path => cases hid

theorem Call.apply_of_fileId (hpath : Path.normalize L.toUnicode c.path = .ok nfcPath)
    (hid : c.fileId?.isSome) : c.apply L m = (Function.update m nfcPath (some c.data), true) := by
  cases c with
  | put draws clock path data modified
  | putSource draws clock path data grants plaintextLen modified
  | putShared draws clock path data recipients modified =>
    unfold apply
    rw [hpath]
  | shareAdd draws path recipients => cases hid
  | shareRemove path keyId => cases hid
  | delete path => cases hid

theorem Call.apply_share (hid : c.fileId? = none) (hdelete : ∀ path, c ≠ .delete path) :
    c.apply L m = (m, true) := by
  cases c with
  | put draws clock path data modified => cases hid
  | putSource draws clock path data grants plaintextLen modified => cases hid
  | putShared draws clock path data recipients modified => cases hid
  | shareAdd draws path recipients => rfl
  | shareRemove path keyId => rfl
  | delete path => exact absurd rfl (hdelete path)

theorem Call.apply_delete (hdelete : c = .delete c.path)
    (hpath : Path.normalize L.toUnicode c.path = .ok nfcPath) :
    c.apply L m = (Function.update m nfcPath none, (m nfcPath).isSome) := by
  cases c with
  | delete path =>
    unfold apply
    rw [hpath]
  | put draws clock path data modified
  | putSource draws clock path data grants plaintextLen modified
  | putShared draws clock path data recipients modified | shareAdd draws path recipients
  | shareRemove path keyId => cases hdelete

/-- A call that works and did nothing is a delete that found no file. -/
theorem Call.run_false (h : Prog.Run honest (c.run L v).run s (.ok false) s') :
    c = .delete c.path ∧ ∃ nfcPath, Path.normalize L.toUnicode c.path = .ok nfcPath ∧
      v.lookupObjectKey L s.view nfcPath = .ok none := by
  have htrue : ∀ {α : Type} {p : VaultM α}, ¬Prog.Run honest
      (do let _ ← p; pure true : VaultM Bool).run s (.ok false) s' := by
    intro α p hrun
    obtain ⟨y, -, hy⟩ := Prog.run_map hrun
    cases y <;> cases hy
  cases c with
  | put draws clock path data modified => exact absurd h htrue
  | putSource draws clock path data grants plaintextLen modified => exact absurd h htrue
  | putShared draws clock path data recipients modified => exact absurd h htrue
  | shareAdd draws path recipients => exact absurd h htrue
  | shareRemove path keyId => exact absurd h htrue
  | delete path =>
    unfold run Vault.deleteFile at h
    rcases Vault.run_lookup_bind h with ⟨⟨_, hx⟩, -⟩ | ⟨nfcPath, found, hpath, hlookup, hremove⟩
    · cases hx
    cases found with
    | none => exact ⟨rfl, nfcPath, hpath, hlookup⟩
    | some objectKey => cases (Vault.run_removeFile.mp hremove).1

variable {content : Option Bytes}

theorem Vault.ContainsAt.congr (h : v.ContainsAt L s nfcPath content)
    (hrow : s'.rows[nfcPath]? = s.rows[nfcPath]?)
    (hobject : ∀ row, s.rows[nfcPath]? = some row →
      s'.objects[row.objectKey]? = s.objects[row.objectKey]?) :
    v.ContainsAt L s' nfcPath content := by
  cases content with
  | none => exact hrow.trans h
  | some data =>
    obtain ⟨row, object, hold, hstored, hreads⟩ := h
    exact ⟨row, object, hrow.trans hold, (hobject row hold).trans hstored, hreads⟩

theorem Vault.Contains.update (h : v.Contains L s m)
    (hother : ∀ path, path ≠ nfcPath → s'.rows[path]? = s.rows[path]? ∧
      ∀ row, s.rows[path]? = some row → s'.objects[row.objectKey]? = s.objects[row.objectKey]?)
    (hnew : v.ContainsAt L s' nfcPath content) :
    v.Contains L s' (Function.update m nfcPath content) := by
  intro path
  by_cases hpath : path = nfcPath
  · subst hpath
    rwa [Function.update_self]
  · rw [Function.update_of_ne hpath]
    exact (h path).congr (hother path hpath).1 (hother path hpath).2

theorem Vault.PutLeaves.rows (h : v.PutLeaves L s fileId object row s') :
    s'.rows = s.rows.insert row.path row := by
  obtain ⟨_, value, -, hside⟩ := h
  exact hside.rows

theorem Vault.PutLeaves.objects (h : v.PutLeaves L s fileId object row s') (other : FileId) :
    s'.objects[objectKeyOf other]? =
      if fileId = other then some object else s.objects[objectKeyOf other]? := by
  obtain ⟨_, value, -, hside⟩ := h
  rw [hside.objects _ (not_sideKey_objectKeyOf fileId other)]
  simp only [Stores.withRow, Stores.withName, Stores.withObject]
  rw [Backend.getElem?_insert_of_ne (nameKey_ne_objectKeyOf row.path other),
    Std.ExtTreeMap.getElem?_insert]
  simp only [Std.compare_eq_iff_eq, objectKeyOf_inj]

theorem Backend.getElem?_erase_of_isSome {b : Backend} {key other : String}
    (h : (b.erase key)[other]?.isSome) : (b.erase key)[other]? = b[other]? := by
  rw [Std.ExtTreeMap.getElem?_erase] at h ⊢
  split at h
  · cases h
  · rename_i hne
    rw [if_neg hne]

theorem Stores.collect_objects {previous : Option String} {current key : String}
    (h : (s.collect previous current).objects[key]?.isSome) :
    (s.collect previous current).objects[key]? = s.objects[key]? := by
  unfold collect at h ⊢
  cases previous with
  | none => rfl
  | some old =>
    dsimp only at h ⊢
    split
    · rfl
    · rename_i hold
      rw [if_neg hold] at h
      exact Backend.getElem?_erase_of_isSome h

@[simp] theorem Stores.collect_rows {previous : Option String} {current : String} :
    (s.collect previous current).rows = s.rows := by
  unfold collect
  cases previous with
  | none => rfl
  | some old =>
    dsimp only
    split <;> rfl

theorem Vault.ContainsAt.isSome_eq (h : v.ContainsAt L s nfcPath content) :
    content.isSome = s.rows[nfcPath]?.isSome := by
  cases content with
  | none =>
    rw [show s.rows[nfcPath]? = none from h]
    rfl
  | some data =>
    obtain ⟨row, object, hrow, -⟩ := h
    rw [hrow]
    rfl

variable (hc : v.Consistent L s) (h : v.Contains L s m)
include hc h

theorem Vault.Contains.beside (hside : s.SameOff (SideKey fileId) s') : v.Contains L s' m := by
  intro path
  refine (h path).congr (by rw [hside.rows]) fun row hrow => ?_
  obtain ⟨-, id, _, hid, -⟩ := hc.row path row hrow
  rw [hid]
  exact hside.objects _ (not_sideKey_objectKeyOf fileId id)

theorem Vault.Contains.putLeaves {data : Bytes} (hfresh : s.objects[objectKeyOf fileId]? = none)
    (hkey : row.objectKey = objectKeyOf fileId) (hleaves : v.PutLeaves L s fileId object row s')
    (hreads : v.Reads L (objectKeyOf fileId) object data) :
    v.Contains L s' (Function.update m row.path (some data)) := by
  refine h.update (fun path hpath => ⟨?_, fun other hother => ?_⟩) ⟨row, object, ?_, ?_, ?_⟩
  · rw [hleaves.rows, Std.ExtTreeMap.getElem?_insert, if_neg (by simpa using hpath.symm)]
  · obtain ⟨-, id, _, hid, hstored, -⟩ := hc.row path other hother
    rw [hid, hleaves.objects, if_neg]
    rintro rfl
    rw [hfresh] at hstored
    cases hstored
  · rw [hleaves.rows, Std.ExtTreeMap.getElem?_insert_self]
  · rw [hkey, hleaves.objects, if_pos rfl]
  · rwa [hkey]

/-- A call does to the files what it says. -/
theorem Vault.Contains.call (hP : L.toPrimitives.Lawful) (hK : L.toKemPrimitives.Lawful)
    (hadmits : v.Admits L s c) {x : Except CoreError Bool}
    (hrun : Prog.Run honest (c.run L v).run s x s') :
    ∃ m', c.Does L m x m' ∧ v.Contains L s' m' := by
  have heffect := Call.effect hP hadmits.length hrun
  have hc' := hc.effect hP hadmits heffect
  cases heffect with
  | beside hfile hside =>
    refine ⟨m, ?_, h.beside hc hside⟩
    cases x with
    | error e => exact Or.inl rfl
    | ok done =>
      cases done with
      | true =>
        obtain ⟨hid, hdelete⟩ := hfile rfl
        exact (Call.apply_share hid hdelete).symm
      | false =>
        obtain ⟨hdelete, nfcPath, hpath, hlookup⟩ := Call.run_false hrun
        have hrow := hc.lookup_eq (hadmits.alone _ hpath) hlookup
        have hnone : m nfcPath = none := by
          rw [← Option.not_isSome_iff_eq_none, (h nfcPath).isSome_eq, ← Option.isSome_map, ← hrow]
          exact Bool.false_ne_true
        show (m, false) = c.apply L m
        rw [Call.apply_delete hdelete hpath, hnone, ← hnone, Function.update_eq_self, hnone]
        rfl
  | stored hpath hid hseals hleaves =>
    obtain ⟨rfl, hkey⟩ := hseals.row hid
    have happly := @Call.apply_of_fileId _ _ m _ hpath (by rw [hid]; rfl)
    exact ⟨_, Or.inr ⟨by rw [hid]; rfl, by rw [happly]⟩,
      h.putLeaves hc (hadmits.fresh _ hid) hkey hleaves
      (hseals.reads hP hK hadmits.length hid)⟩
  | replaced hpath hlookup hid hseals hleaves =>
    obtain ⟨rfl, hkey⟩ := hseals.row hid
    have hput :=
      h.putLeaves hc (hadmits.fresh _ hid) hkey hleaves (hseals.reads hP hK hadmits.length hid)
    refine ⟨_, (Call.apply_of_fileId hpath (by rw [hid]; rfl)).symm, fun path => ?_⟩
    refine (hput path).congr (by rw [Stores.collect_rows]) fun row hrow => Stores.collect_objects ?_
    rw [← Stores.collect_rows] at hrow
    obtain ⟨-, id, _, hkey', hstored, -⟩ := hc'.row path row hrow
    rwa [hkey']
  | @removed nfcPath objectKey hdelete hpath hlookup =>
    have hrow := hc.lookup_eq (hadmits.alone _ hpath) hlookup
    have hsome : (m nfcPath).isSome = true := by
      rw [(h nfcPath).isSome_eq, ← Option.isSome_map, ← hrow]
      rfl
    refine ⟨Function.update m nfcPath none, ?_, h.update (fun path hne => ?_) ?_⟩
    · show (_, true) = c.apply L m
      rw [Call.apply_delete hdelete hpath, hsome]
    · have hrows : (s.rows.erase nfcPath)[path]? = s.rows[path]? := by
        rw [Std.ExtTreeMap.getElem?_erase, if_neg (by simpa using hne.symm)]
      refine ⟨hrows, fun row hold => ?_⟩
      obtain ⟨-, id, _, hkey, hstored, -⟩ := hc'.row path row (hrows.trans hold)
      rw [hkey]
      unfold Stores.without at hstored ⊢
      dsimp only at hstored ⊢
      have herased := Backend.getElem?_erase_of_isSome hstored
      rw [herased] at hstored
      exact herased.trans (Backend.getElem?_erase_of_isSome hstored)
    · exact Std.ExtTreeMap.getElem?_erase_self

omit h in
/-- The name records alone lead where the rows do. -/
theorem Vault.Consistent.lookup_names (halone : v.Alone L s nfcPath) :
    v.lookupObjectKey L (s.objects.view fun _ => .ok none) nfcPath =
      .ok (s.rows[nfcPath]?.map (·.objectKey)) := by
  rw [lookupObjectKey_eq rfl]
  refine congrArg Except.ok ?_
  cases hrow : s.rows[nfcPath]? with
  | some row =>
    obtain ⟨-, fileId, value, hkey, -, hvalue, hopen⟩ := hc.row nfcPath row hrow
    exact namedKey_eq_some.mpr ⟨value, _, Backend.get_eq_ok.mpr hvalue, hopen, hkey.symm⟩
  | none => exact hc.namedKey_eq_none halone hrow

omit hc in
theorem Vault.Contains.getFile {path : String}
    (hpath : Path.normalize L.toUnicode path = .ok nfcPath)
    {view : View} (hlookup : v.lookupObjectKey L view nfcPath =
      .ok (s.rows[nfcPath]?.map (·.objectKey)))
    (hview : view.get = s.objects.get) : v.getFile L view path =
      okOr (.notFound nfcPath) (m nfcPath) := by
  have hcontent := h nfcPath
  unfold Vault.getFile resolve
  simp only [hpath, hlookup, ofCrypto, Except.mapError, ok_bind]
  cases hm : m nfcPath with
  | none =>
    rw [hm] at hcontent
    rw [show s.rows[nfcPath]? = none from hcontent]
    rfl
  | some data =>
    rw [hm] at hcontent
    obtain ⟨row, object, hrow, hstored, hreads⟩ := hcontent
    rw [hrow]
    exact hreads view nfcPath (by rw [hview]; exact Backend.get_eq_ok.mpr hstored)

theorem Vault.Ran.contains (hP : L.toPrimitives.Lawful) (hK : L.toKemPrimitives.Lawful)
    {calls : List (Call × Except CoreError Bool)} (hran : v.Ran L s calls s') :
    ∃ m', FilesAfter L m calls m' ∧ v.Contains L s' m' ∧ v.Consistent L s' := by
  induction hran generalizing m with
  | done => exact ⟨m, .done, h, hc⟩
  | call hadmits hrun _ ih =>
    obtain ⟨m1, hdoes, h1⟩ := h.call hc hP hK hadmits hrun
    obtain ⟨m', hafter, hend⟩ := ih (hc.effect hP hadmits (Call.effect hP hadmits.length hrun)) h1
    exact ⟨m', .call hdoes hafter, hend⟩

end Files

/-- After every sequence of puts, shares and deletes of one client, over stores that work, each path
reads as a map from paths to contents that every call has changed as it says; and it reads the same
on another device, whose index is empty, through the name records. -/
theorem Vault.reads_files_after (L : Libraries) (v : Vault) (hP : L.toPrimitives.Lawful)
    (hK : L.toKemPrimitives.Lawful) {s s' : Stores} {calls : List (Call × Except CoreError Bool)}
    (hrows : s.rows = ∅) (hnames : ∀ key value record, s.objects[key]? = some value →
      v.nameKeys.openRecord L.toPrimitives L.keyedHash v.vaultId key value ≠ .ok record)
    (hran : v.Ran L s calls s') :
    ∃ m, FilesAfter L (fun _ => none) calls m ∧ ∀ path nfcPath,
      Path.normalize L.toUnicode path = .ok nfcPath → v.Alone L s' nfcPath →
      v.getFile L s'.view path = okOr (.notFound nfcPath) (m nfcPath) ∧
      v.getFile L (s'.objects.view fun _ => .ok none) path =
        okOr (.notFound nfcPath) (m nfcPath) := by
  have hempty : v.Contains L s fun _ => none := by
    intro path
    show s.rows[path]? = none
    rw [hrows]
    rfl
  obtain ⟨m, hafter, hcontains, hconsistent⟩ :=
    hran.contains (Vault.History.consistent hP (.start hrows hnames)) hempty hP hK
  refine ⟨m, hafter, fun path nfcPath hpath halone => ⟨?_, ?_⟩⟩
  · obtain ⟨found, hfound⟩ := lookupObjectKey_isOk L v s' nfcPath
    have hlookup := hconsistent.lookup_eq halone hfound
    exact hcontains.getFile hpath (hlookup ▸ hfound) rfl
  · exact hcontains.getFile hpath (hconsistent.lookup_names halone) rfl

theorem sharingLibraries_lawful : sharingLibraries.toKemPrimitives.Lawful where
  x25519_comm _ _ := rfl
  decapsulate_encapsulate _ m ct shared h := by
    simp only [sharingLibraries, clearLibraries, Option.some.injEq, Prod.mk.injEq] at h
    obtain ⟨rfl, rfl⟩ := h
    refine congrArg some (Block.slice_eq (t := List.replicate (mlkem768CtLen - 32) 0) ?_)
    show m.bytes.take mlkem768CtLen ++ List.replicate (mlkem768CtLen - (m.bytes.length - 0)) 0 = _
    rw [List.take_of_length_le (by simp), m.length]

theorem Vault.reads_files_after_put : ∃ s,
    sampleVault.Ran sharingLibraries ⟨∅, ∅⟩
      [(.putShared sampleSharedDraws none "a" [] [] .unknown, .ok true)] s ∧
    sampleVault.getFile sharingLibraries s.view "a" = .ok [] ∧
    sampleVault.getFile sharingLibraries (s.objects.view fun _ => .ok none) "a" = .ok [] := by
  have hrecord : ∀ r ∈ sampleVault.recipientSet sharingLibraries [],
      (sealDgd1 sharingLibraries.toPrimitives sharingLibraries.toKemPrimitives
        sharingLibraries.toUnicode r
        ((sharedObject sampleSharedDraws.object []).take objectHeadLen)
        (Vault.sharedInfo sharingLibraries "a" default [])
          (sampleSharedDraws.discovery 0)).toOption.isSome := by
    decide +kernel
  obtain ⟨s1, previous, value, hput, -, hdiscovery⟩ :=
    @Vault.exists_run_putFileShared sharingLibraries
    sampleVault "a" clearPrimitives_lawful sampleSharedDraws none "a" [] _ [] .unknown (by decide)
    normalize_a (sealShared_sharedObject (by decide +kernel)) (by
      intro _ r hr
      obtain ⟨record, hok⟩ := Option.isSome_iff_exists.mp (hrecord r hr)
      exact ⟨record, toOption_eq_some.mp hok⟩) ⟨∅, ∅⟩
  have hid : (Vault.sharedInfo sharingLibraries "a" default []).fileId = default := rfl
  have hside : Stores.SameOff (SideKey default) _ s1 := Stores.SameOff.run
    (Vault.asks_writeDiscoveryRecords hid (fun keyId => Or.inr ⟨keyId, rfl⟩) 0 _) hdiscovery
  have hran : sampleVault.Ran sharingLibraries ⟨∅, ∅⟩
      [(.putShared sampleSharedDraws none "a" [] [] .unknown, .ok true)]
      (s1.collect previous (objectKeyOf sampleSharedDraws.object.fileId)) :=
    .call ⟨by decide, fun _ _ => rfl, fun _ _ other row hother => by cases hother⟩
      (Prog.run_fallible_bind.mpr (Or.inr ⟨(), _, hput, Prog.run_pure.mpr ⟨rfl, rfl⟩⟩)) .done
  obtain ⟨m, hafter, hreads⟩ := Vault.reads_files_after sharingLibraries sampleVault
    clearPrimitives_lawful sharingLibraries_lawful rfl (fun _ _ _ hvalue => by cases hvalue) hran
  have hm : m "a" = some [] := by
    cases hafter with
    | call hdoes h =>
      cases h
      rw [Call.Does, Call.apply_of_fileId normalize_a rfl] at hdoes
      rw [(Prod.mk.inj hdoes).1]
      exact Function.update_self ..
  have hread := hreads "a" "a" normalize_a (by
    intro other row hother _
    rw [Stores.collect_rows, hside.rows, Stores.withRow, Std.ExtTreeMap.getElem?_insert] at hother
    split at hother
    · rename_i heq
      exact (Std.compare_eq_iff_eq.mp heq).symm
    · cases hother)
  rw [hm] at hread
  exact ⟨_, hran, hread⟩

end Dctl.Core
