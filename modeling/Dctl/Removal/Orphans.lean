import Dctl.Core.History
import Dctl.Removal.Reclaim

/-! Histories of one vault with several clients, each with an index of its own, and what a sweep
with one of these indexes deletes. -/

namespace Dctl.Removal

open ProofKit Crypto Object Index Dctl.Core Cli.Paths List

section World

variable {Client : Type}

/-- The objects of the vault, and the index of each client. -/
structure World (Client : Type) where
  objects : Backend
  rows : Client → Core.Rows

def World.stores (w : World Client) (i : Client) : Stores := ⟨w.objects, w.rows i⟩

variable [DecidableEq Client]

def World.after (w : World Client) (i : Client) (s : Stores) : World Client :=
  ⟨s.objects, Function.update w.rows i s.rows⟩

section After

variable {w : World Client} {i j : Client} {s : Stores}

theorem World.rows_after_self : (w.after i s).rows i = s.rows := Function.update_self ..

theorem World.rows_after_of_ne (hne : j ≠ i) : (w.after i s).rows j = w.rows j :=
  Function.update_of_ne hne ..

end After

abbrev Made (Client : Type) := List (Client × Call)

/-- The client has made a put with this file id. -/
def PutBy (made : Made Client) (i : Client) (fileId : FileId) : Prop :=
  ∃ c, (i, c) ∈ made ∧ c.fileId? = some fileId

/-- What the calls of the clients, and sweeps with their indexes, lead to from empty indexes and
without a name record of the vault.  An id is drawn once. -/
inductive History (L : Libraries) (v : Vault) : Made Client → World Client → Prop
  | start {w : World Client} (hrows : ∀ i, w.rows i = ∅)
      (hnames : ∀ key value record, w.objects[key]? = some value →
        v.nameKeys.openRecord L.toPrimitives L.keyedHash v.vaultId key value ≠ .ok record) :
      History L v [] w
  | call {made : Made Client} {w : World Client} {i : Client} {c : Call} {x : Except CoreError Bool}
      {s' : Stores} (h : History L v made w) (hlen : c.data.length < 2 ^ 64)
      (hfresh : ∀ fileId, c.fileId? = some fileId → ∀ j, ¬PutBy made j fileId)
      (hrun : Prog.Run honest (c.run L v).run (w.stores i) x s') :
        History L v ((i, c) :: made) (w.after i s')
  | sweep {made : Made Client} {w : World Client} (h : History L v made w)
    (q : Request) (i : Client)
      (store : Store) (hstore : store.objects = w.objects) :
      History L v made { w with objects := (q.orphans (.vault (w.rows i)) store).store.objects }

end World

section Kept

variable {Client : Type} {L : Libraries} {v : Vault} {made : Made Client}
  {w : World Client} {i : Client} {c : Call} {s' : Stores}

/-- Some name record of the store opens to this one. -/
def Resolves (L : Libraries) (v : Vault) (objects : Backend) (record : NameRecord) : Prop :=
  ∃ key value, objects[key]? = some value ∧
    v.nameKeys.openRecord L.toPrimitives L.keyedHash v.vaultId key value = .ok record

/-- Whatever a name record leads to is in the row of the client that put it. -/
structure Kept (L : Libraries) (v : Vault) (made : Made Client) (w : World Client) : Prop where
  drawn : ∀ i j fileId, PutBy made i fileId → PutBy made j fileId → i = j
  own : ∀ (i : Client) (path : String) (row : Record), (w.rows i)[path]? = some row →
    ∃ fileId, row.objectKey = objectKeyOf fileId ∧ PutBy made i fileId
  named : ∀ record, Resolves L v w.objects record → ∃ i row, PutBy made i record.fileId ∧
    (w.rows i)[record.path]? = some row ∧ row.objectKey = objectKeyOf record.fileId

theorem PutBy.cons {fileId : FileId} (h : PutBy made i fileId) (entry : Client × Call) :
    PutBy (entry :: made) i fileId := by
  obtain ⟨c, hmem, hid⟩ := h
  exact ⟨c, mem_cons_of_mem _ hmem, hid⟩

theorem putBy_cons {j : Client} {fileId : FileId} (h : PutBy ((i, c) :: made) j fileId) :
    (j = i ∧ c.fileId? = some fileId) ∨ PutBy made j fileId := by
  obtain ⟨made', hmem, hid⟩ := h
  rcases mem_cons.mp hmem with heq | hmem
  · cases heq
    exact .inl ⟨rfl, hid⟩
  · exact .inr ⟨made', hmem, hid⟩

theorem resolves_iff {objects : Backend} {record : NameRecord} :
    Resolves L v objects record ↔ ∃ value, objects[v.nameKey L record.path]? = some value ∧
      v.nameKeys.openRecord L.toPrimitives L.keyedHash v.vaultId (v.nameKey L record.path) value =
        .ok record := by
  constructor
  · intro h
    obtain ⟨key, value, hstored, hopen⟩ := h
    have hkey := Vault.nameKey_of_openRecord hopen
    subst hkey
    exact ⟨value, hstored, hopen⟩
  · intro h
    obtain ⟨value, hstored, hopen⟩ := h
    exact ⟨_, value, hstored, hopen⟩

theorem Resolves.congr {objects objects' : Backend} {record : NameRecord}
    (hsame : objects'[v.nameKey L record.path]? = objects[v.nameKey L record.path]?)
    (h : Resolves L v objects' record) : Resolves L v objects record := by
  rw [resolves_iff] at h ⊢
  rw [hsame] at h
  exact h

namespace Kept

theorem drawn_cons (h : Kept L v made w)
    (hfresh : ∀ fileId, c.fileId? = some fileId → ∀ j, ¬PutBy made j fileId) (j k : Client)
    (fileId : FileId) (hj : PutBy ((i, c) :: made) j fileId)
      (hk : PutBy ((i, c) :: made) k fileId) :
    j = k := by
  rcases putBy_cons hj with ⟨rfl, hid⟩ | hj
  · rcases putBy_cons hk with ⟨rfl, -⟩ | hk
    · rfl
    · exact absurd hk (hfresh fileId hid k)
  · rcases putBy_cons hk with ⟨-, hid⟩ | hk
    · exact absurd hj (hfresh fileId hid j)
    · exact h.drawn j k fileId hj hk

theorem lookup_objectKey (h : Kept L v made w) {nfcPath found : String}
    (hlookup : v.lookupObjectKey L (w.stores i).view nfcPath = .ok (some found)) :
    ∃ fileId, found = objectKeyOf fileId := by
  rw [Vault.lookupObjectKey_eq rfl, Except.ok.injEq] at hlookup
  cases hrow : (w.stores i).rows[nfcPath]? with
  | some row =>
    obtain ⟨fileId, hkey, -⟩ := h.own i nfcPath row hrow
    rw [hrow] at hlookup
    cases hlookup
    exact ⟨fileId, hkey⟩
  | none =>
    rw [hrow] at hlookup
    obtain ⟨value, record, -, -, rfl⟩ := Vault.namedKey_eq_some.mp hlookup
    exact ⟨record.fileId, rfl⟩

variable [DecidableEq Client]

theorem same (h : Kept L v made w)
    (hfresh : ∀ fileId, c.fileId? = some fileId → ∀ j, ¬PutBy made j fileId)
    (hrows : s'.rows = w.rows i)
    (hnames : ∀ nfcPath, s'.objects[v.nameKey L nfcPath]? = w.objects[v.nameKey L nfcPath]?) :
    Kept L v ((i, c) :: made) (w.after i s') := by
  have hupdate : (w.after i s').rows = w.rows := by
    unfold World.after
    rw [hrows, Function.update_eq_self]
  constructor
  · exact h.drawn_cons hfresh
  · intro j path row hrow
    rw [hupdate] at hrow
    obtain ⟨fileId, hkey, hput⟩ := h.own j path row hrow
    exact ⟨fileId, hkey, hput.cons _⟩
  · intro record hresolves
    obtain ⟨j, row, hput, hrow, hkey⟩ := h.named record (hresolves.congr (hnames record.path))
    rw [hupdate]
    exact ⟨j, row, hput.cons _, hrow, hkey⟩

theorem put (h : Kept L v made w) (hP : L.toPrimitives.Lawful)
    (hfresh : ∀ fileId, c.fileId? = some fileId → ∀ j, ¬PutBy made j fileId) {fileId : FileId}
    (hid : c.fileId? = some fileId) {object : Bytes} {row : Record}
    (hkey : row.objectKey = objectKeyOf fileId) {s1 : Stores}
    (hleaves : v.PutLeaves L (w.stores i) fileId object row s1) (hrows : s'.rows = s1.rows)
    (hnames : ∀ nfcPath, s'.objects[v.nameKey L nfcPath]? = s1.objects[v.nameKey L nfcPath]?) :
    Kept L v ((i, c) :: made) (w.after i s') := by
  obtain ⟨nonce, value, hsealed, hside⟩ := hleaves
  have hopen := NameKeys.openRecord_sealRecord hP hsealed
  have hput : PutBy ((i, c) :: made) i fileId := ⟨c, mem_cons_self, hid⟩
  have hrowsAt : s'.rows = (w.rows i).insert row.path row := by
    rw [hrows, hside.rows]
    rfl
  have hnamesAt : ∀ nfcPath, s'.objects[v.nameKey L nfcPath]? =
      if v.nameKey L row.path = v.nameKey L nfcPath then some value
      else w.objects[v.nameKey L nfcPath]? := by
    intro nfcPath
    rw [hnames, hside.objects _ (Vault.not_sideKey_nameKey fileId nfcPath)]
    simp only [Stores.withRow, Stores.withName, Stores.withObject, World.stores]
    rw [Std.ExtTreeMap.getElem?_insert]
    simp only [Std.LawfulEqCmp.compare_eq_iff_eq]
    by_cases heq : v.nameKey L row.path = v.nameKey L nfcPath
    · rw [if_pos heq, if_pos heq]
    · rw [if_neg heq, if_neg heq,
        Backend.getElem?_insert_of_ne (Vault.nameKey_ne_objectKeyOf nfcPath fileId).symm]
  constructor
  · exact h.drawn_cons hfresh
  · intro j path other hother
    by_cases hj : j = i
    · subst hj
      rw [World.rows_after_self, hrowsAt, Std.ExtTreeMap.getElem?_insert] at hother
      split at hother
      · cases hother
        exact ⟨fileId, hkey, hput⟩
      · obtain ⟨old, hold, hputOld⟩ := h.own j path other hother
        exact ⟨old, hold, hputOld.cons _⟩
    · rw [World.rows_after_of_ne hj] at hother
      obtain ⟨old, hold, hputOld⟩ := h.own j path other hother
      exact ⟨old, hold, hputOld.cons _⟩
  · intro record hresolves
    by_cases heq : v.nameKey L row.path = v.nameKey L record.path
    · -- The record is the one of this put.
      obtain ⟨stored, hstored, hopens⟩ := resolves_iff.mp hresolves
      rw [World.after, hnamesAt, if_pos heq] at hstored
      cases hstored
      rw [← heq, hopen] at hopens
      cases hopens
      refine ⟨i, row, hput, ?_, hkey⟩
      rw [World.rows_after_self, hrowsAt]
      exact Std.ExtTreeMap.getElem?_insert_self
    · obtain ⟨j, old, hputOld, hrowOld, hkeyOld⟩ := h.named record
        (hresolves.congr ((hnamesAt record.path).trans (if_neg heq)))
      refine ⟨j, old, hputOld.cons _, ?_, hkeyOld⟩
      by_cases hj : j = i
      · subst hj
        have hne : row.path ≠ record.path := fun hpath => heq (hpath ▸ rfl)
        rw [World.rows_after_self, hrowsAt, Std.ExtTreeMap.getElem?_insert,
          if_neg (by simpa using hne)]
        exact hrowOld
      · rw [World.rows_after_of_ne hj]
        exact hrowOld

theorem removed (h : Kept L v made w)
    (hfresh : ∀ fileId, c.fileId? = some fileId → ∀ j, ¬PutBy made j fileId) {nfcPath : String}
    {fileId : FileId}
    (hs : s' = (w.stores i).without (objectKeyOf fileId) (v.nameKey L nfcPath) nfcPath) :
    Kept L v ((i, c) :: made) (w.after i s') := by
  subst hs
  have hrows : ∀ (path : String) (row : Record), ((w.rows i).erase nfcPath)[path]? = some row →
      (w.rows i)[path]? = some row := by
    intro path row hrow
    rw [Std.ExtTreeMap.getElem?_erase] at hrow
    split at hrow
    · cases hrow
    · exact hrow
  constructor
  · exact h.drawn_cons hfresh
  · intro j path row hrow
    have hbefore : (w.rows j)[path]? = some row := by
      by_cases hj : j = i
      · subst hj
        rw [World.rows_after_self] at hrow
        exact hrows path row hrow
      · rwa [World.rows_after_of_ne hj] at hrow
    obtain ⟨old, hold, hput⟩ := h.own j path row hbefore
    exact ⟨old, hold, hput.cons _⟩
  · intro record hresolves
    have hne : v.nameKey L nfcPath ≠ v.nameKey L record.path := by
      intro heq
      obtain ⟨stored, hstored, -⟩ := resolves_iff.mp hresolves
      rw [World.after, Stores.without, heq, Std.ExtTreeMap.getElem?_erase_self] at hstored
      cases hstored
    have hsame : (w.after i ((w.stores i).without (objectKeyOf fileId) (v.nameKey L nfcPath)
        nfcPath)).objects[v.nameKey L record.path]? = w.objects[v.nameKey L record.path]? := by
      rw [World.after, Stores.without, Backend.getElem?_erase_of_ne hne,
        Backend.getElem?_erase_of_ne (Vault.nameKey_ne_objectKeyOf record.path fileId).symm]
      rfl
    obtain ⟨j, row, hput, hrow, hkey⟩ := h.named record (hresolves.congr hsame)
    refine ⟨j, row, hput.cons _, ?_, hkey⟩
    by_cases hj : j = i
    · subst hj
      have hpath : nfcPath ≠ record.path := fun heq => hne (heq ▸ rfl)
      rw [World.rows_after_self, Stores.without, Std.ExtTreeMap.getElem?_erase,
        if_neg (by simpa using hpath)]
      exact hrow
    · rw [World.rows_after_of_ne hj]
      exact hrow

theorem collect_names {s : Stores} {previous : Option String} (current : String)
    (hprevious : ∀ old, previous = some old → ∃ fileId, old = objectKeyOf fileId) :
    (s.collect previous current).rows = s.rows ∧
      ∀ nfcPath, (s.collect previous current).objects[v.nameKey L nfcPath]? =
        s.objects[v.nameKey L nfcPath]? := by
  unfold Stores.collect
  cases previous with
  | none => exact ⟨rfl, fun _ => rfl⟩
  | some old =>
    obtain ⟨fileId, rfl⟩ := hprevious old rfl
    dsimp only
    split
    · exact ⟨rfl, fun _ => rfl⟩
    · refine ⟨rfl, fun nfcPath => ?_⟩
      exact Backend.getElem?_erase_of_ne (Vault.nameKey_ne_objectKeyOf nfcPath fileId).symm

theorem effect (h : Kept L v made w) (hP : L.toPrimitives.Lawful)
    (hfresh : ∀ fileId, c.fileId? = some fileId → ∀ j, ¬PutBy made j fileId)
    {x : Except CoreError Bool} (heffect : v.Effect L (w.stores i) c x s') :
    Kept L v ((i, c) :: made) (w.after i s') := by
  cases heffect with
  | beside hfile hside =>
    exact h.same hfresh hside.rows fun nfcPath =>
      hside.objects _ (Vault.not_sideKey_nameKey _ nfcPath)
  | stored hpath hid hseals hleaves =>
    exact h.put hP hfresh hid (hseals.row hid).2 hleaves rfl fun _ => rfl
  | @replaced nfcPath previous fileId object row s1 hpath hlookup hid hseals hleaves =>
    have hprevious : ∀ old, previous = some old → ∃ fileId, old = objectKeyOf fileId := by
      intro old hold
      rw [hold] at hlookup
      exact h.lookup_objectKey hlookup
    obtain ⟨hrows, hnames⟩ := @collect_names L v s1 previous (objectKeyOf fileId) hprevious
    exact h.put hP hfresh hid (hseals.row hid).2 hleaves hrows hnames
  | removed hdelete hpath hlookup =>
    obtain ⟨fileId, rfl⟩ := h.lookup_objectKey hlookup
    exact h.removed hfresh rfl

end Kept

end Kept

section Keeps

variable {Client : Type} {L : Libraries} {v : Vault} {made : Made Client}
  {w : World Client} {i : Client}
  {q : Request} {store : Store}

/-- Every stored object that a name record resolves to is there afterwards. -/
def Keeps (L : Libraries) (v : Vault) (w : World Client) (after : Backend) : Prop :=
  ∀ record, Resolves L v w.objects record → (w.objects[objectKeyOf record.fileId]?).isSome →
    (after[objectKeyOf record.fileId]?).isSome

/-- Of the stored objects that a name record resolves to, the client put those that the sweep could
take. -/
def TakesOwn (L : Libraries) (v : Vault) (made : Made Client) (w : World Client)
    (i : Client) (q : Request)
    (store : Store) : Prop :=
  ∀ record, Resolves L v w.objects record → (w.objects[objectKeyOf record.fileId]?).isSome →
    q.Takes store (objectKeyOf record.fileId) → PutBy made i record.fileId

theorem listed_objectKeyOf (fileId : FileId) :
    listed vaultObjectKeyPrefix.toList (objectKeyOf fileId).toList = true := by
  unfold listed objectKeyOf vaultObjectKeyPrefix objectKeyPrefix
  rw [String.toList_append, Bool.and_eq_true, isPrefixOf_iff_prefix]
  exact ⟨prefix_append _ _, rfl⟩

theorem not_listed_nameKey (nfcPath : String) :
    listed vaultObjectKeyPrefix.toList (v.nameKey L nfcPath).toList = false := by
  have hname : (v.nameKey L nfcPath).toList.head? = some 'n' := by
    show ("n/" ++ _ : String).toList.head? = _
    rw [String.toList_append]
    rfl
  unfold listed
  rw [Bool.and_eq_false_iff]
  refine .inl ?_
  obtain ⟨c, rest, hcons⟩ := exists_cons_of_ne_nil (l := (v.nameKey L nfcPath).toList) (by
    intro hnil
    rw [hnil] at hname
    cases hname)
  rw [hcons] at hname ⊢
  cases hname
  rfl

theorem Kept.sweep (h : Kept L v made w) (q : Request) (i : Client)
    (hstore : store.objects = w.objects) :
    Kept L v made { w with objects := (q.orphans (.vault (w.rows i)) store).store.objects } where
  drawn := h.drawn
  own := h.own
  named record hresolves := by
    apply h.named record
    refine hresolves.congr ?_
    rw [orphans_objects, if_neg, hstore]
    rintro ⟨-, hlisted, -⟩
    rw [not_listed_nameKey] at hlisted
    cases hlisted

theorem History.kept [DecidableEq Client] (hP : L.toPrimitives.Lawful) (h : History L v made w) :
    Kept L v made w := by
  induction h with
  | start hrows hnames =>
    constructor
    · rintro i j fileId ⟨c, hmem, -⟩
      cases hmem
    · intro i path row hrow
      rw [hrows] at hrow
      cases hrow
    · rintro record ⟨key, value, hstored, hopen⟩
      exact absurd hopen (hnames key value record hstored)
  | call h hlen hfresh hrun ih => exact ih.effect hP hfresh (Call.effect hP hlen hrun)
  | sweep h q i store hstore ih => exact ih.sweep q i hstore

end Keeps

def works (s : Stores) : (r : Core.Request) → r.Answer × Stores
  | .get key => (s.objects.get key, s)
  | .getRange key offset length => (s.objects.getRange key offset length, s)
  | .put key data => (.ok (), { s with objects := s.objects.insert key data })
  | .delete key => (.ok (), { s with objects := s.objects.erase key })
  | .listPage start cursor =>
    (.ok ⟨s.objects.keys.filter fun key =>
      (stripPrefix start key).isSome && decide (∀ c ∈ cursor, c < key), none⟩, s)
  | .indexGet path => (.ok s.rows[path]?, s)
  | .indexPut record => (.ok (), { s with rows := s.rows.insert record.path record })
  | .indexDelete path => (.ok (), { s with rows := s.rows.erase path })

theorem works_honest (s : Stores) (r : Core.Request) : honest s r (works s r).1 (works s r).2 := by
  cases r with
  | listPage start cursor =>
    refine ⟨⟨_, rfl, ?_, ?_, ?_⟩, rfl⟩
    · exact Std.ExtTreeMap.nodup_keys.filter _
    · intro key
      simp only [mem_filter, Std.ExtTreeMap.mem_keys, Bool.and_eq_true, decide_eq_true_eq]
      constructor
      · intro h
        exact ⟨⟨h.1, h.2.1, h.2.2⟩, fun c hc => by cases hc⟩
      · intro h
        exact ⟨h.1.present, h.1.start, h.1.after⟩
    · intro c hc
      cases hc
  | get key | getRange key offset length | put key data | delete key | indexGet path
  | indexPut record | indexDelete path => exact ⟨rfl, rfl⟩

def samplePut (fileId : FileId) : Call :=
  .put ⟨⟨default, fileId, default, default, default⟩, default⟩ none "a" [] .unknown

def sampleCall (w : World Bool) (i : Bool) (fileId : FileId) : World Bool :=
  w.after i (((samplePut fileId).run clearLibraries sampleVault).run.eval works (w.stores i)).2

def otherId : FileId := ⟨List.replicate 16 1, by decide⟩

def oneWrote : World Bool := sampleCall ⟨∅, fun _ => ∅⟩ true default

/-- The other one, with an empty index, puts another file in its place. -/
def bothWrote : World Bool := sampleCall oneWrote false otherId

/-- A sweep a day later. -/
def sampleSweep : Request where
  op := "cleanup"
  remote := "vault"
  aging := ⟨86400, 86400 * nanosPerSecond⟩
  named := true
  dryRun := false
  display := toString

/-- The store of a vault, last written at the epoch, in which every delete goes through. -/
def sampleStore (w : World Bool) : Store := ⟨w.objects, fun _ => some 0, fun _ => none⟩

theorem objects_sampleStore (w : World Bool) : (sampleStore w).objects = w.objects := rfl

theorem sampleCall_run (w : World Bool) (i : Bool) (fileId : FileId) :
    ∃ x s', Prog.Run honest ((samplePut fileId).run clearLibraries sampleVault).run
      (w.stores i) x s' ∧
      w.after i s' = sampleCall w i fileId :=
  ⟨_, _, Prog.run_eval works_honest _ _, rfl⟩

theorem oneWrote_history :
    History clearLibraries sampleVault [(true, samplePut default)] oneWrote := by
  obtain ⟨x, s', hrun, hafter⟩ := sampleCall_run ⟨∅, fun _ => ∅⟩ true default
  rw [oneWrote, ← hafter]
  refine .call (.start (fun _ => rfl) ?_) (by decide) ?_ hrun
  · intro key value record hstored
    cases hstored
  · rintro fileId - j ⟨c, hmem, -⟩
    cases hmem

theorem bothWrote_history : History clearLibraries sampleVault
    [(false, samplePut otherId), (true, samplePut default)] bothWrote := by
  obtain ⟨x, s', hrun, hafter⟩ := sampleCall_run oneWrote false otherId
  rw [bothWrote, ← hafter]
  refine .call oneWrote_history (by decide) ?_ hrun
  rintro fileId hid j ⟨c, hmem, hput⟩
  cases mem_singleton.mp hmem
  cases hid
  revert hput
  decide

def sampleName (w : World Bool) : Option NameRecord := do
  let value ← w.objects[sampleVault.nameKey clearLibraries "a"]?
  (sampleVault.nameKeys.openRecord clearPrimitives clearLibraries.keyedHash sampleVault.vaultId
    (sampleVault.nameKey clearLibraries "a") value).toOption

theorem resolves_sampleName {w : World Bool} {record : NameRecord}
    (h : sampleName w = some record) :
    Resolves clearLibraries sampleVault w.objects record := by
  simp only [sampleName, Option.bind_eq_bind, Option.bind_eq_some_iff] at h
  obtain ⟨value, hstored, hopen⟩ := h
  refine ⟨_, value, hstored, ?_⟩
  cases hread :
    sampleVault.nameKeys.openRecord clearPrimitives clearLibraries.keyedHash sampleVault.vaultId
      (sampleVault.nameKey clearLibraries "a") value with
  | error e =>
    rw [hread] at hopen
    cases hopen
  | ok opened =>
    rw [hread] at hopen
    cases hopen
    exact hread

end Dctl.Removal
