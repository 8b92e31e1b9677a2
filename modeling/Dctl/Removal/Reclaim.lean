import Dctl.Core.Stored
import Dctl.Removal.Selection

/-! The sweep of the content objects that no index row refers to (`removal/reclaim.rs`). -/

namespace Dctl.Removal

open ProofKit Index Cli.Paths Dctl.Core List

/-- The age test of every piece of debris: the clock in seconds, and the least age in nanoseconds.
-/
structure Aging where
  now : Int
  minAge : Nat
  deriving DecidableEq

inductive Sweepable where
  | reclaim
  | held (reason : String)
  deriving DecidableEq

def ageUnknownReason : String := "its age cannot be established, and unknown is not old"

def nanosPerSecond : Nat := 10 ^ 9

def Aging.ageOf (a : Aging) (modifiedUnix : Option Int) : Option Nat :=
  modifiedUnix.map fun modified => (min (a.now - modified) Int64.maxValue.toInt).toNat

/-- The verdict on a piece of debris.  `display` writes a number of seconds. -/
def Aging.verdict (a : Aging) (display : Nat → String) (modifiedUnix : Option Int) : Sweepable :=
  match a.ageOf modifiedUnix with
  | none => .held ageUnknownReason
  | some age =>
    if age * nanosPerSecond < a.minAge then
      .held ("younger than " ++ display (a.minAge / nanosPerSecond))
    else .reclaim

/-- The backend of a sweep: its objects, the times it reports, and the message of each delete that
it fails. -/
structure Store where
  objects : Backend
  modified : String → Option Int
  refuses : String → Option String

namespace Store

variable (store : Store)

def enumerate (start : String) : List Entry :=
  (store.objects.toList.filter fun object => listed start.toList object.1.toList).map fun object =>
    ⟨object.1.toList, some object.2.length, store.modified object.1⟩

def delete (key : String) : Except String Unit × Store :=
  match store.refuses key with
  | some message => (.error message, store)
  | none => (.ok (), { store with objects := store.objects.erase key })

def countUnder (start : String) : Nat := (store.enumerate start).length

end Store

structure Debris where
  key : String
  size : Option Nat
  kind : String
  deriving DecidableEq

inductive Line where
  | wouldRemove (item : Debris)
  | removed (item : Debris)
  | held (item : Debris) (reason : String)
  | failed (item : Debris) (reason : String)
  | unsupported (kind reason : String)
  deriving DecidableEq

structure Audited where
  op : String
  remote : String
  path : String
  size : Nat
  objects : Nat
  ok : Bool
  deriving DecidableEq

structure Request where
  op : String
  remote : String
  aging : Aging
  named : Bool
  dryRun : Bool
  display : Nat → String

/-- A sweep under way: the store, the report, the log and the errors so far. -/
structure Sweep where
  store : Store
  report : List Line := []
  audit : List Audited := []
  errors : Nat := 0

namespace Sweep

variable (sweep : Sweep)

def say (line : Line) : Sweep := { sweep with report := sweep.report ++ [line] }

def error (counts : Bool) : Sweep := { sweep with errors := sweep.errors + if counts then 1 else 0 }

def record (record : Audited) : Sweep := { sweep with audit := sweep.audit ++ [record] }

end Sweep

def removalKindOrphan : String := "orphan"
def vaultObjectKeyPrefix : String := "o/"
def vaultNameKeyPrefix : String := "n/"

def cleanupStaleIndexHint : String :=
  "The index does not list every file this vault holds, so an object missing from it is not " ++
    "evidence of anything. Run `dctl index rebuild` and sweep again."

/-- What a removal works on: a plain store, or a vault with its index. -/
inductive Medium where
  | plain
  | vault (rows : Core.Rows)

def objectKeys (rows : Core.Rows) : List String := rows.toList.map fun row => row.2.objectKey

def Medium.indexedObjectKeys : Medium → Option (List String)
  | plain => none
  | vault rows => some (objectKeys rows)

namespace Request

variable (q : Request)

def reclaim (sweep : Sweep) (entry : Entry) (kind : String) : Sweep :=
  let item : Debris := ⟨String.ofList entry.path, entry.size, kind⟩
  match q.aging.verdict q.display entry.modifiedUnix with
  | .held reason => sweep.say (.held item reason)
  | .reclaim =>
    if q.dryRun then sweep.say (.wouldRemove item)
    else
      let record (ok : Bool) : Audited := ⟨q.op, q.remote, item.key, item.size.getD 0, 1, ok⟩
      match sweep.store.delete item.key with
      | (.ok (), store) => (({ sweep with store }).say (.removed item)).record (record true)
      | (.error message, _) => ((sweep.error true).say (.failed item message)).record (record false)

def visit (referenced : List String) (sweep : Sweep) (entry : Entry) : Sweep :=
  if String.ofList entry.path ∈ referenced then sweep else q.reclaim sweep entry removalKindOrphan

def orphans (medium : Medium) (store : Store) : Sweep :=
  match medium.indexedObjectKeys with
  | none =>
    (Sweep.error { store } q.named).say (.unsupported "orphans"
      "a plain object store has no index, so no object can be shown to be unreferenced")
  | some indexed =>
    let nameRecords := store.countUnder vaultNameKeyPrefix
    if nameRecords ≠ indexed.length then
      (Sweep.error { store } q.named).say (.unsupported "orphans"
        ("the vault holds " ++ toString nameRecords ++ " name record(s) but the index has " ++
          toString indexed.length ++ " row(s). " ++ cleanupStaleIndexHint))
    else (store.enumerate vaultObjectKeyPrefix).foldl (q.visit indexed) { store }

/-- The sweep deletes what is stored under the key, where it gets that far. -/
def Takes (store : Store) (key : String) : Prop :=
  q.aging.verdict q.display (store.modified key) = .reclaim ∧ q.dryRun = false ∧
    store.refuses key = none

instance (store : Store) (key : String) : Decidable (q.Takes store key) :=
  inferInstanceAs (Decidable (_ ∧ _ ∧ _))

end Request

section Deletes

variable {q : Request} {store : Store} {sweep : Sweep} {indexed : List String} {key start : String}

theorem mem_enumerate {entry : Entry} :
    entry ∈ store.enumerate start ↔ ∃ key bytes, store.objects[key]? = some bytes ∧
      listed start.toList key.toList = true ∧
      entry = ⟨key.toList, some bytes.length, store.modified key⟩ := by
  simp only [Store.enumerate, mem_map, mem_filter, Prod.exists,
    Std.ExtTreeMap.mem_toList_iff_getElem?_eq_some]
  constructor
  · intro h
    obtain ⟨key, bytes, ⟨hstored, hlisted⟩, rfl⟩ := h
    exact ⟨key, bytes, hstored, hlisted, rfl⟩
  · intro h
    obtain ⟨key, bytes, hstored, hlisted, rfl⟩ := h
    exact ⟨key, bytes, ⟨hstored, hlisted⟩, rfl⟩

section

variable {entry : Entry} (hpath : entry.path = key.toList)
  (hmodified : entry.modifiedUnix = sweep.store.modified key)
include hpath hmodified

theorem reclaim_takes {kind : String} (htakes : q.Takes sweep.store key) :
    (q.reclaim sweep entry kind).store =
      { sweep.store with objects := sweep.store.objects.erase key } := by
  obtain ⟨hverdict, hdry, hrefuses⟩ := htakes
  unfold Request.reclaim Store.delete
  simp only [hpath, String.ofList_toList, hmodified, hverdict, hdry, hrefuses]
  rfl

theorem reclaim_leaves {kind : String} (htakes : ¬q.Takes sweep.store key) :
    (q.reclaim sweep entry kind).store = sweep.store := by
  unfold Request.reclaim Store.delete
  simp only [hpath, String.ofList_toList, hmodified]
  cases hverdict : q.aging.verdict q.display (sweep.store.modified key) with
  | held reason => rfl
  | reclaim =>
    cases hdry : q.dryRun with
    | true => rfl
    | false =>
      cases hrefuses : sweep.store.refuses key with
      | some message => rfl
      | none => exact absurd ⟨hverdict, hdry, hrefuses⟩ htakes

end

theorem visit_store (q : Request) (indexed : List String) (sweep : Sweep) {entry : Entry}
    (hpath : entry.path = key.toList) (hmodified : entry.modifiedUnix = sweep.store.modified key) :
    (q.visit indexed sweep entry).store =
      { sweep.store with objects :=
          if key ∉ indexed ∧ q.Takes sweep.store key then sweep.store.objects.erase key
          else sweep.store.objects } := by
  unfold Request.visit
  rw [hpath, String.ofList_toList]
  by_cases hindexed : key ∈ indexed
  · rw [if_pos hindexed, if_neg fun h => h.1 hindexed]
  rw [if_neg hindexed]
  by_cases htakes : q.Takes sweep.store key
  · rw [if_pos ⟨hindexed, htakes⟩]
    exact reclaim_takes hpath hmodified htakes
  · rw [if_neg fun h => htakes h.2]
    exact reclaim_leaves hpath hmodified htakes

theorem visits_objects (q : Request) (indexed : List String) {entries : List Entry}
    (hentries : ∀ entry ∈ entries, ∃ key, entry.path = key.toList ∧
      entry.modifiedUnix = store.modified key)
    (hmodified : sweep.store.modified = store.modified)
    (hrefuses : sweep.store.refuses = store.refuses) :
    (entries.foldl (q.visit indexed) sweep).store.objects[key]? =
      if key ∉ indexed ∧ q.Takes store key ∧ ∃ entry ∈ entries, entry.path = key.toList then none
      else sweep.store.objects[key]? := by
  induction entries generalizing sweep with
  | nil =>
    rw [foldl_nil, if_neg]
    intro h
    obtain ⟨-, -, entry, hmem, -⟩ := h
    cases hmem
  | cons entry entries ih =>
    obtain ⟨other, hpath, htime⟩ := hentries entry mem_cons_self
    have hvisit := visit_store q indexed sweep hpath (htime.trans (congrFun hmodified.symm other))
    have htakes : q.Takes sweep.store other ↔ q.Takes store other := by
      unfold Request.Takes
      rw [hmodified, hrefuses]
    rw [foldl_cons, ih (fun e he => hentries e (mem_cons_of_mem _ he))
      (by rw [hvisit]; exact hmodified) (by rw [hvisit]; exact hrefuses), hvisit]
    by_cases hlater : key ∉ indexed ∧ q.Takes store key ∧ ∃ e ∈ entries, e.path = key.toList
    · obtain ⟨hout, htake, e, he, hkey⟩ := hlater
      rw [if_pos ⟨hout, htake, e, he, hkey⟩, if_pos ⟨hout, htake, e, mem_cons_of_mem _ he, hkey⟩]
    rw [if_neg hlater]
    dsimp only
    by_cases hkey : other = key
    · subst hkey
      by_cases hout : other ∉ indexed ∧ q.Takes store other
      · rw [if_pos ⟨hout.1, htakes.mpr hout.2⟩, Std.ExtTreeMap.getElem?_erase_self,
          if_pos ⟨hout.1, hout.2, entry, mem_cons_self, hpath⟩]
      · rw [if_neg fun h => hout ⟨h.1, htakes.mp h.2⟩, if_neg fun h => hout ⟨h.1, h.2.1⟩]
    · have hnever :
          ¬(key ∉ indexed ∧ q.Takes store key ∧ ∃ e ∈ entry :: entries, e.path = key.toList) := by
        intro h
        obtain ⟨hout, htake, e, he, hpath'⟩ := h
        rcases mem_cons.mp he with rfl | he
        · exact hkey (String.toList_inj.mp (hpath.symm.trans hpath'))
        · exact hlater ⟨hout, htake, e, he, hpath'⟩
      rw [if_neg hnever]
      split
      · exact Backend.getElem?_erase_of_ne hkey
      · rfl

theorem mem_objectKeys {rows : Core.Rows} :
    key ∈ objectKeys rows ↔ ∃ (path : String) (row : Record), rows[path]? = some row ∧
      row.objectKey = key := by
  simp only [objectKeys, mem_map, Prod.exists, Std.ExtTreeMap.mem_toList_iff_getElem?_eq_some]

/-- The sweep of a vault deletes exactly the objects that no row names and that can be taken, and
none where the totals differ. -/
theorem orphans_objects (q : Request) (rows : Core.Rows) (store : Store) (key : String) :
    (q.orphans (.vault rows) store).store.objects[key]? =
      if store.countUnder vaultNameKeyPrefix = rows.size ∧
        listed vaultObjectKeyPrefix.toList key.toList = true ∧
          key ∉ objectKeys rows ∧ q.Takes store key then none
      else store.objects[key]? := by
  have hlength : (objectKeys rows).length = rows.size := by
    rw [objectKeys, length_map, Std.ExtTreeMap.length_toList]
  unfold Request.orphans Medium.indexedObjectKeys
  dsimp only
  rw [hlength]
  by_cases htotals : store.countUnder vaultNameKeyPrefix = rows.size
  · have hentries : ∀ entry ∈ store.enumerate vaultObjectKeyPrefix, ∃ key, entry.path = key.toList ∧
        entry.modifiedUnix = store.modified key := by
      intro entry hentry
      obtain ⟨other, bytes, -, -, rfl⟩ := mem_enumerate.mp hentry
      exact ⟨other, rfl, rfl⟩
    rw [if_neg (not_not.mpr htotals), visits_objects q _ hentries rfl rfl]
    cases hstored : store.objects[key]? with
    | none => rw [ite_self, ite_self]
    | some bytes =>
      have hentry : (∃ e ∈ store.enumerate vaultObjectKeyPrefix, e.path = key.toList) ↔
          listed vaultObjectKeyPrefix.toList key.toList = true := by
        constructor
        · intro h
          obtain ⟨e, he, hpath⟩ := h
          obtain ⟨other, _, -, hlisted, rfl⟩ := mem_enumerate.mp he
          rwa [String.toList_inj.mp hpath] at hlisted
        · intro h
          exact ⟨_, mem_enumerate.mpr ⟨key, bytes, hstored, h, rfl⟩, rfl⟩
      refine if_congr ?_ rfl rfl
      rw [hentry]
      constructor
      · intro h
        exact ⟨htotals, h.2.2, h.1, h.2.1⟩
      · intro h
        exact ⟨h.2.2.1, h.2.2.2, h.2.1⟩
  · rw [if_pos htotals, if_neg fun h => htotals h.1]
    rfl

end Deletes

end Dctl.Removal
