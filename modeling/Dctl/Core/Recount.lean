import Dctl.Core.Probes
import Dctl.Core.Lookup

/-! What the report of a rebuild counts: the rows that were written, the rows of the objects whose
header was read, and the other ones. -/

namespace Dctl.Core

open ProofKit Crypto Index Object List Prog

def Request.ReadsOnly : Request → Prop
  | .get _ | .getRange .. | .listPage .. | .indexGet _ => True
  | .put .. | .delete _ | .indexPut _ | .indexDelete _ => False

def recording (answer : (r : Request) → r.Answer) (rows : List Record) (r : Request) :
    r.Answer × List Record :=
  (answer r, match r with
    | .indexPut record => rows ++ [record]
    | _ => rows)

theorem recording_of_readsOnly (answer : (r : Request) → r.Answer) (rows : List Record)
    (r : Request) (h : r.ReadsOnly) : recording answer rows r = (answer r, rows) := by
  cases r <;> first | rfl | cases h

section Reads

variable {L : Libraries} {v : Vault} {key path : String}

theorem fetchRange_reads (key : String) (offset length : Nat) :
    (fetchRange key offset length).run.Asks Request.ReadsOnly :=
  asks_bind (asks_query trivial) fun _ => asks_ofExcept _

theorem askHeaderLoop_reads (remaining want : Nat) :
    (askHeaderLoop key path remaining want).run.Asks Request.ReadsOnly := by
  induction remaining generalizing want with
  | zero => exact asks_throw _
  | succ remaining ih =>
    refine asks_bind (fetchRange_reads _ _ _) fun front => ?_
    refine asks_bind (asks_ofExcept _) fun extent => ?_
    cases extent with
    | complete headerLen => exact asks_pure _
    | short need =>
      dsimp only
      split
      · exact ih need
      · exact asks_throw _

theorem askObjectKw_reads (blob : Bytes) : (v.askObjectKw L blob).run.Asks Request.ReadsOnly := by
  refine asks_bind (asks_ofExcept _) fun parts => ?_
  refine asks_bind (asks_ofExcept _) fun found => ?_
  cases found with
  | some kw => exact asks_pure _
  | none => exact asks_bind (asks_query trivial) fun _ => asks_ofExcept _

theorem askRangeHeader_reads (key path : String) :
    (v.askRangeHeader L key path).run.Asks Request.ReadsOnly := by
  refine asks_bind (askHeaderLoop_reads _ _) fun header => ?_
  refine asks_bind (asks_ofExcept _) fun head => ?_
  refine asks_bind (asks_ofExcept _) fun _ => ?_
  split
  · exact asks_ofExcept _
  split
  · exact asks_bind (askObjectKw_reads _) fun _ => asks_ofExcept _
  · exact asks_throw _

end Reads

section Contents

variable (L : Libraries) (v : Vault) (answer : (r : Request) → r.Answer)

def headerAt (key path : String) : Except CoreError RangeHeader :=
  (v.askRangeHeader L key path).run.answered answer

def recordAt (nameKey : String) : Option NameRecord :=
  match answer (.get nameKey) with
  | .error _ => none
  | .ok value =>
    (v.nameKeys.openRecord L.toPrimitives L.keyedHash v.vaultId nameKey value).toOption

def namedRecords : (fuel : Nat) → Option String → List NameRecord
  | 0, _ => []
  | fuel + 1, cursor =>
    match answer (.listPage nameKeyPrefix cursor) with
    | .error _ => []
    | .ok page => page.items.filterMap (recordAt L v answer) ++
      match page.nextCursor with
      | none => []
      | some next => namedRecords fuel (some next)

/-- The record's object has a header with metadata of an unknown schema. -/
def UnknownSchema (record : NameRecord) : Prop :=
  ∃ header, headerAt L v answer (objectKeyOf record.fileId) record.path = .ok header ∧
    header.metadata = none

instance (record : NameRecord) : Decidable (UnknownSchema L v answer record) :=
  match h : headerAt L v answer (objectKeyOf record.fileId) record.path with
  | .error _ => isFalse (by
      rintro ⟨header, hok, -⟩
      rw [h] at hok
      cases hok)
  | .ok header => decidable_of_iff (header.metadata.isNone = true) (by
      rw [UnknownSchema, h]
      simp)

def isMeasured (row : Record) : Bool :=
  row.contentHash ≠ [] && match headerAt L v answer row.objectKey row.path with
    | .ok header => row.size = header.head.plaintextLen
    | .error _ => false

def describedAt (record : NameRecord) : Except CoreError Described :=
  (headerAt L v answer (objectKeyOf record.fileId) record.path).map describedHeader

def rowOf (record : NameRecord) : Record :=
  match describedAt L v answer record with
  | .ok d => d.row record.path (objectKeyOf record.fileId)
  | .error _ => Described.unmeasured.row record.path (objectKeyOf record.fileId)

def counted (rebuilt : Rebuilt) (record : NameRecord) : Rebuilt :=
  match describedAt L v answer record with
  | .ok _ => { rebuilt with files := rebuilt.files + 1, measured := rebuilt.measured + 1 }
  | .error _ => { rebuilt with files := rebuilt.files + 1, unmeasured := rebuilt.unmeasured + 1 }

/-- A rebuild that went on from `rebuilt` and ended with `x` has written the rows of the records,
and counted them. -/
def Accounts (records : List NameRecord) (rebuilt : Rebuilt) (rows : List Record) :
    Except CoreError Rebuilt × List Record → Prop
  | (.error _, _) => True
  | (.ok rebuilt', rows') => rebuilt' = records.foldl (counted L v answer) rebuilt ∧
      rows' = rows ++ records.map (rowOf L v answer)

end Contents

variable {L : Libraries} {v : Vault} {answer : (r : Request) → r.Answer} {rows : List Record}
  {rebuilt : Rebuilt}

theorem eval_describe (key path : String) (rows : List Record) :
    (v.describe L key path).run.eval (recording answer) rows =
      ((headerAt L v answer key path).map describedHeader, rows) := by
  have hreads : (v.askRangeHeader L key path).run.Asks Request.ReadsOnly :=
    askRangeHeader_reads key path
  have hread := hreads.eval_eq (recording_of_readsOnly answer) rows
  rw [Vault.describe, ExceptT.run_bind, eval_bind, hread, headerAt]
  cases (v.askRangeHeader L key path).run.answered answer with
  | error e => rfl
  | ok header => rfl

theorem eval_lift_describe (record : NameRecord) (rows : List Record) :
    (ExceptT.lift (v.describe L (objectKeyOf record.fileId) record.path).run :
        VaultM (Except CoreError Described)).run.eval (recording answer) rows =
      (.ok (describedAt L v answer record), rows) := by
  rw [ExceptT.run_lift, map_eq_pure_bind, eval_bind, eval_describe]
  rfl

theorem eval_indexPut (record : Record) (rows : List Record) :
    (indexPut record).run.eval (recording answer) rows =
      ((answer (.indexPut record)).mapError .index, rows ++ [record]) := by
  rw [indexPut, ExceptT.run_bind, eval_bind]
  rfl

theorem accounts_put {record : NameRecord} {row : Record} {rebuilt' : Rebuilt}
    (hrow : row = rowOf L v answer record) (hcount : rebuilt' = counted L v answer rebuilt record) :
    Accounts L v answer [record] rebuilt rows
      ((indexPut row >>= fun _ => (pure rebuilt' : VaultM Rebuilt)).run.eval
        (recording answer) rows) := by
  rw [ExceptT.run_bind, eval_bind, eval_indexPut]
  cases answer (.indexPut row) with
  | error e => trivial
  | ok _ => exact ⟨hcount, by rw [hrow]; rfl⟩

theorem accounts_rebuildRow (record : NameRecord) (rebuilt : Rebuilt) (rows : List Record) :
    Accounts L v answer [record] rebuilt rows
      ((v.rebuildRow L record rebuilt).run.eval (recording answer) rows) := by
  rw [Vault.rebuildRow, ExceptT.run_bind, eval_bind, eval_lift_describe]
  cases hdescribed : describedAt L v answer record with
  | error e => exact accounts_put (by rw [rowOf, hdescribed]) (by rw [counted, hdescribed])
  | ok d => exact accounts_put (by rw [rowOf, hdescribed]) (by rw [counted, hdescribed])

theorem accounts_rebuildItem (nameKey : String) (rebuilt : Rebuilt) (rows : List Record) :
    Accounts L v answer (recordAt L v answer nameKey).toList rebuilt rows
      ((v.rebuildItem L nameKey rebuilt).run.eval (recording answer) rows) := by
  rw [Vault.rebuildItem, fetch, tryFetch, LawfulMonad.bind_assoc, eval_query_bind, recordAt]
  simp only [recording]
  cases answer (.get nameKey) with
  | error e => trivial
  | ok value =>
    rw [liftStore, show ofStore (.ok value) = .ok value from rfl, eval_ofExcept_ok_bind]
    simp only
    cases v.nameKeys.openRecord L.toPrimitives L.keyedHash v.vaultId nameKey value with
    | error e => exact ⟨rfl, (append_nil _).symm⟩
    | ok record => exact accounts_rebuildRow record rebuilt rows

theorem Accounts.bind {first rest : List NameRecord} {p : VaultM Rebuilt}
    {f : Rebuilt → VaultM Rebuilt}
    (hp : Accounts L v answer first rebuilt rows (p.run.eval (recording answer) rows))
    (hf : ∀ rebuilt rows, Accounts L v answer rest rebuilt rows
      ((f rebuilt).run.eval (recording answer) rows)) :
    Accounts L v answer (first ++ rest) rebuilt rows
      ((p >>= f).run.eval (recording answer) rows) := by
  rw [ExceptT.run_bind, eval_bind]
  generalize p.run.eval (recording answer) rows = r at hp ⊢
  obtain ⟨x, rows'⟩ := r
  cases x with
  | error e => trivial
  | ok rebuilt' =>
    obtain ⟨rfl, rfl⟩ := hp
    have hrest :=
      hf (first.foldl (counted L v answer) rebuilt) (rows ++ first.map (rowOf L v answer))
    show Accounts L v answer (first ++ rest) rebuilt rows ((f _).run.eval (recording answer) _)
    generalize (f _).run.eval (recording answer) _ = r at hrest ⊢
    obtain ⟨x, rows'⟩ := r
    cases x with
    | error e => trivial
    | ok rebuilt' =>
      obtain ⟨hcount, hrows⟩ := hrest
      exact ⟨by rw [hcount, foldl_append], by rw [hrows, map_append, append_assoc]⟩

theorem accounts_rebuildItems (nameKeys : List String) (rebuilt : Rebuilt) (rows : List Record) :
    Accounts L v answer (nameKeys.filterMap (recordAt L v answer)) rebuilt rows
      ((v.rebuildItems L nameKeys rebuilt).run.eval (recording answer) rows) := by
  induction nameKeys generalizing rebuilt rows with
  | nil => exact ⟨rfl, (append_nil _).symm⟩
  | cons nameKey rest ih =>
    have hsplit : (nameKey :: rest).filterMap (recordAt L v answer) =
        (recordAt L v answer nameKey).toList ++ rest.filterMap (recordAt L v answer) := by
      rw [filterMap_cons]
      cases recordAt L v answer nameKey <;> rfl
    rw [hsplit]
    exact (accounts_rebuildItem nameKey rebuilt rows).bind ih

theorem accounts_rebuildPages (fuel : Nat) (cursor : Option String) {rebuilt' : Rebuilt}
    {rows' : List Record}
    (h : (v.rebuildPages L fuel cursor rebuilt).run.eval (recording answer) rows =
      (.ok (some rebuilt'), rows')) :
    Accounts L v answer (namedRecords L v answer fuel cursor) rebuilt rows
      (.ok rebuilt', rows') := by
  induction fuel generalizing cursor rebuilt rows with
  | zero => cases h
  | succ fuel ih =>
    rw [Vault.rebuildPages, eval_query_bind] at h
    rw [namedRecords]
    simp only [recording] at h
    cases hpage : answer (.listPage nameKeyPrefix cursor) with
    | error e =>
      rw [hpage] at h
      cases h
    | ok page =>
      rw [hpage, liftStore, show ofStore (.ok page) = .ok page from rfl, eval_ofExcept_ok_bind,
        ExceptT.run_bind, eval_bind] at h
      have hitems : Accounts L v answer _ rebuilt rows _ :=
        accounts_rebuildItems page.items rebuilt rows
      generalize (v.rebuildItems L page.items rebuilt).run.eval (recording answer) rows = r
          at h hitems
      obtain ⟨x, rows₁⟩ := r
      cases x with
      | error e => cases h
      | ok rebuilt₁ =>
        obtain ⟨rfl, rfl⟩ := hitems
        simp only at h ⊢
        cases hnext : page.nextCursor with
        | none =>
          rw [hnext] at h
          cases h
          exact ⟨by rw [append_nil], by rw [append_nil]⟩
        | some next =>
          rw [hnext] at h
          obtain ⟨hcount, hrows⟩ := ih (some next) h
          exact ⟨by rw [hcount, foldl_append],
            by rw [hrows, map_append, append_assoc]⟩

variable (L v answer) in
theorem foldl_counted (records : List NameRecord) (rebuilt : Rebuilt) :
    let total := records.foldl (counted L v answer) rebuilt
    total.files = rebuilt.files + records.length ∧
    total.measured =
      rebuilt.measured + records.countP (fun r => (describedAt L v answer r).isOk) ∧
    total.unmeasured =
      rebuilt.unmeasured + records.countP (fun r => !(describedAt L v answer r).isOk) := by
  induction records generalizing rebuilt with
  | nil => exact ⟨rfl, rfl, rfl⟩
  | cons record rest ih =>
    have hrest := ih (counted L v answer rebuilt record)
    rw [foldl_cons]
    generalize rest.foldl (counted L v answer) (counted L v answer rebuilt record) =
        total at hrest ⊢
    obtain ⟨hfiles, hmeasured, hunmeasured⟩ := hrest
    rw [counted] at hfiles hmeasured hunmeasured
    simp only [length_cons, countP_cons]
    cases hdescribed : describedAt L v answer record with
    | error e =>
      rw [hdescribed] at hfiles hmeasured hunmeasured
      have hnot : (describedAt L v answer record).isOk = false := by
        rw [hdescribed]
        rfl
      rw [← hdescribed, hnot]
      simp only [Bool.false_eq_true, if_false, Bool.not_false, if_true]
        at hfiles hmeasured hunmeasured ⊢
      omega
    | ok d =>
      rw [hdescribed] at hfiles hmeasured hunmeasured
      have hok : (describedAt L v answer record).isOk = true := by
        rw [hdescribed]
        rfl
      rw [← hdescribed, hok]
      simp only [Bool.not_true, Bool.false_eq_true, if_false, if_true]
        at hfiles hmeasured hunmeasured ⊢
      omega

theorem isMeasured_rowOf (record : NameRecord) :
    isMeasured L v answer (rowOf L v answer record) = true ↔
    (describedAt L v answer record).isOk = true ∧ ¬UnknownSchema L v answer record := by
  unfold UnknownSchema rowOf describedAt
  cases hheader : headerAt L v answer (objectKeyOf record.fileId) record.path with
  | error e => simp [isMeasured, Described.unmeasured, Described.row, Except.map, Except.isOk,
    Except.toBool]
  | ok header =>
    simp only [Except.map, isMeasured, Described.row, hheader]
    cases hmetadata : header.metadata with
    | none => simp [describedHeader, hmetadata, Described.unmeasured]
    | some m =>
      have hhash : m.contentBlake3.bytes ≠ [] := by
        intro hnil
        have hlen := m.contentBlake3.length
        rw [hnil] at hlen
        cases hlen
      simp [describedHeader, hmetadata, hhash, Except.isOk, Except.toBool]

theorem countP_eq_iff {α : Type} {p q : α → Bool} {l : List α}
    (hsub : ∀ x ∈ l, q x = true → p x = true) :
    l.countP p = l.countP q ↔ ∀ x ∈ l, p x = true → q x = true := by
  induction l with
  | nil => simp
  | cons x rest ih =>
    have hrest := ih fun y hy => hsub y (mem_cons_of_mem _ hy)
    have hle : rest.countP q ≤ rest.countP p :=
      countP_mono_left fun y hy => hsub y (mem_cons_of_mem _ hy)
    have hx := hsub x mem_cons_self
    rw [countP_cons, countP_cons, forall_mem_cons, ← hrest]
    cases hp : p x with
    | false =>
      cases hq : q x with
      | false => simp
      | true => simp [hp, hq] at hx
    | true =>
      cases hq : q x with
      | false => simp; omega
      | true => simp

/-- The report of a rebuild, whatever the contents of the backend are: it counts the rows, and each
of them as measured or as unmeasured.  It counts as measured exactly the rows with a content hash
and the size of their object if and only if no object that the listing names has an unknown schema.
-/
theorem rebuildIndex_counts_iff (L : Libraries) (v : Vault) (answer : (r : Request) → r.Answer)
    (fuel : Nat) {rebuilt : Rebuilt} {rows : List Record}
    (h : (v.rebuildIndex L fuel).run.eval (recording answer) [] = (.ok (some rebuilt), rows)) :
    (rebuilt.files = rebuilt.measured + rebuilt.unmeasured ∧ rebuilt.files = rows.length) ∧
      (rebuilt.measured = rows.countP (isMeasured L v answer) ↔
        ∀ record ∈ namedRecords L v answer fuel none, ¬UnknownSchema L v answer record) := by
  obtain ⟨hreport, hrows⟩ := accounts_rebuildPages fuel none h
  obtain ⟨hfiles, hmeasured, hunmeasured⟩ :=
    foldl_counted L v answer (namedRecords L v answer fuel none) default
  rw [← hreport] at hfiles hmeasured hunmeasured
  rw [nil_append] at hrows
  have hzero : (default : Rebuilt) = ⟨0, 0, 0⟩ := rfl
  rw [hzero, Nat.zero_add] at hfiles hmeasured hunmeasured
  refine ⟨⟨?_, by rw [hfiles, hrows, length_map]⟩, ?_⟩
  · have hsplit := length_eq_countP_add_countP (fun r => (describedAt L v answer r).isOk)
      (l := namedRecords L v answer fuel none)
    simp only [Bool.not_eq_true, ← Bool.not_eq_true'] at hsplit
    rw [hfiles, hmeasured, hunmeasured, hsplit]
    simp
  · rw [hmeasured, hrows, countP_map, countP_eq_iff]
    · refine forall₂_congr fun record _ => ?_
      rw [Function.comp_apply, isMeasured_rowOf]
      constructor
      · intro hall hunknown
        have hok : (describedAt L v answer record).isOk = true := by
          obtain ⟨header, hheader, -⟩ := hunknown
          rw [describedAt, hheader]
          rfl
        exact (hall hok).2 hunknown
      · intro hknown hok
        exact ⟨hok, hknown⟩
    · intro record _ hrow
      exact (isMeasured_rowOf record |>.mp hrow).1

def finished : Except CoreError (Option Rebuilt) × List Record → Option (Rebuilt × List Record)
  | (.ok (some rebuilt), rows) => some (rebuilt, rows)
  | _ => none

theorem eq_of_finished {run : Except CoreError (Option Rebuilt) × List Record}
    (h : finished run = some (rebuilt, rows)) : run = (.ok (some rebuilt), rows) := by
  obtain ⟨x, rows'⟩ := run
  rcases x with e | (_ | rebuilt')
  · cases h
  · cases h
  · cases h
    rfl

def oneObject (object : Bytes) : (r : Request) → r.Answer
  | .get _ => .ok sampleNameValue
  | .getRange _ offset length => .ok ((object.drop offset).take length)
  | .put .. => .ok ()
  | .delete _ => .ok ()
  | .listPage .. => .ok ⟨[sampleVault.nameKey clearLibraries "a"], none⟩
  | .indexGet _ => .ok none
  | .indexPut _ => .ok ()
  | .indexDelete _ => .ok ()

def oneReport (object : Bytes) : Option (Rebuilt × List Record) :=
  finished ((sampleVault.rebuildIndex clearLibraries 1).run.eval (recording (oneObject object)) [])

def laterSchema : Bytes := sampleObject.set 170 2

def sampleRow : Record :=
  ⟨"a", objectKeyOf default, 3, none, (clearPrimitives.hash [1, 2, 3]).bytes⟩

theorem oneReport_sampleObject : oneReport sampleObject = some (⟨1, 1, 0⟩, [sampleRow]) := by
  decide +kernel

theorem rebuildIndex_counts_sample :
    ((1 = 1 + 0) ∧ 1 = [sampleRow].length) ∧
      (1 = [sampleRow].countP (isMeasured clearLibraries sampleVault (oneObject sampleObject)) ↔
        ∀ record ∈ namedRecords clearLibraries sampleVault (oneObject sampleObject) 1 none,
          ¬UnknownSchema clearLibraries sampleVault (oneObject sampleObject) record) :=
  rebuildIndex_counts_iff _ _ _ 1 (eq_of_finished oneReport_sampleObject)

/-- An object with metadata of a later schema is counted as measured, though its row has no hash. -/
theorem rebuildIndex_overcounts : ¬∀ (L : Libraries) (v : Vault) (answer : (r : Request) → r.Answer)
    (fuel : Nat) (rebuilt : Rebuilt) (rows : List Record),
    (v.rebuildIndex L fuel).run.eval (recording answer) [] = (.ok (some rebuilt), rows) →
      (rebuilt.files = rebuilt.measured + rebuilt.unmeasured ∧ rebuilt.files = rows.length) ∧
        rebuilt.measured = rows.countP (isMeasured L v answer) := by
  intro h
  have hreport :
      oneReport laterSchema = some (⟨1, 1, 0⟩, [⟨"a", objectKeyOf default, 3, none, []⟩]) := by
    decide +kernel
  have hcount := (h _ _ _ _ _ _ (eq_of_finished hreport)).2
  rw [countP_cons] at hcount
  simp [isMeasured] at hcount

end Dctl.Core
