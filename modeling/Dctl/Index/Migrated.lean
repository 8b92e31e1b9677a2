import Dctl.Index.Postcard
import Dctl.Index.Represents

/-! A database of version 0 becomes, when it is opened, the one that inserting its records into an
empty index builds. -/

namespace Dctl.Index

open Std ProofKit Crypto List

variable {ix : Index} {names : Set String}

variable (ix) in
def Seals (path : String) (row : RecordRow) (r : Record) : Prop :=
  ix.decode (ix.indexKey path) row.value = .ok r

variable (ix names) in
structure VersionZero (rows : Rows) (db : Database) : Prop where
  version : db.version = 0
  dirs : db.dirs = ∅
  totals : db.totals = none
  records : Keyed ix.indexKey names ix.Seals db.records fun path => rows[path]?
  path : ∀ path (r : Record), rows[path]? = some r → r.path = path

variable (ix) in
def MigratedHolds (dir : String) (entry : MigratedDir) (n : Nat) : Prop :=
  entry.path = dir ∧ entry.parent = ix.indexKey (parentOf dir) ∧ entry.refs = n

variable {n : String → Nat} {dirs : Table Digest MigratedDir}

theorem countDir_keyed (hinj : Set.InjOn ix.indexKey names) {dir : String}
    (h : Keyed ix.indexKey names ix.MigratedHolds dirs (counted n)) (hdir : dir ∈ names) :
    Keyed ix.indexKey names ix.MigratedHolds (ix.countDir dirs dir)
      (counted (Function.update n dir (n dir + 1))) := by
  unfold countDir
  dsimp only
  rw [← update_counted, if_neg (Nat.succ_ne_zero _)]
  by_cases hzero : n dir = 0
  · rw [h.get_none hinj hdir (if_pos hzero)]
    exact h.insert hdir ⟨rfl, rfl, by rw [hzero]⟩
  · obtain ⟨entry, hentry, hpath, hparent, hrefs⟩ := h.get_some hinj (if_neg hzero)
    rw [hentry]
    exact h.insert hdir ⟨hpath, hparent, by rw [hrefs]⟩

theorem countDirs_keyed (hinj : Set.InjOn ix.indexKey names) {above : List String}
    (hnames : ∀ d ∈ above, d ∈ names)
    (h : Keyed ix.indexKey names ix.MigratedHolds dirs (counted n)) :
    Keyed ix.indexKey names ix.MigratedHolds (above.foldl ix.countDir dirs)
      (counted (above.foldl (fun n d => Function.update n d (n d + 1)) n)) := by
  induction above generalizing dirs n with
  | nil => exact h
  | cons a above ih =>
    exact ih (fun d hd => hnames d (mem_cons_of_mem _ hd))
      (countDir_keyed hinj h (hnames a (mem_cons_self ..)))

variable (ix names) in
structure Carries (done : Rows) (acc : Table Digest RecordRow × Carried) : Prop where
  records : Keyed ix.indexKey names ix.RecordHolds acc.1 fun path => done[path]?
  dirs : Keyed ix.indexKey names ix.MigratedHolds acc.2.dirs (counted done.beneath)
  totals : acc.2.totals = done.totals

variable {r : Record}

theorem Carries.rewriteRow (hn : ix.Distinct names) {done : Rows}
    {acc : Table Digest RecordRow × Carried} (h : ix.Carries names done acc) {row : RecordRow}
    (hname : r.path ∈ names) (hnew : done[r.path]? = none) (hseals : ix.Seals r.path row r) :
    ∃ acc', ix.rewriteRow acc (ix.indexKey r.path, row) = .ok acc' ∧
      ix.Carries names (done.insert r.path r) acc' := by
  unfold Index.rewriteRow
  rw [show ix.decode (ix.indexKey r.path) row.value = .ok r from hseals, ok_bind]
  have hholds : ix.RecordHolds r.path
      { parent := (ix.indexKey (parentOf r.path)).bytes, value := row.value } r := ⟨rfl, hseals⟩
  refine ⟨_, rfl, ?_, ?_, ?_⟩
  · exact (h.records.insert hname hholds).congr (update_insert done r.path r)
  · refine (countDirs_keyed hn.injective (hn.ancestors _ hname) h.dirs).congr fun d => ?_
    rw [counted_beneath_insert hnew]
  · rw [Rows.totals_insert hnew]
    exact congrArg (·.with r) h.totals

variable {rows : Rows}

theorem Carries.foldlM (hn : ix.Distinct names) {l : List (Digest × RecordRow)} {done : Rows}
    {acc : Table Digest RecordRow × Carried} (h : ix.Carries names done acc)
    (hl : ∀ e ∈ l, ∃ r, rows[r.path]? = some r ∧ r.path ∈ names ∧ e.1 = ix.indexKey r.path ∧
      ix.Seals r.path e.2 r ∧ done[r.path]? = none)
    (hkeys : l.Pairwise fun e e' => e.1 ≠ e'.1)
    (hrest : ∀ (path : String) (r : Record), rows[path]? = some r → done[path]? = some r ∨
      ∃ e ∈ l, e.1 = ix.indexKey path ∧ path ∈ names ∧ r.path = path)
    (hdone : ∀ (path : String) (r : Record), done[path]? = some r → rows[path]? = some r) :
    ∃ acc', l.foldlM ix.rewriteRow acc = .ok acc' ∧ ix.Carries names rows acc' := by
  induction l generalizing done acc with
  | nil =>
    refine ⟨acc, rfl, ?_⟩
    have hrows : rows = done := by
      apply ExtTreeMap.ext_getElem?
      intro path
      cases hrow : done[path]? with
      | some r => exact hdone path r hrow
      | none =>
        cases hrow' : rows[path]? with
        | none => rfl
        | some r =>
          rcases hrest path r hrow' with hsome | ⟨e, he, -⟩
          · rw [hrow] at hsome
            cases hsome
          · cases he
    rwa [hrows]
  | cons e l ih =>
    obtain ⟨hfirst, hkeys⟩ := pairwise_cons.mp hkeys
    obtain ⟨r, hrow, hname, hkey, hseals, hnew⟩ := hl e (mem_cons_self ..)
    obtain ⟨acc1, hone, hcarries⟩ := h.rewriteRow hn hname hnew hseals
    rw [← hkey] at hone
    have hother : ∀ {e' : Digest × RecordRow} {path : String}, e' ∈ l → e'.1 = ix.indexKey path →
        path ≠ r.path := fun he' hkey' heq => hfirst _ he' (by rw [hkey, hkey', heq])
    obtain ⟨acc', hrun, hcarries'⟩ := ih hcarries
      (fun e' he' => by
        obtain ⟨r', hrow', hname', hkey', hseals', hnew'⟩ := hl e' (mem_cons_of_mem _ he')
        refine ⟨r', hrow', hname', hkey', hseals', ?_⟩
        rw [Table.getElem?_insert, if_neg (hother he' hkey'), hnew'])
      hkeys
      (fun path r' hrow' => by
        rw [Table.getElem?_insert]
        by_cases hpath : path = r.path
        · rw [hpath, hrow] at hrow'
          exact .inl (by rw [if_pos hpath, hrow'])
        · rw [if_neg hpath]
          rcases hrest path r' hrow' with hsome | ⟨e', he', hkey', hname', hpath'⟩
          · exact .inl hsome
          · rcases mem_cons.mp he' with rfl | he'
            · exact absurd (hn.injective hname' hname (hkey'.symm.trans hkey)) hpath
            · exact .inr ⟨e', he', hkey', hname', hpath'⟩)
      (fun path r' hrow' => by
        rw [Table.getElem?_insert] at hrow'
        split at hrow'
        next heq =>
          obtain rfl := Option.some.inj hrow'
          rw [heq, hrow]
        next => exact hdone path r' hrow')
    exact ⟨acc', by rw [foldlM_cons, hone, ok_bind, hrun], hcarries'⟩

/-- The row is that of the directory as it was migrated. -/
def Written (ix : Index) (e : Digest × MigratedDir) (row : DirRow) : Prop :=
  row.parent = e.2.parent ∧ ix.decodeDir e.1 row.value = .ok e.2.path ∧ row.refs = e.2.refs

theorem writeDirs_eq_ok (hP : ix.toPrimitives.Lawful) (draws : MigrateDraws)
    {l : List (Digest × MigratedDir)} (hseal : ∀ e ∈ l, (utf8 e.2.path).length ≤ maxMessageLen)
    (hkeys : l.Pairwise fun e e' => e.1 ≠ e'.1) {dirs : Table Digest DirRow}
    (hnew : ∀ e ∈ l, dirs[e.1]? = none) :
    ∃ dirs', l.foldlM (ix.writeDir draws) dirs = .ok dirs' ∧
      (∀ (k : Digest) row, dirs'[k]? = some row →
        dirs[k]? = some row ∨ ∃ e ∈ l, e.1 = k ∧ ix.Written e row) ∧
      (∀ (k : Digest) row, dirs[k]? = some row → dirs'[k]? = some row) ∧
      ∀ e ∈ l, ∃ row, dirs'[e.1]? = some row := by
  induction l generalizing dirs with
  | nil => exact ⟨dirs, rfl, fun k row h => .inl h, fun k row h => h, by simp⟩
  | cons e l ih =>
    obtain ⟨hfirst, hkeys⟩ := pairwise_cons.mp hkeys
    obtain ⟨value, hvalue⟩ := sealValue_isOk hP (draws.dir e.1) e.1 (hseal e (mem_cons_self ..))
    have hone : ix.writeDir draws dirs e = .ok (dirs.insert e.1
        { parent := e.2.parent, value, refs := e.2.refs }) := by
      unfold writeDir
      rw [hvalue, ok_bind, hnew e (mem_cons_self ..)]
      rfl
    have hnew' : ∀ e' ∈ l, (dirs.insert e.1
        { parent := e.2.parent, value, refs := e.2.refs })[e'.1]? = none := by
      intro e' he'
      rw [Table.getElem?_insert, if_neg (Ne.symm (hfirst e' he'))]
      exact hnew e' (mem_cons_of_mem _ he')
    obtain ⟨dirs', hrun, hsound, hkeep, hcomplete⟩ :=
      ih (fun e' he' => hseal e' (mem_cons_of_mem _ he')) hkeys hnew'
    refine ⟨dirs', by rw [foldlM_cons, hone, ok_bind, hrun], ?_, ?_, ?_⟩
    · intro k row hrow
      rcases hsound k row hrow with hold | ⟨e', he', hk, hwritten⟩
      · rw [Table.getElem?_insert] at hold
        split at hold
        next heq =>
          obtain rfl := Option.some.inj hold
          exact .inr ⟨e, mem_cons_self .., heq.symm, rfl, decodeDir_sealValue hP hvalue, rfl⟩
        next => exact .inl hold
      · exact .inr ⟨e', mem_cons_of_mem _ he', hk, hwritten⟩
    · intro k row hrow
      apply hkeep
      rw [Table.getElem?_insert, if_neg, hrow]
      rintro rfl
      rw [hnew e (mem_cons_self ..)] at hrow
      cases hrow
    · intro e' he'
      rcases mem_cons.mp he' with rfl | he'
      · exact ⟨_, hkeep _ _ (by rw [Table.getElem?_insert, if_pos rfl])⟩
      · exact hcomplete e' he'

theorem writeDirs_keyed (hP : ix.toPrimitives.Lawful) (hinj : Set.InjOn ix.indexKey names)
    (draws : MigrateDraws) (h : Keyed ix.indexKey names ix.MigratedHolds dirs (counted n))
    (hseal : ∀ d, 0 < n d → (utf8 d).length ≤ maxMessageLen) :
    ∃ dirs', dirs.toList.foldlM (ix.writeDir draws) ∅ = .ok dirs' ∧
      Keyed ix.indexKey names ix.DirHolds dirs' (counted n) := by
  have hentry : ∀ e ∈ dirs.toList, ∃ d m, e.1 = ix.indexKey d ∧ counted n d = some m ∧
      ix.MigratedHolds d e.2 m := fun e he =>
    h.sound e.1 e.2 (ExtTreeMap.mem_toList_iff_getElem?_eq_some.mp he)
  have hcounted : ∀ {d m}, counted n d = some m → 0 < n d := by
    intro d m hm
    unfold counted at hm
    split at hm
    next => cases hm
    next hne => exact Nat.pos_of_ne_zero hne
  have hsealed : ∀ e ∈ dirs.toList, (utf8 e.2.path).length ≤ maxMessageLen := by
    intro e he
    obtain ⟨d, m, -, hm, hpath, -⟩ := hentry e he
    rw [hpath]
    exact hseal d (hcounted hm)
  obtain ⟨dirs', hrun, hsound, -, hcomplete⟩ :=
    @writeDirs_eq_ok ix hP draws _ hsealed (Table.pairwise_toList dirs) ∅ (by simp)
  refine ⟨dirs', hrun, h.mem, ?_, ?_⟩
  · intro k row hrow
    rcases hsound k row hrow with hold | ⟨e, he, rfl, hparent, hopen, hrefs⟩
    · simp at hold
    · obtain ⟨d, m, hkey, hm, hpath, hparent', hrefs'⟩ := hentry e he
      refine ⟨d, m, hkey, hm, by rw [hparent, hparent'], ?_, by rw [hrefs, hrefs']⟩
      rw [← hkey, hopen, hpath]
  · intro d m hm
    obtain ⟨entry, hentry', -⟩ := h.get_some hinj hm
    exact hcomplete (ix.indexKey d, entry) (ExtTreeMap.mem_toList_iff_getElem?_eq_some.mpr hentry')

variable {db : Database}

theorem VersionZero.openDatabase (hP : ix.toPrimitives.Lawful) (hC : ix.toCodec.Lawful)
    (hn : ix.Distinct names) (h : ix.VersionZero names rows db)
    (hseal : ∀ path, path ∈ rows → ∀ d ∈ ancestorsOf path, (utf8 d).length ≤ maxMessageLen)
    (draws : MigrateDraws) :
    ∃ db', ix.openDatabase db draws = .ok db' ∧ ix.Represents names rows db' ∧
      db'.version = schemaVersion := by
  have hstart : ix.Carries names ∅ (∅, { dirs := ∅, totals := default }) := by
    refine ⟨Keyed.empty.congr fun path => ?_, Keyed.empty.congr fun d => ?_, rfl⟩
    · simp
    · rfl
  have hrow : ∀ e ∈ db.records.toList, ∃ r, rows[r.path]? = some r ∧ r.path ∈ names ∧
      e.1 = ix.indexKey r.path ∧ ix.Seals r.path e.2 r ∧ (∅ : Rows)[r.path]? = none := by
    intro e he
    obtain ⟨path, r, hkey, hr, hseals⟩ :=
      h.records.sound e.1 e.2 (ExtTreeMap.mem_toList_iff_getElem?_eq_some.mp he)
    obtain rfl := h.path path r hr
    exact ⟨r, hr, h.records.mem _ _ hr, hkey, hseals, by simp⟩
  obtain ⟨⟨records, carried⟩, hrun, hcarries⟩ := hstart.foldlM hn hrow
    (Table.pairwise_toList db.records)
    (fun path r hr => by
      obtain ⟨row, hstored, -⟩ := h.records.get_some hn.injective hr
      exact .inr ⟨(ix.indexKey path, row), ExtTreeMap.mem_toList_iff_getElem?_eq_some.mpr hstored,
        rfl, h.records.mem _ _ hr, h.path path r hr⟩)
    (by simp)
  obtain ⟨value, hvalue⟩ := writeTotals_isOk hP hC draws.totals carried.totals
  obtain ⟨dirs, hdirs, hkeyed⟩ :=
    writeDirs_keyed hP hn.injective draws hcarries.dirs (fun d hd => by
    obtain ⟨path, hpath, hmem⟩ := Rows.beneath_pos_iff.mp hd
    exact hseal path hpath d hmem)
  refine ⟨{ records, dirs, totals := some value, version := schemaVersion }, ?_,
    ⟨hcarries.records, hkeyed, ?_, h.path⟩, rfl⟩
  · unfold Index.openDatabase migrate rewriteWithParents
    rw [if_neg (by rw [h.version]; decide), hrun, h.dirs]
    simp only [ok_bind, hvalue, hdirs]
    rfl
  · rw [readTotals_writeTotals hP hC hvalue rfl]
    exact congrArg _ hcarries.totals

theorem versionZero_empty : ix.VersionZero names ∅ Database.empty := by
  refine ⟨rfl, rfl, rfl, Keyed.empty.congr fun path => ?_, ?_⟩
  · simp
  · simp

structure Contents where
  records : Digest → Option (Bytes × Except IndexError Record)
  dirs : Digest → Option (Digest × Except IndexError String × Int)
  totals : Except IndexError Totals
  version : Int

def contents (ix : Index) (db : Database) : Contents where
  records key := db.records[key]?.map fun row => (row.parent, ix.decode key row.value)
  dirs key := db.dirs[key]?.map fun row => (row.parent, ix.decodeDir key row.value, row.refs)
  totals := ix.readTotals db
  version := db.version

theorem Represents.contents_eq (hn : ix.Distinct names) {db' : Database}
    (h : ix.Represents names rows db) (h' : ix.Represents names rows db')
    (hversion : db.version = db'.version) : ix.contents db = ix.contents db' := by
  have hrecords : (ix.contents db).records = (ix.contents db').records :=
    funext <| h.records.map_eq h'.records hn.injective
      (f := fun key row => (row.parent, ix.decode key row.value))
      (g := fun path r => ((ix.indexKey (parentOf path)).bytes, Except.ok r))
      fun path row r ⟨hparent, hopen⟩ => by rw [hparent, hopen]
  have hdirs : (ix.contents db).dirs = (ix.contents db').dirs :=
    funext <| h.dirs.map_eq h'.dirs hn.injective
      (f := fun key row => (row.parent, ix.decodeDir key row.value, row.refs))
      (g := fun dir n => (ix.indexKey (parentOf dir), Except.ok dir, (n : Int)))
      fun dir row n ⟨hparent, hopen, hrefs⟩ => by rw [hparent, hopen, hrefs]
  have htotals : ix.readTotals db = ix.readTotals db' := by rw [h.totals, h'.totals]
  unfold contents at *
  simp only [Contents.mk.injEq] at hrecords hdirs ⊢
  exact ⟨hrecords, hdirs, htotals, hversion⟩

theorem put_version {db' : Database} {draws : PutDraws} (h : ix.put db r draws = .ok db') :
    db'.version = db.version := by
  unfold Index.put at h
  simp only [bind_eq_ok, pure_eq_ok] at h
  obtain ⟨_, -, _, -, _, -, _, -, rfl⟩ := h
  rfl

def Rows.ofRecords (l : List Record) (rows : Rows) : Rows :=
  l.foldl (fun rows r => rows.insert r.path r) rows

variable {l : List Record}

theorem Rows.getElem?_ofRecords_of_ne {path : String} (hl : ∀ r ∈ l, r.path ≠ path) (rows : Rows) :
    (Rows.ofRecords l rows)[path]? = rows[path]? := by
  induction l generalizing rows with
  | nil => rfl
  | cons a l ih =>
    have hrest := ih (fun r hr => hl r (mem_cons_of_mem _ hr)) (rows.insert a.path a)
    rw [ofRecords, foldl_cons, ← ofRecords, hrest, Table.getElem?_insert,
      if_neg (Ne.symm (hl a (mem_cons_self ..)))]

theorem Rows.getElem?_ofRecords_of_mem (hnodup : (l.map (·.path)).Nodup) (hr : r ∈ l)
    (rows : Rows) :
    (Rows.ofRecords l rows)[r.path]? = some r := by
  induction l generalizing rows with
  | nil => cases hr
  | cons a l ih =>
    obtain ⟨hnew, hnodup⟩ := nodup_cons.mp (map_cons .. ▸ hnodup)
    rw [ofRecords, foldl_cons, ← ofRecords]
    rcases mem_cons.mp hr with rfl | hr
    · rw [getElem?_ofRecords_of_ne fun r' hr' heq => hnew (mem_map.mpr ⟨r', hr', heq⟩),
        Table.getElem?_insert, if_pos rfl]
    · exact ih hnodup hr _

theorem Rows.mem_scan (hpath : ∀ path (r : Record), rows[path]? = some r → r.path = path)
    {r : Record} : r ∈ rows.scan ↔ rows[r.path]? = some r := by
  rw [scan, mem_map]
  constructor
  · rintro ⟨⟨path, r'⟩, he, rfl⟩
    have hrow := ExtTreeMap.mem_toList_iff_getElem?_eq_some.mp he
    rw [hpath path r' hrow, hrow]
  · intro hrow
    exact ⟨(r.path, r), ExtTreeMap.mem_toList_iff_getElem?_eq_some.mpr hrow, rfl⟩

theorem Rows.ofRecords_scan (hpath : ∀ path (r : Record), rows[path]? = some r → r.path = path)
    (hl : l.Perm rows.scan) : (l.map (·.path)).Nodup ∧ Rows.ofRecords l ∅ = rows := by
  have hmem : ∀ r, r ∈ l ↔ rows[r.path]? = some r := fun r => hl.mem_iff.trans (Rows.mem_scan hpath)
  have hnodup : (l.map (·.path)).Nodup := by
    rw [(hl.map _).nodup_iff, scan, map_map, List.Nodup, pairwise_map]
    refine (List.Pairwise.and_mem.mp (Table.pairwise_toList rows)).imp ?_
    rintro ⟨path, r⟩ ⟨path', r'⟩ ⟨he, he', hne⟩
    have hrow := hpath path r (ExtTreeMap.mem_toList_iff_getElem?_eq_some.mp he)
    have hrow' := hpath path' r' (ExtTreeMap.mem_toList_iff_getElem?_eq_some.mp he')
    simp only [Function.comp_apply, hrow, hrow']
    exact hne
  refine ⟨hnodup, ?_⟩
  apply ExtTreeMap.ext_getElem?
  intro path
  by_cases hsome : ∃ r ∈ l, r.path = path
  · obtain ⟨r, hr, rfl⟩ := hsome
    rw [getElem?_ofRecords_of_mem hnodup hr, (hmem r).mp hr]
  · have hnone : ∀ r ∈ l, r.path ≠ path := fun r hr heq => hsome ⟨r, hr, heq⟩
    rw [getElem?_ofRecords_of_ne hnone]
    cases hrow : rows[path]? with
    | none => simp
    | some r =>
      obtain rfl := hpath path r hrow
      exact absurd rfl (hnone r ((hmem r).mpr hrow))

theorem Represents.foldlM_put (hP : ix.toPrimitives.Lawful) (hC : ix.toCodec.Lawful)
    (hn : ix.Distinct names) (draws : Record → PutDraws) (h : ix.Represents names rows db)
    (hnodup : (l.map (·.path)).Nodup)
    (hl : ∀ r ∈ l, r.path ∈ names ∧ r.path ∉ rows ∧ (ix.encodeRecord r).length ≤ maxMessageLen ∧
      ∀ d ∈ ancestorsOf r.path, (utf8 d).length ≤ maxMessageLen) :
    ∃ db', l.foldlM (fun db r => ix.put db r (draws r)) db = .ok db' ∧
      ix.Represents names (Rows.ofRecords l rows) db' ∧ db'.version = db.version := by
  induction l generalizing rows db with
  | nil => exact ⟨db, rfl, h, rfl⟩
  | cons a l ih =>
    obtain ⟨hnew, hnodup⟩ := nodup_cons.mp (map_cons .. ▸ hnodup)
    obtain ⟨hname, hfresh, hseal, hdirs⟩ := hl a (mem_cons_self ..)
    obtain ⟨db1, hput⟩ := h.put_isOk hP hC hn (draws a) hname hseal hdirs
    have hone := h.put hP hC hn hname (fun hmem => absurd hmem hfresh) hput
    obtain ⟨db', hrun, hrest, hversion⟩ := ih hone hnodup fun r hr => by
      obtain ⟨hname', hfresh', hseal'⟩ := hl r (mem_cons_of_mem _ hr)
      refine ⟨hname', ?_, hseal'⟩
      rw [ExtTreeMap.mem_iff_isSome_getElem?, Table.getElem?_insert, if_neg,
        ← ExtTreeMap.mem_iff_isSome_getElem?]
      · exact hfresh'
      · exact fun heq => hnew (mem_map.mpr ⟨r, hr, heq⟩)
    refine ⟨db', ?_, hrest, by rw [hversion, put_version hput]⟩
    rw [foldlM_cons, hput, ok_bind, hrun]

/-- Opening a database of version 0 builds what inserting its records, in any order, into an empty
index builds, and opening it again changes nothing. -/
theorem openDatabase_eq_foldlM_put (ix : Index) (hP : ix.toPrimitives.Lawful)
    (hC : ix.toCodec.Lawful) (names : Set String) (hn : ix.Distinct names) (rows : Rows)
    (db : Database) (h : ix.VersionZero names rows db)
    (hseal : ∀ path r, rows[path]? = some r → (ix.encodeRecord r).length ≤ maxMessageLen ∧
      ∀ d ∈ ancestorsOf path, (utf8 d).length ≤ maxMessageLen)
    (draws : MigrateDraws) :
    ∃ db', ix.openDatabase db draws = .ok db' ∧
      (∀ draws', ix.openDatabase db' draws' = .ok db') ∧
      ∀ (l : List Record) (fresh : MigrateDraws) (putDraws : Record → PutDraws), l.Perm rows.scan →
        ∃ empty built, ix.openDatabase .empty fresh = .ok empty ∧
          l.foldlM (fun db r => ix.put db r (putDraws r)) empty = .ok built ∧
          ix.contents db' = ix.contents built := by
  have hdirs : ∀ path, path ∈ rows → ∀ d ∈ ancestorsOf path, (utf8 d).length ≤ maxMessageLen := by
    intro path hpath
    obtain ⟨r, hr⟩ := Option.isSome_iff_exists.mp (ExtTreeMap.mem_iff_isSome_getElem?.mp hpath)
    exact (hseal path r hr).2
  obtain ⟨db', hopen, hrep, hversion⟩ := h.openDatabase hP hC hn hdirs draws
  refine ⟨db', hopen, fun draws' => ?_, fun l fresh putDraws hl => ?_⟩
  · unfold openDatabase migrate
    rw [if_pos (by rw [hversion])]
    rfl
  · obtain ⟨hnodup, hrows⟩ := Rows.ofRecords_scan h.path hl
    obtain ⟨empty, hempty, hrepEmpty, hversionEmpty⟩ :=
      (@versionZero_empty ix names).openDatabase hP hC hn (by simp) fresh
    obtain ⟨built, hbuilt, hrepBuilt, hversionBuilt⟩ :=
      hrepEmpty.foldlM_put hP hC hn putDraws hnodup
      fun r hr => by
        obtain ⟨⟨path, r'⟩, he, rfl⟩ := mem_map.mp (hl.mem_iff.mp hr)
        have hrow := ExtTreeMap.mem_toList_iff_getElem?_eq_some.mp he
        obtain rfl := h.path path r' hrow
        exact ⟨h.records.mem _ _ hrow, by simp, hseal _ _ hrow⟩
    rw [hrows] at hrepBuilt
    exact ⟨empty, built, hempty, hbuilt, hrep.contents_eq hn hrepBuilt
      (by rw [hversion, hversionBuilt, hversionEmpty])⟩

def sampleNames : Set String := {"", "a", "a/b"}

theorem sampleNames_distinct : clearIndex.Distinct sampleNames where
  root := .inl rfl
  ancestors path hpath dir hdir := by
    rcases hpath with rfl | rfl | rfl
    · have hnone : ancestorsOf "" = [] := by decide
      rw [hnone] at hdir
      cases hdir
    · have hnone : ancestorsOf "a" = [] := by decide
      rw [hnone] at hdir
      cases hdir
    · have hall : ∀ d ∈ ancestorsOf "a/b", d = "a" := by decide
      exact .inr (.inl (hall dir hdir))
  injective := by
    rintro a (rfl | rfl | rfl) b (rfl | rfl | rfl) h
    all_goals first | rfl | exact absurd h (by decide)

def sampleRecord : Record where
  path := "a/b"
  objectKey := "o/1"
  size := 3
  modifiedUnix := none
  contentHash := [1]

def sampleValue : Bytes :=
  (default : Nonce).bytes ++ (clearIndex.encodeRecord sampleRecord ++ List.replicate tagLen 0)

def sampleZero : Database where
  records := (∅ : Table Digest RecordRow).insert (clearIndex.indexKey "a/b")
    { parent := [], value := sampleValue }
  dirs := ∅
  totals := none
  version := 0

theorem sampleZero_versionZero :
    clearIndex.VersionZero sampleNames ((∅ : Rows).insert "a/b" sampleRecord) sampleZero where
  version := rfl
  dirs := rfl
  totals := rfl
  records := by
    have hseals : clearIndex.Seals "a/b" { parent := [], value := sampleValue } sampleRecord := by
      unfold Seals
      decide
    have hinsert := (@versionZero_empty clearIndex sampleNames).records.insert
      (show "a/b" ∈ sampleNames from .inr (.inr rfl)) hseals
    exact hinsert.congr (update_insert ∅ "a/b" sampleRecord)
  path path r hr := by
    rw [Table.getElem?_insert] at hr
    split at hr
    next heq =>
      obtain rfl := Option.some.inj hr
      exact heq.symm
    next => simp at hr

theorem openDatabase_eq_foldlM_put_sample :
    ∃ db, clearIndex.openDatabase sampleZero ⟨default, fun _ => default⟩ = .ok db ∧
      ∃ empty built, clearIndex.openDatabase .empty ⟨default, fun _ => default⟩ = .ok empty ∧
        clearIndex.put empty sampleRecord ⟨default, fun _ => default, default⟩ = .ok built ∧
        clearIndex.contents db = clearIndex.contents built := by
  obtain ⟨db, hopen, -, hfold⟩ := openDatabase_eq_foldlM_put clearIndex clearPrimitives_lawful
    Postcard.codec_lawful sampleNames sampleNames_distinct _ sampleZero sampleZero_versionZero
    (fun path r hr => by
      rw [Table.getElem?_insert] at hr
      split at hr
      next heq =>
        obtain rfl := Option.some.inj hr
        subst heq
        exact ⟨by decide, by decide⟩
      next => simp at hr)
    ⟨default, fun _ => default⟩
  have hnone : (∅ : Rows)["a/b"]? = none := by simp
  have hrows : ((∅ : Rows).insert "a/b" sampleRecord).toList.Perm
      (("a/b", sampleRecord) :: (∅ : Rows).toList) := Table.toList_insert_perm hnone
  have hscan : [sampleRecord].Perm (Rows.scan ((∅ : Rows).insert "a/b" sampleRecord)) :=
    (hrows.map Prod.snd).symm
  obtain ⟨empty, built, hempty, hbuilt, heq⟩ := hfold [sampleRecord] ⟨default, fun _ => default⟩
    (fun _ => ⟨default, fun _ => default, default⟩) hscan
  refine ⟨db, hopen, empty, built, hempty, ?_, heq⟩
  rw [foldlM_cons, bind_eq_ok] at hbuilt
  obtain ⟨db1, hput, hrest⟩ := hbuilt
  obtain rfl := pure_eq_ok.mp hrest
  exact hput

end Dctl.Index
