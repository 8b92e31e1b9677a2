import Dctl.Index.Migrated

/-! What the index answers, and that it answers as a scan of the stored paths would, after every
sequence of insertions and removals. -/

namespace Dctl.Index

open Std ProofKit Crypto List

variable (ix : Index)

def hasDir (db : Database) (dir : String) : Except IndexError Bool := pure (ix.containsDir db dir)

/-- Whether the file lives under the directory.  Every file lives under the root. -/
def livesUnder (dir path : String) : Bool := dir = "" || under dir path

/-- The database answers as a scan of the rows does, for directories among `names`.  The root has no
row, so that `contains_dir` and `has_dir` deny it whatever is stored. -/
structure Answers (names : Set String) (rows : Rows) (db : Database) : Prop where
  dirs : ∀ key : Digest, key ∈ db.dirs ↔
    ∃ dir, key = ix.indexKey dir ∧ dir ≠ "" ∧ ∃ path, path ∈ rows ∧ under dir path = true
  refs : ∀ dir row, dir ∈ names → db.dirs[ix.indexKey dir]? = some row →
    row.refs = (rows.keys.filter (under dir)).length
  totals : ∃ t, ix.totals db = .ok t ∧ t.objects.toNat = rows.keys.length ∧
    t.bytes.toNat = rows.measured ∧ t.unmeasured.toNat = (rows.scan.filter (·.unmeasured)).length
  get : ∀ path ∈ names, ix.get db path = .ok rows[path]?
  all : ∃ l, ix.all db = .ok l ∧ l.Perm rows.scan
  containsDir : ∀ dir ∈ names,
    ix.containsDir db dir = true ↔ dir ≠ "" ∧ ∃ path, path ∈ rows ∧ livesUnder dir path = true
  hasDir : ∀ dir ∈ names, ∃ found, ix.hasDir db dir = .ok found ∧
    (found = true ↔ dir ≠ "" ∧ ∃ path, path ∈ rows ∧ livesUnder dir path = true)
  children : ∀ dir ∈ names, ∃ l, ix.children db dir = .ok l ∧
    l.Perm (rows.scan.filter fun r => directlyIn dir r.path)
  childDirs : ∀ dir ∈ names, ∃ l, ix.childDirs db dir = .ok l ∧ l.Nodup ∧
    ∀ d, d ∈ l ↔ directlyIn dir d = true ∧ ∃ path, path ∈ rows ∧ under d path = true

variable {ix} {names : Set String} {rows : Rows} {db : Database}

theorem mem_rows_iff {path : String} : path ∈ rows ↔ ∃ r, rows[path]? = some r := by
  rw [ExtTreeMap.mem_iff_isSome_getElem?, Option.isSome_iff_exists]

theorem sum_ite_eq_length_filter {α : Type} (p : α → Bool) (l : List α) :
    (l.map fun a => if p a = true then 1 else 0).sum = (l.filter p).length := by
  induction l with
  | nil => rfl
  | cons a l ih =>
    rw [map_cons, sum_cons, ih, filter_cons]
    split
    · rw [length_cons, Nat.add_comm]
    · rw [Nat.zero_add]

theorem Rows.files_eq (rows : Rows) : rows.files = rows.keys.length := by
  rw [← ExtTreeMap.map_fst_toList_eq_keys, length_map]
  simp [files, Table.sum]

theorem Rows.unmeasured_eq (rows : Rows) :
    rows.unmeasured = (rows.scan.filter (·.unmeasured)).length := by
  rw [unmeasured, Table.sum, sum_ite_eq_length_filter (fun e : String × Record => e.2.unmeasured),
    scan, filter_map, length_map]
  rfl

theorem Rows.beneath_eq {dir : String} (hne : dir ≠ "") (rows : Rows) :
    rows.beneath dir = (rows.keys.filter (under dir)).length := by
  have hsum := sum_ite_eq_length_filter (fun e : String × Record => under dir e.1) rows.toList
  rw [← ExtTreeMap.map_fst_toList_eq_keys, filter_map, length_map]
  simp only [beneath, Table.sum, ne_eq, hne, not_false_eq_true, true_and]
  exact hsum

theorem Rows.beneath_pos_iff_under (hrooted : ∀ path, path ∈ rows → Rooted path) {dir : String} :
    0 < rows.beneath dir ↔ ∃ path, path ∈ rows ∧ under dir path = true := by
  rw [Rows.beneath_pos_iff]
  constructor
  · rintro ⟨path, hpath, hdir⟩
    exact ⟨path, hpath, (mem_ancestorsOf.mp hdir).2⟩
  · rintro ⟨path, hpath, hunder⟩
    refine ⟨path, hpath, mem_ancestorsOf.mpr ⟨?_, hunder⟩⟩
    rintro rfl
    rw [not_under_empty (hrooted path hpath)] at hunder
    cases hunder

theorem Distinct.parent_iff (hn : ix.Distinct names) {dir name : String} (hdir : dir ∈ names)
    (hname : name ∈ names) (hroot : Rooted name) :
    ix.indexKey (parentOf name) = ix.indexKey dir ↔ directlyIn dir name = true := by
  rw [← parentOf_eq_iff hroot]
  have hparent : parentOf name ∈ names := by
    by_cases hempty : parentOf name = ""
    · rw [hempty]
      exact hn.root
    · rcases parentOf_eq_or_under name with hroot | hunder
      · exact absurd hroot hempty
      · exact hn.ancestors _ hname _ (mem_ancestorsOf.mpr ⟨hempty, hunder⟩)
  exact ⟨fun hkey => hn.injective hparent hdir hkey, fun heq => by rw [heq]⟩

section Queries

variable (h : ix.Represents names rows db) (hn : ix.Distinct names)
include h hn

theorem Represents.all : ∃ l, ix.all db = .ok l ∧ l.Perm rows.scan := by
  have hdecode : ∀ e ∈ db.records.toList, ∃ r, ix.decode e.1 e.2.value = .ok r := by
    rintro ⟨k, row⟩ he
    obtain ⟨path, r, rfl, -, -, hopen⟩ :=
      h.records.sound k row (ExtTreeMap.mem_toList_iff_getElem?_eq_some.mp he)
    exact ⟨r, hopen⟩
  refine ⟨_, mapM_eq_ok hdecode, ?_⟩
  rw [Rows.scan, ← filterMap_eq_map]
  refine h.records.filterMap_perm hn.injective (fun _ => rfl) ?_
  rintro path row r - ⟨-, hopen⟩
  rw [hopen]
  rfl

theorem Represents.get {path : String} (hpath : path ∈ names) : ix.get db path = .ok rows[path]? :=
  h.read hn hpath

variable (hrooted : ∀ path, path ∈ rows → Rooted path)
include hrooted

section

variable {dir : String} (hdir : dir ∈ names)
include hdir

theorem Represents.containsDir :
    ix.containsDir db dir = true ↔ dir ≠ "" ∧ ∃ path, path ∈ rows ∧ livesUnder dir path = true := by
  have hcounted : ix.containsDir db dir = true ↔ 0 < rows.beneath dir := by
    unfold Index.containsDir
    rw [h.dirs.isSome_iff hn.injective hdir, counted]
    by_cases hzero : rows.beneath dir = 0
    · simp [hzero]
    · simp [hzero, Nat.pos_iff_ne_zero]
  rw [hcounted]
  by_cases hroot : dir = ""
  · rw [hroot]
    exact iff_of_false (by simp [Rows.beneath, Table.sum]) fun h => h.1 rfl
  · simp only [Rows.beneath_pos_iff_under hrooted, livesUnder, hroot, decide_false, Bool.false_or,
      ne_eq, not_false_eq_true, true_and]

theorem Represents.children :
    ∃ l, ix.children db dir = .ok l ∧ l.Perm (rows.scan.filter fun r => directlyIn dir r.path) := by
  have hdecode : ∀ e ∈ db.records.toList.filter (fun e => e.2.parent = (ix.indexKey dir).bytes),
      ∃ r, ix.decode e.1 e.2.value = .ok r := by
    rintro ⟨k, row⟩ he
    obtain ⟨path, r, rfl, -, -, hopen⟩ := h.records.sound k row
      (ExtTreeMap.mem_toList_iff_getElem?_eq_some.mp (mem_of_mem_filter he))
    exact ⟨r, hopen⟩
  refine ⟨_, mapM_eq_ok hdecode, ?_⟩
  rw [Rows.scan, filter_map, ← filterMap_eq_map, filterMap_filter, filterMap_filter]
  refine h.records.filterMap_perm hn.injective (fun _ => rfl) ?_
  rintro path row r hrow ⟨hparent, hopen⟩
  have hpath := h.path path r hrow
  have hiff := hn.parent_iff hdir (h.records.mem _ _ hrow)
    (hrooted path (mem_rows_iff.mpr ⟨r, hrow⟩))
  simp only [hparent, hopen, Function.comp_apply, hpath, decide_eq_true_eq, ← hiff, Block.ext_iff]
  rfl

theorem Represents.childDirs :
    ∃ l, ix.childDirs db dir = .ok l ∧ l.Nodup ∧
      ∀ d, d ∈ l ↔ directlyIn dir d = true ∧ ∃ path, path ∈ rows ∧ under d path = true := by
  -- The row of a directory is under its key, and the directory is above some file.
  have hrow : ∀ {k : Digest} {row : DirRow}, (k, row) ∈ db.dirs.toList → ∃ d, k = ix.indexKey d ∧
      row.parent = ix.indexKey (parentOf d) ∧ ix.decodeDir k row.value = .ok d ∧ d ∈ names ∧
      Rooted d ∧ ∃ path, path ∈ rows ∧ under d path = true := by
    intro k row he
    obtain ⟨d, n, rfl, hcount, hparent, hopen, -⟩ :=
      h.dirs.sound k row (ExtTreeMap.mem_toList_iff_getElem?_eq_some.mp he)
    have hpos : 0 < rows.beneath d := by
      unfold counted at hcount
      split at hcount
      next => cases hcount
      next hne => omega
    obtain ⟨path, hpath, hmem⟩ := Rows.beneath_pos_iff.mp hpos
    obtain ⟨hne, hunder⟩ := mem_ancestorsOf.mp hmem
    exact ⟨d, rfl, hparent, hopen, h.dirs.mem d n hcount, (hrooted path hpath).of_under hne hunder,
      path, hpath, hunder⟩
  have hdecode : ∀ e ∈ db.dirs.toList.filter (fun e => e.2.parent = ix.indexKey dir),
      ∃ d, ix.decodeDir e.1 e.2.value = .ok d := by
    rintro ⟨k, row⟩ he
    obtain ⟨d, -, -, hopen, -⟩ := hrow (mem_of_mem_filter he)
    exact ⟨d, hopen⟩
  refine ⟨_, mapM_eq_ok hdecode, ?_, fun d => ?_⟩
  · refine List.Pairwise.filterMap _ ?_
      (List.Pairwise.and_mem.mp ((Table.nodup_toList db.dirs).filter _))
    rintro ⟨k, row⟩ ⟨k', row'⟩ ⟨he, he', hne⟩ d hd d' hd' rfl
    have hmem := mem_of_mem_filter he
    have hmem' := mem_of_mem_filter he'
    obtain ⟨a, rfl, -, hopen, -⟩ := hrow hmem
    obtain ⟨a', rfl, -, hopen', -⟩ := hrow hmem'
    simp only [hopen, hopen', Except.toOption, Option.some.injEq] at hd hd'
    rw [ExtTreeMap.mem_toList_iff_getElem?_eq_some] at hmem hmem'
    rw [hd, ← hd', hmem', Option.some.injEq] at hmem
    exact hne (by rw [hd, hd', hmem])
  · simp only [mem_filterMap, mem_filter, decide_eq_true_eq, Prod.exists]
    constructor
    · rintro ⟨k, row, ⟨he, hkey⟩, hd⟩
      obtain ⟨a, rfl, hparent, hopen, hname, hroot, habove⟩ := hrow he
      simp only [hopen, Except.toOption, Option.some.injEq] at hd
      subst hd
      exact ⟨(hn.parent_iff hdir hname hroot).mp (hparent.symm.trans hkey), habove⟩
    · rintro ⟨hin, habove⟩
      have hpos := (Rows.beneath_pos_iff_under hrooted).mpr habove
      obtain ⟨row, hstored, hparent, hopen, -⟩ :=
        h.dirs.get_some hn.injective (if_neg (Nat.pos_iff_ne_zero.mp hpos))
      have he := ExtTreeMap.mem_toList_iff_getElem?_eq_some.mpr hstored
      obtain ⟨a, hkey, -, hopen', hname, hroot, -⟩ := hrow he
      obtain rfl : d = a := by rwa [hopen, Except.ok.injEq] at hopen'
      refine ⟨_, row, ⟨he, ?_⟩, by rw [hopen]; rfl⟩
      rw [hparent]
      exact (hn.parent_iff hdir hname hroot).mpr hin

end

theorem Represents.answers (hfits : rows.Fits) : ix.Answers names rows db where
  dirs key := by
    rw [ExtTreeMap.mem_iff_isSome_getElem?, Option.isSome_iff_exists]
    constructor
    · rintro ⟨row, hrow⟩
      obtain ⟨dir, n, rfl, hcount, -⟩ := h.dirs.sound key row hrow
      have hpos : 0 < rows.beneath dir := by
        unfold counted at hcount
        split at hcount
        next => cases hcount
        next hne => omega
      obtain ⟨path, hpath, hmem⟩ := Rows.beneath_pos_iff.mp hpos
      exact ⟨dir, rfl, (mem_ancestorsOf.mp hmem).1, path, hpath, (mem_ancestorsOf.mp hmem).2⟩
    · rintro ⟨dir, rfl, -, habove⟩
      have hpos := (Rows.beneath_pos_iff_under hrooted).mpr habove
      obtain ⟨row, hstored, -⟩ :=
        h.dirs.get_some hn.injective (if_neg (Nat.pos_iff_ne_zero.mp hpos))
      exact ⟨row, hstored⟩
  refs dir row hdir hrow := by
    by_cases hzero : rows.beneath dir = 0
    · rw [h.dirs.get_none hn.injective hdir (if_pos hzero)] at hrow
      cases hrow
    · obtain ⟨row', hstored, -, -, hrefs⟩ := h.dirs.get_some hn.injective (if_neg hzero)
      obtain rfl : row' = row := by rwa [hstored, Option.some.injEq] at hrow
      have hne : dir ≠ "" := by
        obtain ⟨path, -, hmem⟩ := Rows.beneath_pos_iff.mp (Nat.pos_of_ne_zero hzero)
        exact (mem_ancestorsOf.mp hmem).1
      rw [hrefs, Rows.beneath_eq hne]
  totals := by
    have hle := rows.unmeasured_le_files
    obtain ⟨hfiles, hmeasured⟩ := hfits
    refine ⟨rows.totals, h.totals, ?_, ?_, ?_⟩
    · rw [← rows.files_eq]
      exact Rows.toNat_saturated hfiles
    · exact Rows.toNat_saturated hmeasured
    · rw [← rows.unmeasured_eq]
      exact Rows.toNat_saturated (by omega)
  get path hpath := h.get hn hpath
  all := h.all hn
  containsDir dir hdir := h.containsDir hn hrooted hdir
  hasDir dir hdir := ⟨_, rfl, h.containsDir hn hrooted hdir⟩
  children dir hdir := h.children hn hrooted hdir
  childDirs dir hdir := h.childDirs hn hrooted hdir

end Queries

/-- The databases that an index reaches, from a file that does not exist, by insertions and removals
of normalized paths, with the rows that each of them is to hold.  The sums of the rows are `u64`. -/
inductive Run (ix : Index) (V : Unicode) (names : Set String) : Rows → Database → Prop
  | opened {db : Database} {draws : MigrateDraws} (h : ix.openDatabase .empty draws = .ok db) :
      Run ix V names ∅ db
  | put {rows : Rows} {db db' : Database} {r : Record} {draws : PutDraws}
    (run : Run ix V names rows db)
      (normal : Path.validate V r.path = .ok ()) (name : r.path ∈ names)
      (fits : Rows.Fits (rows.insert r.path r)) (h : ix.put db r draws = .ok db') :
      Run ix V names (rows.insert r.path r) db'
  | delete {rows : Rows} {db db' : Database} {path : String} {nonce : Nonce} {found : Bool}
      (run : Run ix V names rows db) (normal : Path.validate V path = .ok ()) (name : path ∈ names)
      (h : ix.delete db path nonce = .ok (found, db')) : Run ix V names (rows.erase path) db'

variable {V : Unicode}

theorem rooted_of_validate {path : String} (h : Path.validate V path = .ok ()) : Rooted path := by
  simp only [Path.validate, bind_eq_ok, reject_eq_ok] at h
  obtain ⟨_, -, _, -, _, hends, -⟩ := h
  exact fun hhead => hends (.inl hhead)

theorem length_utf8_of_under {dir path : String} (h : under dir path = true) :
    (utf8 dir).length ≤ (utf8 path).length := by
  obtain ⟨rest, hpath⟩ := under_iff.mp h
  have heq : path = dir ++ String.ofList (separator :: rest) := by
    rw [← String.toList_inj, String.toList_append, String.toList_ofList, hpath]
  rw [heq, utf8_append, length_append]
  omega

theorem Rows.Fits.erase (h : rows.Fits) (path : String) : Rows.Fits (rows.erase path) := by
  cases hrow : rows[path]? with
  | some r =>
    have hfiles : rows.files = 1 + Rows.files (rows.erase path) := Table.sum_erase hrow
    have hmeasured : rows.measured = (if r.unmeasured then 0 else r.size.toNat) +
      Rows.measured (rows.erase path) := Table.sum_erase hrow
    obtain ⟨hf, hm⟩ := h
    exact ⟨by omega, by omega⟩
  | none =>
    rwa [Table.erase_of_none hrow]

theorem Run.represents (hP : ix.toPrimitives.Lawful) (hC : ix.toCodec.Lawful)
    (hn : ix.Distinct names) (h : ix.Run V names rows db) :
    ix.Represents names rows db ∧ rows.Fits ∧ ∀ path, path ∈ rows → Rooted path := by
  induction h with
  | @opened db draws hopen =>
    obtain ⟨db', hopen', hrep, -⟩ :=
      (@versionZero_empty ix names).openDatabase hP hC hn (by simp) draws
    obtain rfl : db = db' := by rwa [hopen, Except.ok.injEq] at hopen'
    exact ⟨hrep, ⟨by simp [Rows.files, Table.sum_empty], by simp [Rows.measured, Table.sum_empty]⟩,
      by simp⟩
  | @put rows db db' r draws run normal name fits hput ih =>
    obtain ⟨hrep, hfits, hrooted⟩ := ih
    refine ⟨hrep.put hP hC hn name (fun _ => hfits) hput, fits, fun path hpath => ?_⟩
    rw [ExtTreeMap.mem_iff_isSome_getElem?, Table.getElem?_insert] at hpath
    split at hpath
    next heq =>
      rw [heq]
      exact rooted_of_validate normal
    next => exact hrooted path (ExtTreeMap.mem_iff_isSome_getElem?.mpr hpath)
  | @delete rows db db' path nonce found run normal name hdelete ih =>
    obtain ⟨hrep, hfits, hrooted⟩ := ih
    obtain ⟨db1, hdelete', hrep'⟩ :=
      @Represents.delete ix names rows db hP hC hn hrep path nonce name hfits
    obtain ⟨-, rfl⟩ : found = decide (path ∈ rows) ∧ db' = db1 := by
      rwa [hdelete, Except.ok.injEq, Prod.mk.injEq] at hdelete'
    refine ⟨hrep', hfits.erase path, fun p hp => hrooted p ?_⟩
    rw [ExtTreeMap.mem_iff_isSome_getElem?, Table.getElem?_erase] at hp
    split at hp
    next => cases hp
    next => exact ExtTreeMap.mem_iff_isSome_getElem?.mpr hp

theorem Run.valid (h : ix.Run V names rows db) : ∀ path ∈ rows, Path.validate V path = .ok () := by
  induction h with
  | opened h => simp
  | put run normal name fits h ih =>
    intro path hpath
    rw [ExtTreeMap.mem_iff_isSome_getElem?, Table.getElem?_insert] at hpath
    split at hpath
    next heq => rwa [heq]
    next => exact ih path (ExtTreeMap.mem_iff_isSome_getElem?.mpr hpath)
  | delete run normal name h ih =>
    exact fun path hpath => ih path (ExtTreeMap.mem_of_mem_erase hpath)

theorem Represents.put_of_validate (hP : ix.toPrimitives.Lawful) (hC : ix.toCodec.Lawful)
    (hn : ix.Distinct names) (hrep : ix.Represents names rows db) {r : Record} (draws : PutDraws)
    (hname : r.path ∈ names) (hvalid : Path.validate V r.path = .ok ())
    (hseal : (ix.encodeRecord r).length ≤ maxMessageLen) : ∃ db', ix.put db r draws = .ok db' := by
  refine hrep.put_isOk hP hC hn draws hname hseal fun d hd => ?_
  have hlen := length_utf8_of_under (mem_ancestorsOf.mp hd).2
  have hpath := Path.validate_length hvalid
  simp only [Path.maxPathBytes, maxMessageLen] at *
  omega

/-- After every sequence of insertions and removals the index answers as a scan of the stored paths
would, and it takes the next one: every record that can be sealed, and every removal. -/
theorem run_answers (ix : Index) (hP : ix.toPrimitives.Lawful) (hC : ix.toCodec.Lawful)
    (V : Unicode) (names : Set String) (hn : ix.Distinct names) (rows : Rows) (db : Database)
    (h : ix.Run V names rows db) :
    ix.Answers names rows db ∧
      (∀ r draws, r.path ∈ names → Path.validate V r.path = .ok () →
        (ix.encodeRecord r).length ≤ maxMessageLen → ∃ db', ix.put db r draws = .ok db') ∧
      ∀ path nonce, path ∈ names →
        ∃ db', ix.delete db path nonce = .ok (decide (path ∈ rows), db') := by
  obtain ⟨hrep, hfits, hrooted⟩ := h.represents hP hC hn
  refine ⟨hrep.answers hn hrooted hfits, fun r draws hname hvalid hseal =>
    hrep.put_of_validate hP hC hn draws hname hvalid hseal, fun path nonce hname => ?_⟩
  obtain ⟨db', hdelete, -⟩ :=
    @Represents.delete ix names rows db hP hC hn hrep path nonce hname hfits
  exact ⟨db', hdelete⟩

theorem exists_run_opened {V : Unicode} (hP : ix.toPrimitives.Lawful) (hC : ix.toCodec.Lawful)
    (hn : ix.Distinct names) : ∃ db, ix.Run V names ∅ db := by
  obtain ⟨db, hopen, -⟩ := (@versionZero_empty ix names).openDatabase hP hC hn (by simp)
    ⟨default, fun _ => default⟩
  exact ⟨db, .opened hopen⟩

theorem Run.exists_put (hP : ix.toPrimitives.Lawful) (hC : ix.toCodec.Lawful)
    (hn : ix.Distinct names) (h : ix.Run V names rows db) {r : Record} (hname : r.path ∈ names)
    (hvalid : Path.validate V r.path = .ok ()) (hseal : (ix.encodeRecord r).length ≤ maxMessageLen)
    (hfits : Rows.Fits (rows.insert r.path r)) :
    ∃ db', ix.Run V names (rows.insert r.path r) db' := by
  obtain ⟨hrep, -, -⟩ := h.represents hP hC hn
  obtain ⟨db', hput⟩ :=
    hrep.put_of_validate hP hC hn ⟨default, fun _ => default, default⟩ hname hvalid
    hseal
  exact ⟨db', h.put hvalid hname hfits hput⟩

/-- One record is put into a fresh index. -/
theorem run_sample : ∃ db, clearIndex.Run ⟨id, fun _ => true, fun _ => rfl⟩ sampleNames
    ((∅ : Rows).insert sampleRecord.path sampleRecord) db := by
  obtain ⟨db, hopened⟩ :=
    @exists_run_opened clearIndex sampleNames ⟨id, fun _ => true, fun _ => rfl⟩
    clearPrimitives_lawful Postcard.codec_lawful sampleNames_distinct
  exact hopened.exists_put clearPrimitives_lawful Postcard.codec_lawful sampleNames_distinct
    (.inr (.inr rfl)) (by decide) (by decide) (by unfold Rows.Fits; decide +kernel)

theorem run_answers_sample : ∃ rows db, clearIndex.Run ⟨id, fun _ => true, fun _ => rfl⟩ sampleNames
    rows db ∧ clearIndex.containsDir db "a" = true := by
  obtain ⟨db, hrun⟩ := run_sample
  obtain ⟨hanswers, -⟩ := run_answers clearIndex clearPrimitives_lawful Postcard.codec_lawful _
    sampleNames sampleNames_distinct _ _ hrun
  refine ⟨_, db, hrun, (hanswers.containsDir "a" (.inr (.inl rfl))).mpr ⟨by decide,
    sampleRecord.path, ?_, by decide⟩⟩
  rw [ExtTreeMap.mem_iff_isSome_getElem?, Table.getElem?_insert, if_pos rfl]
  rfl

/-- A file is stored, and the index denies that any lives under the root. -/
theorem containsDir_denies_root : ∃ rows db,
    clearIndex.Run ⟨id, fun _ => true, fun _ => rfl⟩ sampleNames rows db ∧
      (∃ path, path ∈ rows ∧ livesUnder "" path = true) ∧ clearIndex.containsDir db "" = false ∧
        clearIndex.hasDir db "" = .ok false := by
  obtain ⟨db, hrun⟩ := run_sample
  obtain ⟨hrep, -, hrooted⟩ := hrun.represents clearPrimitives_lawful Postcard.codec_lawful
    sampleNames_distinct
  have hdenies : clearIndex.containsDir db "" = false := by
    rw [← Bool.not_eq_true, hrep.containsDir sampleNames_distinct hrooted sampleNames_distinct.root]
    exact fun h => h.1 rfl
  refine ⟨_, db, hrun, ⟨sampleRecord.path, ?_, rfl⟩, hdenies, congrArg Except.ok hdenies⟩
  rw [ExtTreeMap.mem_iff_isSome_getElem?, Table.getElem?_insert, if_pos rfl]
  rfl

end Dctl.Index
