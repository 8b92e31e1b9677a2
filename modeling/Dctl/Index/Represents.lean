import Dctl.Index.Database
import Dctl.Crypto.Names

/-! Opening a database (`Index::open`): one of version 0 is rewritten with the parents, the
directories and the totals that its records imply.  The database as a finite map from paths to
records: which rows it holds for such a map, and that every transaction keeps them in step with it.
-/

namespace Dctl.Index

open ProofKit Crypto

structure MigratedDir where
  path : String
  parent : Digest
  refs : Nat

structure Carried where
  dirs : Table Digest MigratedDir
  totals : Totals

structure MigrateDraws where
  totals : Nonce
  dir : Digest → Nonce

variable (ix : Index)

def countDir (dirs : Table Digest MigratedDir) (dir : String) : Table Digest MigratedDir :=
  let key := ix.indexKey dir
  match dirs[key]? with
  | some entry => dirs.insert key { entry with refs := entry.refs + 1 }
  | none => dirs.insert key { path := dir, parent := ix.indexKey (parentOf dir), refs := 1 }

def absorb (carried : Carried) (record : Record) : Carried where
  dirs := (ancestorsOf record.path).foldl ix.countDir carried.dirs
  totals := carried.totals.with record

def rewriteRow (acc : Table Digest RecordRow × Carried) (e : Digest × RecordRow) :
    Except IndexError (Table Digest RecordRow × Carried) := do
  let record ← ix.decode e.1 e.2.value
  let parent := ix.indexKey (parentOf record.path)
  pure (acc.1.insert e.1 { parent := parent.bytes, value := e.2.value }, ix.absorb acc.2 record)

def rewriteWithParents (records : Table Digest RecordRow) :
    Except IndexError (Table Digest RecordRow × Carried) :=
  records.toList.foldlM ix.rewriteRow (∅, { dirs := ∅, totals := default })

def writeDir (draws : MigrateDraws) (dirs : Table Digest DirRow) (e : Digest × MigratedDir) :
    Except IndexError (Table Digest DirRow) := do
  let value ← ix.sealValue (draws.dir e.1) (utf8 e.2.path) e.1
  match dirs[e.1]? with
  | some row => pure (dirs.insert e.1 { row with refs := e.2.refs })
  | none => pure (dirs.insert e.1 { parent := e.2.parent, value, refs := e.2.refs })

def migrate (db : Database) (draws : MigrateDraws) : Except IndexError Database :=
  if schemaVersion ≤ db.version then pure db
  else do
    let (records, carried) ← ix.rewriteWithParents db.records
    let totals ← ix.writeTotals draws.totals carried.totals
    -- A `HashMap` yields the directories in any order; each has its own row.
    let dirs ← carried.dirs.toList.foldlM (ix.writeDir draws) db.dirs
    pure { records, dirs, totals := some totals, version := schemaVersion }

def openDatabase (db : Database) (draws : MigrateDraws) : Except IndexError Database :=
  ix.migrate db draws

end Dctl.Index

namespace Dctl.Index

open Std ProofKit Crypto

/-- What an index is about: the record of each stored path. -/
abbrev Rows := Table String Record

namespace Rows

def scan (rows : Rows) : List Record := rows.toList.map Prod.snd

def beneath (rows : Rows) (dir : String) : Nat :=
  Table.sum (fun path _ => if dir ≠ "" ∧ under dir path = true then 1 else 0) rows

def files (rows : Rows) : Nat := Table.sum (fun _ _ => 1) rows

def measured (rows : Rows) : Nat :=
  Table.sum (fun _ r => if r.unmeasured then 0 else r.size.toNat) rows

def unmeasured (rows : Rows) : Nat := Table.sum (fun _ r => if r.unmeasured then 1 else 0) rows

/-- The counts of the rows fit 64 bits. -/
def Fits (rows : Rows) : Prop := rows.files < 2 ^ 64 ∧ rows.measured < 2 ^ 64

def saturated (n : Nat) : UInt64 := UInt64.ofNat (min n (2 ^ 64 - 1))

def totals (rows : Rows) : Totals where
  objects := saturated rows.files
  bytes := saturated rows.measured
  unmeasured := saturated rows.unmeasured

theorem toNat_saturated {n : Nat} (h : n < 2 ^ 64) : (saturated n).toNat = n := by
  rw [saturated, Nat.min_eq_left (by omega), UInt64.toNat_ofNat_of_lt' h]

theorem saturatingAdd_saturated (n : Nat) (m : UInt64) :
    saturatingAdd (saturated n) m = saturated (n + m.toNat) := by
  unfold saturatingAdd saturated
  congr 1
  rw [UInt64.toNat_ofNat_of_lt' (show min n (2 ^ 64 - 1) < 2 ^ 64 by omega)]
  omega

theorem saturatingSub_saturated {n : Nat} {m : UInt64} (h : m.toNat + n < 2 ^ 64) :
    saturatingSub (saturated (m.toNat + n)) m = saturated n := by
  rw [saturatingSub, toNat_saturated (by omega), saturated]
  congr 1
  omega

theorem unmeasured_le_files (rows : Rows) : rows.unmeasured ≤ rows.files := by
  apply Table.sum_mono
  intro _ r _
  split <;> omega

variable {rows : Rows} {path : String} {r old : Record}

theorem totals_insert (h : rows[path]? = none) :
    Rows.totals (rows.insert path r) = rows.totals.with r := by
  unfold totals files measured unmeasured Totals.with
  simp only [Table.sum_insert h]
  cases r.unmeasured <;>
    simp only [if_true, Bool.false_eq_true, if_false, saturatingAdd_saturated, Totals.mk.injEq,
      Nat.zero_add, UInt64.toNat_one, and_true, true_and] <;>
    simp only [Nat.add_comm, and_self]

theorem totals_erase (hfits : rows.Fits) (h : rows[path]? = some r) :
    Rows.totals (rows.erase path) = rows.totals.without r := by
  have hfiles : rows.files = 1 + Rows.files (rows.erase path) := Table.sum_erase h
  have hmeasured : rows.measured = (if r.unmeasured then 0 else r.size.toNat) +
    Rows.measured (rows.erase path) := Table.sum_erase h
  have hunmeasured : rows.unmeasured = (if r.unmeasured then 1 else 0) +
    Rows.unmeasured (rows.erase path) := Table.sum_erase h
  have hle := rows.unmeasured_le_files
  obtain ⟨hf, hm⟩ := hfits
  have hone : ∀ {n : Nat}, 1 + n < 2 ^ 64 → saturatingSub (saturated (1 + n)) 1 = saturated n :=
    fun hn => @saturatingSub_saturated _ 1 hn
  unfold totals Totals.without
  cases hr : r.unmeasured with
  | true =>
    simp only [hr, if_true, Nat.zero_add] at hmeasured hunmeasured ⊢
    rw [hfiles, hunmeasured, hmeasured, hone (by omega), hone (by omega)]
  | false =>
    simp only [hr, Bool.false_eq_true, if_false, Nat.zero_add] at hmeasured hunmeasured ⊢
    rw [hfiles, hunmeasured, hmeasured, hone (by omega), saturatingSub_saturated (by omega)]

theorem totals_replace (hfits : rows.Fits) (h : rows[path]? = some old) :
    Rows.totals (rows.insert path r) = (rows.totals.without old).with r := by
  have hnone : (rows.erase path)[path]? = none := by rw [Table.getElem?_erase, if_pos rfl]
  rw [← totals_erase hfits h, ← totals_insert hnone, Table.insert_erase_eq]

theorem beneath_insert (h : rows[path]? = none) (dir : String) :
    Rows.beneath (rows.insert path r) dir =
      rows.beneath dir + if dir ∈ ancestorsOf path then 1 else 0 := by
  simp only [mem_ancestorsOf]
  rw [beneath, Table.sum_insert h, Nat.add_comm]
  rfl

theorem beneath_replace (h : rows[path]? = some old) (dir : String) :
    Rows.beneath (rows.insert path r) dir = rows.beneath dir :=
  Nat.add_right_cancel ((Table.sum_insert_of_some h).trans (Nat.add_comm ..))

theorem beneath_erase (h : rows[path]? = some old) (dir : String) :
    rows.beneath dir = Rows.beneath (rows.erase path) dir + if dir ∈ ancestorsOf path
      then 1 else 0 := by
  simp only [mem_ancestorsOf]
  rw [beneath, Table.sum_erase h, Nat.add_comm]
  rfl

theorem beneath_pos_iff {dir : String} :
    0 < rows.beneath dir ↔ ∃ path, path ∈ rows ∧ dir ∈ ancestorsOf path := by
  simp only [mem_ancestorsOf]
  rw [beneath, Table.sum_pos_iff]
  constructor
  · rintro ⟨path, r, hrow, hpos⟩
    refine ⟨path, ExtTreeMap.mem_iff_isSome_getElem?.mpr (by rw [hrow]; rfl), ?_⟩
    by_contra hnot
    rw [if_neg hnot] at hpos
    exact absurd hpos (by decide)
  · rintro ⟨path, hmem, hdir⟩
    obtain ⟨r, hrow⟩ := Option.isSome_iff_exists.mp (ExtTreeMap.mem_iff_isSome_getElem?.mp hmem)
    exact ⟨path, r, hrow, by rw [if_pos hdir]; decide⟩

end Rows

variable (ix : Index)

def RecordHolds (path : String) (row : RecordRow) (r : Record) : Prop :=
  row.parent = (ix.indexKey (parentOf path)).bytes ∧ ix.decode (ix.indexKey path) row.value = .ok r

def DirHolds (dir : String) (row : DirRow) (n : Nat) : Prop :=
  row.parent = ix.indexKey (parentOf dir) ∧ ix.decodeDir (ix.indexKey dir) row.value = .ok dir ∧
    row.refs = n

def counted (n : String → Nat) (dir : String) : Option Nat :=
  if n dir = 0 then none else some (n dir)

/-- No two of the names have the same hash, and with a name there are the directories above it and
the root. -/
structure Distinct (names : Set String) : Prop where
  root : "" ∈ names
  ancestors : ∀ path ∈ names, ∀ dir ∈ ancestorsOf path, dir ∈ names
  injective : Set.InjOn ix.indexKey names

structure Represents (names : Set String) (rows : Rows) (db : Database) : Prop where
  records : Keyed ix.indexKey names ix.RecordHolds db.records fun path => rows[path]?
  dirs : Keyed ix.indexKey names ix.DirHolds db.dirs (counted rows.beneath)
  totals : ix.readTotals db = .ok rows.totals
  path : ∀ path (r : Record), rows[path]? = some r → r.path = path

variable {ix}

section

variable (hP : ix.toPrimitives.Lawful)
include hP

theorem openValue_sealValue {nonce : Nonce} {plaintext value : Bytes} {key : Digest}
    (h : ix.sealValue nonce plaintext key = .ok value) : ix.openValue key value = .ok plaintext :=
  mapError_eq_ok.mpr (Aead.decrypt_encrypt hP (mapError_eq_ok.mp h))

theorem sealValue_isOk (nonce : Nonce) {plaintext : Bytes} (key : Digest)
    (h : plaintext.length ≤ maxMessageLen) :
    ∃ value, ix.sealValue nonce plaintext key = .ok value := by
  obtain ⟨value, hvalue⟩ := Aead.encrypt_isOk hP ix.encKey nonce plaintext key.bytes h
  exact ⟨value, mapError_eq_ok.mpr hvalue⟩

theorem decodeDir_sealValue {nonce : Nonce} {dir : String} {value : Bytes} {key : Digest}
    (h : ix.sealValue nonce (utf8 dir) key = .ok value) : ix.decodeDir key value = .ok dir := by
  unfold decodeDir
  rw [openValue_sealValue hP h, ok_bind, fromUtf8_utf8]
  rfl

theorem decode_sealValue (hC : ix.toCodec.Lawful) {nonce : Nonce} {r : Record} {value : Bytes}
    {key : Digest} (h : ix.sealValue nonce (ix.encodeRecord r) key = .ok value) :
    ix.decode key value = .ok r := by
  unfold decode
  rw [openValue_sealValue hP h, ok_bind, hC.decode_encodeRecord]
  rfl

end

section Dirs

variable {names : Set String} {dirs dirs' : Table Digest DirRow} {n : String → Nat} {nonce : Nonce}
  {dir : String}

theorem update_counted (m : Nat) :
    Function.update (counted n) dir (if m = 0 then none else some m) =
      counted (Function.update n dir m) := by
  funext d
  by_cases hd : d = dir
  · rw [hd, Function.update_self, counted, Function.update_self]
  · rw [Function.update_of_ne hd, counted, counted, Function.update_of_ne hd]

theorem bumpDir_one (hP : ix.toPrimitives.Lawful) (hinj : Set.InjOn ix.indexKey names)
    (h : Keyed ix.indexKey names ix.DirHolds dirs (counted n)) (hdir : dir ∈ names)
    (hbump : ix.bumpDir dirs nonce dir 1 = .ok dirs') :
    Keyed ix.indexKey names ix.DirHolds dirs' (counted (Function.update n dir (n dir + 1))) := by
  unfold bumpDir at hbump
  rw [if_pos Int.one_pos, bind_eq_ok] at hbump
  obtain ⟨value, hvalue, hbump⟩ := hbump
  rw [← update_counted, if_neg (Nat.succ_ne_zero _)]
  by_cases hzero : n dir = 0
  · rw [h.get_none hinj hdir (if_pos hzero)] at hbump
    obtain rfl := pure_eq_ok.mp hbump
    refine h.insert hdir ⟨rfl, decodeDir_sealValue hP hvalue, ?_⟩
    rw [hzero]
    rfl
  · obtain ⟨row, hrow, hparent, hopen, hrefs⟩ := h.get_some hinj (if_neg hzero)
    rw [hrow] at hbump
    obtain rfl := pure_eq_ok.mp hbump
    exact h.insert hdir ⟨hparent, hopen, by rw [hrefs]; rfl⟩

theorem bumpDir_neg_one (hinj : Set.InjOn ix.indexKey names)
    (h : Keyed ix.indexKey names ix.DirHolds dirs (counted n)) (hdir : dir ∈ names)
    (hpos : 0 < n dir) :
    ∃ dirs', ix.bumpDir dirs nonce dir (-1) = .ok dirs' ∧
      Keyed ix.indexKey names ix.DirHolds dirs' (counted (Function.update n dir (n dir - 1))) := by
  obtain ⟨row, hrow, hparent, hopen, hrefs⟩ :=
    h.get_some hinj (if_neg (Nat.pos_iff_ne_zero.mp hpos))
  unfold bumpDir
  rw [if_neg (by decide), hrow, ← update_counted]
  by_cases hlast : n dir - 1 = 0
  · rw [if_pos hlast]
    exact ⟨_, if_pos (by rw [hrefs]; omega), h.erase hinj hdir⟩
  · rw [if_neg hlast]
    refine ⟨_, if_neg (by rw [hrefs]; omega), h.insert hdir ⟨hparent, hopen, ?_⟩⟩
    simp only [hrefs]
    omega

theorem bumpDir_one_isOk (hP : ix.toPrimitives.Lawful) (dirs : Table Digest DirRow) (nonce : Nonce)
    (h : (utf8 dir).length ≤ maxMessageLen) : ∃ dirs', ix.bumpDir dirs nonce dir 1 = .ok dirs' := by
  obtain ⟨value, hvalue⟩ := sealValue_isOk hP nonce (ix.indexKey dir) h
  unfold bumpDir
  rw [if_pos Int.one_pos]
  simp only [hvalue, ok_bind]
  split <;> exact ⟨_, rfl⟩

variable {above : List String}

theorem foldl_count (hnodup : above.Nodup) (n : String → Nat) :
    above.foldl (fun n d => Function.update n d (n d + 1)) n =
      fun d => n d + if d ∈ above then 1 else 0 := by
  induction above generalizing n with
  | nil => rfl
  | cons a above ih =>
    obtain ⟨hnew, hnodup⟩ := List.nodup_cons.mp hnodup
    rw [List.foldl_cons, ih hnodup]
    funext d
    by_cases hd : d = a
    · simp only [hd, Function.update_self, List.mem_cons, true_or, if_true,
        if_neg hnew, Nat.add_zero]
    · simp only [Function.update_of_ne hd, List.mem_cons, hd, false_or]

theorem bumpDirs_one (hP : ix.toPrimitives.Lawful) (hinj : Set.InjOn ix.indexKey names)
    {draw : String → Nonce} (hnames : ∀ d ∈ above, d ∈ names)
    (h : Keyed ix.indexKey names ix.DirHolds dirs (counted n))
    (hbump : above.foldlM (fun dirs d => ix.bumpDir dirs (draw d) d 1) dirs = .ok dirs') :
    Keyed ix.indexKey names ix.DirHolds dirs'
      (counted (above.foldl (fun n d => Function.update n d (n d + 1)) n)) := by
  induction above generalizing dirs n with
  | nil =>
    obtain rfl := pure_eq_ok.mp hbump
    exact h
  | cons a above ih =>
    rw [List.foldlM_cons, bind_eq_ok] at hbump
    obtain ⟨dirs1, hfirst, hrest⟩ := hbump
    exact ih (fun d hd => hnames d (List.mem_cons_of_mem _ hd))
      (bumpDir_one hP hinj h (hnames a (List.mem_cons_self ..)) hfirst) hrest

theorem bumpDirs_one_isOk (hP : ix.toPrimitives.Lawful) {draw : String → Nonce}
    (hseal : ∀ d ∈ above, (utf8 d).length ≤ maxMessageLen) (dirs : Table Digest DirRow) :
    ∃ dirs', above.foldlM (fun dirs d => ix.bumpDir dirs (draw d) d 1) dirs = .ok dirs' := by
  induction above generalizing dirs with
  | nil => exact ⟨dirs, rfl⟩
  | cons a above ih =>
    obtain ⟨dirs1, hfirst⟩ := bumpDir_one_isOk hP dirs (draw a) (hseal a (List.mem_cons_self ..))
    obtain ⟨dirs', hrest⟩ := ih (fun d hd => hseal d (List.mem_cons_of_mem _ hd)) dirs1
    exact ⟨dirs', by rw [List.foldlM_cons, hfirst, ok_bind, hrest]⟩

theorem bumpDirs_neg_one (hinj : Set.InjOn ix.indexKey names) {above : List String}
    (hnodup : above.Nodup) (hnames : ∀ d ∈ above, d ∈ names) (hpos : ∀ d ∈ above, 0 < n d)
    (h : Keyed ix.indexKey names ix.DirHolds dirs (counted n)) :
    ∃ dirs', above.foldlM (fun dirs d => ix.bumpDir dirs nonce d (-1)) dirs = .ok dirs' ∧
      Keyed ix.indexKey names ix.DirHolds dirs'
        (counted fun d => n d - if d ∈ above then 1 else 0) := by
  induction above generalizing dirs n with
  | nil => exact ⟨dirs, rfl, h⟩
  | cons a above ih =>
    obtain ⟨hnew, hnodup⟩ := List.nodup_cons.mp hnodup
    obtain ⟨dirs1, hfirst, hone⟩ := @bumpDir_neg_one ix names dirs n nonce a hinj h
      (hnames a (List.mem_cons_self ..)) (hpos a (List.mem_cons_self ..))
    have hpos' : ∀ d ∈ above, 0 < Function.update n a (n a - 1) d := by
      intro d hd
      have hne : d ≠ a := fun heq => hnew (heq ▸ hd)
      rw [Function.update_of_ne hne]
      exact hpos d (List.mem_cons_of_mem _ hd)
    obtain ⟨dirs', hrest, hkeyed⟩ := ih hnodup (fun d hd => hnames d (List.mem_cons_of_mem _ hd))
      hpos' hone
    refine ⟨dirs', by rw [List.foldlM_cons, hfirst, ok_bind, hrest], hkeyed.congr fun d => ?_⟩
    unfold counted
    by_cases hd : d = a
    · simp only [hd, Function.update_self, List.mem_cons, true_or, if_true,
        if_neg hnew, Nat.sub_zero]
    · simp only [Function.update_of_ne hd, List.mem_cons, hd, false_or]

theorem counted_beneath_insert {rows : Rows} {path : String} {r : Record} (h : rows[path]? = none) :
    counted ((ancestorsOf path).foldl (fun n d => Function.update n d (n d + 1)) rows.beneath) =
      counted (Rows.beneath (rows.insert path r)) := by
  rw [foldl_count (nodup_ancestorsOf path)]
  congr 1
  funext d
  rw [Rows.beneath_insert h]

end Dirs

section Transactions

variable {names : Set String} {rows : Rows} {db db' : Database}

theorem Represents.read (h : ix.Represents names rows db) (hn : ix.Distinct names) {path : String}
    (hpath : path ∈ names) : ix.read db (ix.indexKey path) = .ok rows[path]? := by
  unfold Index.read
  cases hrow : rows[path]? with
  | none =>
    rw [h.records.get_none hn.injective hpath hrow]
    rfl
  | some r =>
    obtain ⟨row, hstored, -, hopen⟩ := h.records.get_some hn.injective hrow
    simp only [hstored, hopen, map_eq_ok, Except.ok.injEq, exists_eq_left']

theorem update_insert (rows : Rows) (path : String) (r : Record) (p : String) :
    Function.update (fun p => rows[p]?) path (some r) p = (rows.insert path r)[p]? := by
  rw [Table.getElem?_insert]
  exact Function.update_apply ..

theorem update_erase (rows : Rows) (path p : String) :
    Function.update (fun p => rows[p]?) path none p = (rows.erase path)[p]? := by
  rw [Table.getElem?_erase]
  exact Function.update_apply ..

section

variable (hP : ix.toPrimitives.Lawful) (hC : ix.toCodec.Lawful)
include hP hC

theorem readTotals_writeTotals {nonce : Nonce} {t : Totals} {value : Bytes}
    (h : ix.writeTotals nonce t = .ok value) (hdb : db.totals = some value) :
    ix.readTotals db = .ok t := by
  unfold readTotals
  rw [hdb]
  simp only [openValue_sealValue hP h, ok_bind, hC.decode_encodeTotals]
  rfl

theorem writeTotals_isOk (nonce : Nonce) (t : Totals) :
    ∃ value, ix.writeTotals nonce t = .ok value := by
  have hlen := hC.length_encodeTotals t
  exact sealValue_isOk hP nonce _ (by simp only [maxMessageLen]; omega)

theorem shiftTotals_eq_ok {nonce : Nonce} {was now : Option Record} {t : Totals}
    (h : ix.readTotals db = .ok t) :
    ∃ value, ix.shiftTotals db nonce was now = .ok value ∧ ∀ db' : Database,
      db'.totals = some value →
      ix.readTotals db' =
        .ok (now.elim (was.elim t t.without) (was.elim t t.without).with) := by
  obtain ⟨value, hvalue⟩ := writeTotals_isOk hP hC nonce
    (now.elim (was.elim t t.without) (was.elim t t.without).with)
  refine ⟨value, ?_, fun db' hdb' => readTotals_writeTotals hP hC hvalue hdb'⟩
  unfold shiftTotals
  rw [h, ok_bind, ← hvalue]
  cases was <;> cases now <;> rfl

theorem Represents.put (hn : ix.Distinct names) (h : ix.Represents names rows db) {r : Record}
    {draws : PutDraws} (hname : r.path ∈ names) (hfits : r.path ∈ rows → rows.Fits)
    (hput : ix.put db r draws = .ok db') : ix.Represents names (rows.insert r.path r) db' := by
  unfold Index.put at hput
  simp only [h.read hn hname, ok_bind, bind_eq_ok, pure_eq_ok] at hput
  obtain ⟨blob, hblob, dirs, hdirs, totals, htotals, rfl⟩ := hput
  obtain ⟨value, hvalue, hread⟩ :=
    @shiftTotals_eq_ok ix db hP hC draws.totals rows[r.path]? (some r) _ h.totals
  obtain rfl : value = totals := by rwa [hvalue, Except.ok.injEq] at htotals
  refine ⟨?_, ?_, ?_, ?_⟩
  · exact (h.records.insert hname ⟨rfl, decode_sealValue hP hC hblob⟩).congr
      (update_insert rows r.path r)
  · unfold implyDirs at hdirs
    cases hrow : rows[r.path]? with
    | none =>
      rw [hrow] at hdirs
      refine (bumpDirs_one hP hn.injective (hn.ancestors _ hname) h.dirs hdirs).congr fun d => ?_
      rw [counted_beneath_insert hrow]
    | some old =>
      rw [hrow] at hdirs
      obtain rfl := pure_eq_ok.mp hdirs
      refine h.dirs.congr fun d => ?_
      simp only [counted, Rows.beneath_replace hrow]
  · rw [hread _ rfl]
    cases hrow : rows[r.path]? with
    | none => rw [Rows.totals_insert hrow]; rfl
    | some old =>
      have hmem : r.path ∈ rows := ExtTreeMap.mem_iff_isSome_getElem?.mpr (by rw [hrow]; rfl)
      rw [Rows.totals_replace (hfits hmem) hrow]
      rfl
  · intro path r' hr'
    rw [Table.getElem?_insert] at hr'
    split at hr'
    next heq =>
      obtain rfl := Option.some.inj hr'
      exact heq.symm
    next => exact h.path path r' hr'

theorem Represents.put_isOk (hn : ix.Distinct names) (h : ix.Represents names rows db) {r : Record}
    (draws : PutDraws) (hname : r.path ∈ names) (hseal : (ix.encodeRecord r).length ≤ maxMessageLen)
    (hdirs : ∀ d ∈ ancestorsOf r.path, (utf8 d).length ≤ maxMessageLen) :
    ∃ db', ix.put db r draws = .ok db' := by
  obtain ⟨blob, hblob⟩ := sealValue_isOk hP draws.record (ix.indexKey r.path) hseal
  obtain ⟨value, hvalue, -⟩ :=
    @shiftTotals_eq_ok ix db hP hC draws.totals rows[r.path]? (some r) _ h.totals
  obtain ⟨dirs, hbump⟩ : ∃ dirs, ix.implyDirs db.dirs draws.dir r.path rows[r.path]? =
    .ok dirs := by
    unfold implyDirs
    split
    · exact bumpDirs_one_isOk hP hdirs db.dirs
    · exact ⟨_, rfl⟩
  unfold Index.put
  simp only [hblob, h.read hn hname, hbump, hvalue, ok_bind]
  exact ⟨_, rfl⟩

theorem Represents.delete (hn : ix.Distinct names) (h : ix.Represents names rows db) {path : String}
    {nonce : Nonce} (hname : path ∈ names) (hfits : rows.Fits) :
    ∃ db', ix.delete db path nonce = .ok (decide (path ∈ rows), db') ∧
      ix.Represents names (rows.erase path) db' := by
  unfold Index.delete
  simp only [h.read hn hname, ok_bind]
  cases hrow : rows[path]? with
  | none =>
    have hmem : path ∉ rows := by
      rw [ExtTreeMap.mem_iff_isSome_getElem?, hrow]
      decide
    refine ⟨db, by rw [decide_eq_false hmem]; rfl, ?_⟩
    rwa [Table.erase_of_none hrow]
  | some r =>
    have hmem : path ∈ rows := ExtTreeMap.mem_iff_isSome_getElem?.mpr (by rw [hrow]; rfl)
    have hpos : ∀ d ∈ ancestorsOf path, 0 < rows.beneath d := fun d hd =>
      Rows.beneath_pos_iff.mpr ⟨path, hmem, hd⟩
    obtain ⟨dirs, hbump, hkeyed⟩ := @bumpDirs_neg_one ix names db.dirs rows.beneath nonce
      hn.injective _ (nodup_ancestorsOf path) (hn.ancestors _ hname) hpos h.dirs
    obtain ⟨value, hvalue, hread⟩ := @shiftTotals_eq_ok ix db hP hC nonce (some r) none _ h.totals
    simp only [bumpDirs, hbump, hvalue, ok_bind, decide_eq_true hmem]
    refine ⟨_, rfl, ?_, ?_, ?_, ?_⟩
    · exact (h.records.erase hn.injective hname).congr (update_erase rows path)
    · refine hkeyed.congr fun d => ?_
      have hbeneath := Rows.beneath_erase hrow d
      have hcount : rows.beneath d - (if d ∈ ancestorsOf path then 1 else 0) =
          Rows.beneath (rows.erase path) d := by omega
      simp only [counted, hcount]
    · rw [hread _ rfl, Rows.totals_erase hfits hrow]
      rfl
    · intro p r' hr'
      rw [Table.getElem?_erase] at hr'
      split at hr'
      next => cases hr'
      next => exact h.path p r' hr'

end

end Transactions

end Dctl.Index
