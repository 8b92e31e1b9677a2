import Mathlib.Data.List.Nodup
import Dctl.Transfer.Plan

/-! When a syncing plan makes the destination hold the files of the source: which pairs of listings
the pairing of `plan.rs` gets right. -/

namespace Dctl.Transfer

open Cli ProofKit List

def filePaths (l : List Entry) : List String := (l.filter (·.isFile)).map (·.path)

variable {p : String}

theorem mem_filePaths {l : List Entry} :
    p ∈ filePaths l ↔ ∃ e ∈ l, e.isFile = true ∧ e.path = p := by
  simp [filePaths, and_assoc]

/-- Every directory a listing names is an empty-directory entry. -/
def Enumerated (l : List Entry) : Prop := ∀ e ∈ l, e.isFile = false → e = .ofEmptyDir e.path

namespace Plan

variable {source dest : List Entry} {policy : Policy} {plan : Plan} {item : Entry}
  {entry : PlanEntry} {entries : List PlanEntry}

section

variable (h : sourceEntry dest policy item = .ok entry)
include h

theorem sourceEntry_file (hf : item.isFile = true) :
    ∃ action, fileAction item (lastWith Entry.path dest item.path) policy = .ok action ∧
      entry = fileEntry item item.path action := by
  rw [sourceEntry, if_pos hf] at h
  cases ha : fileAction item (lastWith Entry.path dest item.path) policy with
  | error e =>
    rw [ha] at h
    cases h
  | ok action =>
    rw [ha] at h
    exact ⟨action, rfl, (Except.ok.inj h).symm⟩

theorem sourceEntry_dir (hf : ¬item.isFile = true) :
    entry = emptyDirEntry item (lastWith Entry.path dest item.path).isSome policy := by
  rw [sourceEntry, if_neg hf] at h
  exact (Except.ok.inj h).symm

theorem sourceEntry_dest : entry.dest = item.path := by
  by_cases hf : item.isFile = true
  · obtain ⟨action, -, rfl⟩ := sourceEntry_file h hf
    rfl
  · rw [sourceEntry_dir h hf]
    rfl

theorem sourceEntry_ne_delete : entry.action ≠ .delete := by
  by_cases hf : item.isFile = true
  · obtain ⟨action, -, rfl⟩ := sourceEntry_file h hf
    cases action <;> exact nofun
  · rw [sourceEntry_dir h hf]
    simp only [emptyDirEntry]
    split <;> exact nofun

theorem isFile_of_transfers (ht : entry.action.transfers = true) : item.isFile = true := by
  by_contra hf
  rw [sourceEntry_dir h hf] at ht
  simp only [emptyDirEntry] at ht
  split at ht <;> cases ht

theorem action_of_isFile (hf : item.isFile = true) :
    entry.action.transfers = true ∨ entry.action = .skip := by
  obtain ⟨action, -, rfl⟩ := sourceEntry_file h hf
  cases action
  · exact Or.inl rfl
  · exact Or.inl rfl
  · exact Or.inr rfl

end

section

variable
  (hall : List.Forall₂ (fun item entry => sourceEntry dest policy item = .ok entry) source entries)
include hall

theorem exists_entry (hi : item ∈ source) :
    ∃ entry ∈ entries, sourceEntry dest policy item = .ok entry :=
  forall₂_exists_right hall hi

theorem exists_item (he : entry ∈ entries) :
    ∃ item ∈ source, sourceEntry dest policy item = .ok entry := by
  have := forall₂_exists_left hall he
  exact this

theorem countP_entries (p : String) : entries.countP (·.dest = p) = source.countP (·.path = p) := by
  induction hall with
  | nil => rfl
  | cons hentry _ ih => simp only [countP_cons, ih, sourceEntry_dest hentry]

end

variable {d : Entry}

theorem mem_extrasOf : d ∈ extrasOf source dest ↔
    d.isFile = true ∧ ∃ i, dest[i]? = some d ∧ Unmatched source dest i := by
  simp only [extrasOf, mem_map, mem_filter, Prod.exists,
    mem_zipIdx_iff_getElem?, Bool.decide_and, Bool.and_eq_true, decide_eq_true_eq]
  constructor
  · rintro ⟨x, i, ⟨hi, hun, hf⟩, rfl⟩
    exact ⟨hf, i, hi, hun⟩
  · rintro ⟨hf, i, hi, hun⟩
    exact ⟨d, i, ⟨hi, hun, hf⟩, rfl⟩

theorem countP_extrasOf (p : String) : (extrasOf source dest).countP (·.path = p) =
    (dest.zipIdx.filter fun x => x.1.path = p ∧ Unmatched source dest x.2 ∧ x.1.isFile).length := by
  rw [extrasOf, countP_map, countP_eq_length_filter, filter_filter]
  congr 2
  funext x
  simp [Bool.decide_and]

theorem extrasOf_sublist : (extrasOf source dest).Sublist (dest.filter (·.isFile)) := by
  have hfiles : (dest.zipIdx.filter fun x => x.1.isFile).map Prod.fst = dest.filter (·.isFile) := by
    rw [show (fun x : Entry × Nat => x.1.isFile) = (fun e : Entry => e.isFile) ∘ Prod.fst from rfl,
      ← filter_map, zipIdx_map_fst]
  rw [extrasOf, ← hfiles]
  apply List.Sublist.map
  simp only [Bool.decide_and, ← filter_filter, Bool.decide_eq_true]
  exact filter_sublist

theorem unmatched_of_later {i j : Nat} {d e : Entry} (hi : dest[i]? = some d)
    (hj : dest[j]? = some e) (hij : i < j) (hp : e.path = d.path) : Unmatched source dest i := by
  intro item _ hpos
  obtain ⟨⟨x, hx, hkey⟩, hlast⟩ := positions_eq_some.mp hpos
  obtain rfl : x = d := Option.some.inj (hx.symm.trans hi)
  exact hlast j e hij hj (hp.trans hkey)

theorem matched_of_last {i : Nat} (hi : dest[i]? = some d)
    (hlast : ∀ j e, i < j → dest[j]? = some e → e.path ≠ d.path) (hs : item ∈ source)
    (hp : item.path = d.path) : ¬Unmatched source dest i := by
  intro hun
  refine hun item hs (positions_eq_some.mpr ⟨⟨d, hi, hp.symm⟩, ?_⟩)
  intro j e hij hj
  rw [hp]
  exact hlast j e hij hj

theorem unmatched_of_absent {i : Nat} (hi : dest[i]? = some d)
    (hs : ∀ item ∈ source, item.path ≠ d.path) : Unmatched source dest i := by
  intro item hitem hpos
  obtain ⟨⟨x, hx, hkey⟩, -⟩ := positions_eq_some.mp hpos
  obtain rfl : x = d := Option.some.inj (hx.symm.trans hi)
  exact hs item hitem hkey.symm

/-- The file paths at the destination after one entry. -/
def leave (files : List String) (entry : PlanEntry) : List String :=
  match entry.action with
  | .copy | .update => entry.dest :: files
  | .delete => files.filter (· ≠ entry.dest)
  | .skip | .createDir => files

def filesLeft (plan : Plan) (files : List String) : List String := plan.entries.foldl leave files

variable {files : List String}

theorem leave_transfers (h : entry.action.transfers = true) :
    leave files entry = entry.dest :: files := by
  unfold leave
  cases ha : entry.action <;> simp [ha, Op.transfers] at h ⊢

theorem leave_other (h : ¬entry.action.transfers = true) (hd : entry.action ≠ .delete) :
    leave files entry = files := by
  unfold leave
  cases ha : entry.action <;> simp [ha, Op.transfers] at h hd ⊢

theorem mem_foldl_leave (hd : ∀ e ∈ entries, e.action ≠ .delete) : p ∈ entries.foldl leave files ↔
      p ∈ files ∨ ∃ e ∈ entries, e.action.transfers = true ∧ e.dest = p := by
  induction entries generalizing files with
  | nil => simp
  | cons e rest ih =>
    rw [foldl_cons, ih fun x hx => hd x (by simp [hx])]
    by_cases ht : e.action.transfers = true
    · rw [leave_transfers ht]
      simp only [mem_cons, exists_eq_or_imp, ht, true_and, or_assoc, eq_comm (a := p)]
      tauto
    · rw [leave_other ht (hd e (by simp))]
      simp [ht]

theorem mem_foldl_extras {l : List Entry} :
    p ∈ (l.map extraEntry).foldl leave files ↔ p ∈ files ∧ ∀ d ∈ l, d.path ≠ p := by
  induction l generalizing files with
  | nil => simp
  | cons d rest ih =>
    rw [map_cons, foldl_cons, ih]
    simp only [leave, extraEntry, mem_filter, decide_eq_true_eq, forall_mem_cons,
      and_assoc, ne_comm (a := p)]

/-- What a syncing plan is for: nothing is both kept and deleted, each destination file is spoken
for once, and the destination ends with the files of the source. -/
structure Mirrors (source dest : List Entry) (plan : Plan) : Prop where
  exclusive : ∀ e ∈ plan.entries, ∀ x ∈ plan.entries,
    e.action = .copy ∨ e.action = .update ∨ e.action = .skip → x.action = .delete → e.dest ≠ x.dest
  once : ∀ p ∈ filePaths dest, plan.entries.countP (·.dest = p) = 1
  left : ∀ p, p ∈ plan.filesLeft (filePaths dest) ↔ p ∈ filePaths source

/-- The policy passes over the item whatever it holds. -/
def passesOver (compare : ComparePolicy) (item : Entry) : Prop :=
  compare.ignoreExisting = true ∨ (compare.sizeOnly = true ∧ item.size = some 0)

/-- The pairs of listings that pairing by path gets right.  No two destination files share a path;
a source path with a destination file is named by one source entry, a file, and the file is the
last destination entry of that path; a source file over an empty directory is not passed over. -/
structure Paired (source dest : List Entry) (compare : ComparePolicy) : Prop where
  distinct : dest.Pairwise fun a b => a.isFile = true → b.isFile = true → a.path ≠ b.path
  meets : ∀ s ∈ source, s.path ∈ filePaths dest → s.isFile = true ∧
    source.countP (·.path = s.path) = 1 ∧
    ∀ d, lastWith Entry.path dest s.path = some d → d.isFile = true
  replaces : ∀ s ∈ source, s.isFile = true →
    (∃ d, lastWith Entry.path dest s.path = some d ∧ ¬d.isFile = true) →
    ∃ s' ∈ source, s'.isFile = true ∧ s'.path = s.path ∧ ¬passesOver compare s'

section

variable {compare : ComparePolicy} (hp : Paired source dest compare)
include hp

theorem Paired.matched {i : Nat} (hi : dest[i]? = some d) (hf : d.isFile = true)
    (hs : item ∈ source) (hpath : item.path = d.path) : ¬Unmatched source dest i := by
  have hmem : d ∈ dest := mem_of_getElem? hi
  obtain ⟨-, -, hlast⟩ := hp.meets item hs (mem_filePaths.mpr ⟨d, hmem, hf, hpath.symm⟩)
  apply matched_of_last hi _ hs hpath
  intro j e hij hj hpe
  -- The last entry of the path is a file, so it is this one.
  cases hpos : positions Entry.path dest item.path with
  | none => exact positions_eq_none.mp hpos d hmem hpath.symm
  | some k =>
    obtain ⟨⟨x, hx, hkx⟩, hafter⟩ := positions_eq_some.mp hpos
    have hxf : x.isFile = true := hlast x (by simp [lastWith, hpos, hx])
    have hki : k = i := by
      obtain ⟨hk, rfl⟩ := List.getElem?_eq_some_iff.mp hx
      obtain ⟨hi', rfl⟩ := List.getElem?_eq_some_iff.mp hi
      rcases Nat.lt_trichotomy k i with h | h | h
      · exact absurd (hkx.trans hpath)
          (pairwise_iff_getElem.mp hp.distinct k i hk hi' h hxf hf)
      · exact h
      · exact absurd (hkx.trans hpath).symm
          (pairwise_iff_getElem.mp hp.distinct i k hi' hk h hf hxf)
    subst hki
    exact hafter j e hij hj (hpe.trans hpath.symm)

theorem Paired.extra_ne (hd : d ∈ extrasOf source dest) (hs : item ∈ source) :
    item.path ≠ d.path := by
  obtain ⟨hf, i, hi, hun⟩ := mem_extrasOf.mp hd
  intro hpath
  exact hp.matched hi hf hs hpath hun

theorem Paired.countP_extrasOf_le (p : String) :
    (extrasOf source dest).countP (·.path = p) ≤ 1 := by
  have hfiles : (dest.filter (·.isFile)).Pairwise fun a b => a.path ≠ b.path := by
    rw [pairwise_filter]
    exact hp.distinct
  have hnodup : ((extrasOf source dest).map (·.path)).Nodup := by
    rw [List.Nodup, pairwise_map]
    exact hfiles.sublist extrasOf_sublist
  have hcount := nodup_iff_count_le_one.mp hnodup p
  rw [List.count, countP_map] at hcount
  exact hcount

end

section

variable (h : sourceEntry dest policy item = .ok entry) (htrav : policy.traversed = true)
  (hf : item.isFile = true)
include h htrav hf

theorem counterpart_of_skip (hskip : entry.action = .skip) :
    ∃ d r, lastWith Entry.path dest item.path = some d ∧
      decide item (some d) policy.compare = .ok (.skip r) := by
  obtain ⟨action, ha, rfl⟩ := sourceEntry_file h hf
  rw [fileAction, if_pos htrav] at ha
  cases hl : lastWith Entry.path dest item.path with
  | none =>
    rw [hl, decide_none] at ha
    cases ha
    cases hskip
  | some d =>
    rw [hl] at ha
    cases action with
    | copy r => cases hskip
    | update r => cases hskip
    | skip r => exact ⟨d, r, rfl, ha⟩

theorem transfers_over_dir (hl : lastWith Entry.path dest item.path = some (.ofEmptyDir p)) :
    entry.action.transfers = true ↔ ¬passesOver policy.compare item := by
  obtain ⟨action, ha, rfl⟩ := sourceEntry_file h hf
  rw [fileAction, if_pos htrav, hl] at ha
  have hskip := decide_emptyDir ha
  rw [passesOver, ← hskip]
  cases action <;> simp [fileEntry, Action.op, Op.transfers]

end

section Syncing

variable {compare : ComparePolicy} {create : Bool}
  (hall : List.Forall₂ (fun item entry =>
    sourceEntry dest ((Policy.syncing compare).withEmptySrcDirs create) item = .ok entry)
    source entries)
include hall

theorem mem_left :
    p ∈ filesLeft ⟨entries ++ (extrasOf source dest).map extraEntry⟩ (filePaths dest) ↔
      (p ∈ filePaths dest ∨ ∃ e ∈ entries, e.action.transfers = true ∧ e.dest = p) ∧
        ∀ d ∈ extrasOf source dest, d.path ≠ p := by
  have hnd : ∀ e ∈ entries, e.action ≠ .delete := by
    intro e he
    obtain ⟨item, -, hitem⟩ := exists_item hall he
    exact sourceEntry_ne_delete hitem
  rw [filesLeft, foldl_append, mem_foldl_extras, mem_foldl_leave hnd]

theorem countP_plan (p : String) :
    (entries ++ (extrasOf source dest).map extraEntry).countP (·.dest = p) =
      source.countP (·.path = p) + (extrasOf source dest).countP (·.path = p) := by
  rw [countP_append, countP_entries hall, countP_map]
  rfl

theorem Paired.mirrors (hdirs : Enumerated dest) (hp : Paired source dest compare) :
    Mirrors source dest ⟨entries ++ (extrasOf source dest).map extraEntry⟩ := by
  have hnotExtra : ∀ p ∈ filePaths source, ∀ d ∈ extrasOf source dest, d.path ≠ p := by
    intro p hps d hd
    obtain ⟨item, hitem, -, rfl⟩ := mem_filePaths.mp hps
    exact (hp.extra_ne hd hitem).symm
  refine ⟨?_, ?_, ?_⟩
  · intro e he x hx hkept hdel
    rcases mem_append.mp he with he | he
    · rcases mem_append.mp hx with hx | hx
      · obtain ⟨item, -, hitem⟩ := exists_item hall hx
        exact absurd hdel (sourceEntry_ne_delete hitem)
      · obtain ⟨d, hd, rfl⟩ := mem_map.mp hx
        obtain ⟨item, hs, hitem⟩ := exists_item hall he
        rw [sourceEntry_dest hitem]
        exact hp.extra_ne hd hs
    · obtain ⟨d, -, rfl⟩ := mem_map.mp he
      rcases hkept with h | h | h <;> cases h
  · intro p hpd
    rw [countP_plan hall]
    by_cases hs : ∃ item ∈ source, item.path = p
    · obtain ⟨item, hs, rfl⟩ := hs
      have hnone : (extrasOf source dest).countP (·.path = item.path) = 0 := by
        rw [countP_eq_zero]
        intro d hd
        simpa using (hp.extra_ne hd hs).symm
      rw [(hp.meets item hs hpd).2.1, hnone]
    · push Not at hs
      have hzero : source.countP (·.path = p) = 0 := by
        rw [countP_eq_zero]
        intro item hitem
        simpa using hs item hitem
      obtain ⟨d, hd, hf, rfl⟩ := mem_filePaths.mp hpd
      have hextra : d ∈ extrasOf source dest := by
        obtain ⟨i, hi⟩ := List.getElem?_of_mem hd
        exact mem_extrasOf.mpr ⟨hf, i, hi, unmatched_of_absent hi hs⟩
      have hpos : 0 < (extrasOf source dest).countP (·.path = d.path) :=
        countP_pos_iff.mpr ⟨d, hextra, by simp⟩
      -- Distinct paths leave no room for a second one.
      have hle := hp.countP_extrasOf_le d.path
      omega
  · intro p
    rw [mem_left hall]
    constructor
    · rintro ⟨hpd | ⟨e, he, ht, rfl⟩, hno⟩
      · obtain ⟨d, hd, hf, rfl⟩ := mem_filePaths.mp hpd
        obtain ⟨i, hi⟩ := List.getElem?_of_mem hd
        have hmatched : ¬Unmatched source dest i := by
          intro hun
          exact hno d (mem_extrasOf.mpr ⟨hf, i, hi, hun⟩) rfl
        rw [Unmatched] at hmatched
        push Not at hmatched
        obtain ⟨item, hs, hpos⟩ := hmatched
        obtain ⟨⟨x, hx, hkey⟩, -⟩ := positions_eq_some.mp hpos
        obtain rfl : x = d := Option.some.inj (hx.symm.trans hi)
        exact mem_filePaths.mpr ⟨item, hs, (hp.meets item hs (hkey ▸ hpd)).1, hkey.symm⟩
      · obtain ⟨item, hs, hitem⟩ := exists_item hall he
        rw [sourceEntry_dest hitem]
        exact mem_filePaths.mpr ⟨item, hs, isFile_of_transfers hitem ht, rfl⟩
    · intro hps
      refine ⟨?_, hnotExtra p hps⟩
      obtain ⟨item, hs, hf, rfl⟩ := mem_filePaths.mp hps
      obtain ⟨e, he, hitem⟩ := exists_entry hall hs
      rcases action_of_isFile hitem hf with ht | hskip
      · exact Or.inr ⟨e, he, ht, sourceEntry_dest hitem⟩
      obtain ⟨d, r, hl, hdec⟩ := counterpart_of_skip hitem rfl hf hskip
      obtain ⟨hd, hkey⟩ := lastWith_eq_some hl
      by_cases hdf : d.isFile = true
      · exact Or.inl (mem_filePaths.mpr ⟨d, hd, hdf, hkey⟩)
      · obtain ⟨item', hs', hf', hpath, hpass⟩ := hp.replaces item hs hf ⟨d, hl, hdf⟩
        obtain ⟨e', he', hitem'⟩ := exists_entry hall hs'
        rw [← hpath, hdirs d hd (by simpa using hdf)] at hl
        exact Or.inr ⟨e', he', (transfers_over_dir hitem' rfl hf' hl).mpr hpass,
          (sourceEntry_dest hitem').trans hpath⟩

theorem Mirrors.paired (hdirs : Enumerated dest)
    (hm : Mirrors source dest ⟨entries ++ (extrasOf source dest).map extraEntry⟩) :
    Paired source dest compare := by
  have hcount : ∀ p ∈ filePaths dest,
      source.countP (·.path = p) + (extrasOf source dest).countP (·.path = p) = 1 := by
    intro p hpd
    rw [← countP_plan hall]
    exact hm.once p hpd
  have hmeets : ∀ s ∈ source, s.path ∈ filePaths dest → s.isFile = true ∧
      source.countP (·.path = s.path) = 1 ∧
      ∀ d, lastWith Entry.path dest s.path = some d → d.isFile = true := by
    intro s hs hpd
    have hpos : 0 < source.countP (·.path = s.path) :=
      countP_pos_iff.mpr ⟨s, hs, by simp⟩
    have hsum := hcount s.path hpd
    have hone : source.countP (·.path = s.path) = 1 := by omega
    have hnone : ∀ d ∈ extrasOf source dest, d.path ≠ s.path := by
      have hzero : (extrasOf source dest).countP (·.path = s.path) = 0 := by omega
      simpa [countP_eq_zero] using hzero
    obtain ⟨d, hd, hf, hpath⟩ := mem_filePaths.mp hpd
    obtain ⟨i, hi⟩ := List.getElem?_of_mem hd
    -- The destination file is matched, so it is the last entry of its path.
    have hmatched : ¬Unmatched source dest i := by
      intro hun
      exact hnone d (mem_extrasOf.mpr ⟨hf, i, hi, hun⟩) hpath
    refine ⟨?_, hone, ?_⟩
    · have hleft := (hm.left s.path).mp ((mem_left hall).mpr ⟨Or.inl hpd, hnone⟩)
      obtain ⟨s', hs', hf', hpath'⟩ := mem_filePaths.mp hleft
      rw [countP_eq_length_filter, length_eq_one_iff] at hone
      obtain ⟨a, ha⟩ := hone
      have h1 : s ∈ source.filter (·.path = s.path) := mem_filter.mpr ⟨hs, by simp⟩
      have h2 : s' ∈ source.filter (·.path = s.path) := mem_filter.mpr ⟨hs', by simpa using hpath'⟩
      rw [ha, mem_singleton] at h1 h2
      rw [h1, ← h2]
      exact hf'
    · intro e he
      rw [Unmatched] at hmatched
      push Not at hmatched
      obtain ⟨item, -, hpos⟩ := hmatched
      obtain ⟨⟨x, hx, hkey⟩, -⟩ := positions_eq_some.mp hpos
      obtain rfl : x = d := Option.some.inj (hx.symm.trans hi)
      rw [lastWith, ← hpath, hkey, hpos, Option.bind_some, hi] at he
      obtain rfl := Option.some.inj he
      exact hf
  refine ⟨?_, hmeets, ?_⟩
  · rw [pairwise_iff_getElem]
    intro i j hi hj hij hfi hfj hpath
    have hdi : dest[i]? = some dest[i] := List.getElem?_eq_getElem hi
    have hdj : dest[j]? = some dest[j] := List.getElem?_eq_getElem hj
    have hpd : dest[i].path ∈ filePaths dest :=
      mem_filePaths.mpr ⟨dest[i], getElem_mem hi, hfi, rfl⟩
    have hui : Unmatched source dest i := unmatched_of_later hdi hdj hij hpath.symm
    have hpos : 0 < (extrasOf source dest).countP (·.path = dest[i].path) :=
      countP_pos_iff.mpr ⟨dest[i], mem_extrasOf.mpr ⟨hfi, i, hdi, hui⟩, by simp⟩
    have hsum := hcount _ hpd
    -- No source path is this one, so both positions are extras of one path.
    have hzero : source.countP (·.path = dest[i].path) = 0 := by omega
    have huj : Unmatched source dest j := by
      apply unmatched_of_absent hdj
      rw [← hpath]
      simpa [countP_eq_zero] using hzero
    have hone : (extrasOf source dest).countP (·.path = dest[i].path) = 1 := by omega
    rw [countP_extrasOf, length_eq_one_iff] at hone
    obtain ⟨a, ha⟩ := hone
    have h1 : (dest[i], i) ∈ [a] := by
      rw [← ha, mem_filter, mem_zipIdx_iff_getElem?]
      simp [hdi, hui, hfi]
    have h2 : (dest[j], j) ∈ [a] := by
      rw [← ha, mem_filter, mem_zipIdx_iff_getElem?]
      simp [hdj, huj, hfj, hpath]
    rw [mem_singleton] at h1 h2
    have := congrArg Prod.snd (h1.trans h2.symm)
    simp only at this
    omega
  · rintro s hs hf ⟨d, hl, hdf⟩
    obtain ⟨hd, hkey⟩ := lastWith_eq_some hl
    have hleft := (hm.left s.path).mpr (mem_filePaths.mpr ⟨s, hs, hf, rfl⟩)
    obtain ⟨hleft, -⟩ := (mem_left hall).mp hleft
    rcases hleft with hpd | ⟨e, he, ht, hpath⟩
    · exact absurd ((hmeets s hs hpd).2.2 d hl) hdf
    · obtain ⟨s', hs', hitem⟩ := exists_item hall he
      have hf' := isFile_of_transfers hitem ht
      have hpath' : s'.path = s.path := (sourceEntry_dest hitem).symm.trans hpath
      rw [← hpath', hdirs d hd (by simpa using hdf)] at hl
      exact ⟨s', hs', hf', hpath', (transfers_over_dir hitem rfl hf' hl).mp ht⟩

end Syncing

/-- A syncing plan mirrors the source exactly on the listings that pair. -/
theorem mirrors_iff_paired {compare : ComparePolicy} {create : Bool} (hdirs : Enumerated dest)
    (h : compute source dest ((Policy.syncing compare).withEmptySrcDirs create) = .ok plan) :
    Mirrors source dest plan ↔ Paired source dest compare := by
  obtain ⟨entries, hall, rfl⟩ := compute_eq_ok.mp h
  exact ⟨Mirrors.paired hall hdirs, Paired.mirrors hall hdirs⟩

/-- One file at the source, the same file and another at the destination. -/
theorem mirrors_sample : Mirrors [.ofFile "a" 1] [.ofFile "a" 1, .ofFile "b" 2]
    ⟨[⟨.update, "a", "a", some 1, planReasonModified, none⟩,
      ⟨.delete, "", "b", some 2, planReasonExtra, none⟩]⟩ := by
  refine (@mirrors_iff_paired _ _ _ {} false ?_ (by decide)).mpr ⟨?_, ?_, ?_⟩
  · simp [Enumerated]
  · simp [Entry.ofFile]
  · decide
  · rintro s hs - ⟨d, hl, hdf⟩
    have hfiles : ∀ e ∈ [Entry.ofFile "a" 1, Entry.ofFile "b" 2], e.isFile = true := by decide
    exact absurd (hfiles d (lastWith_eq_some hl).1) hdf

/-- Two destination files whose names normalise to one path: the source's file is found identical
and kept, and the same path is deleted. -/
theorem compute_deletes_twin : ∃ plan,
    compute [(Entry.ofFile "café.txt" 3).withModified 0]
      [(Entry.ofFile "café.txt" 3).withModified 0, (Entry.ofFile "café.txt" 3).withModified 0]
      (.syncing {}) = .ok plan ∧ ¬Mirrors [(Entry.ofFile "café.txt" 3).withModified 0]
      [(Entry.ofFile "café.txt" 3).withModified 0, (Entry.ofFile "café.txt" 3).withModified 0]
      plan := by
  refine ⟨⟨[⟨.skip, "café.txt", "café.txt", some 3, planReasonIdentical, some 0⟩,
    ⟨.delete, "", "café.txt", some 3, planReasonExtra, none⟩]⟩, by decide, ?_⟩
  intro hm
  exact hm.exclusive _ (.head _) _ (.tail _ (.head _)) (Or.inr (Or.inr rfl)) rfl rfl

end Plan

end Dctl.Transfer
