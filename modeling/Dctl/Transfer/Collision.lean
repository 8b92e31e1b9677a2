import Dctl.Transfer.Listing
import Dctl.ProofKit.Walk

/-! The detector of local files that would become one object (`platform/collision.rs`): what it has
gathered after any sequence of observed names, and which shared paths it reports. -/

namespace Dctl.Transfer

open Cli List

section

variable {logical p : String} {native : NativePath} {observed seen : List (String × NativePath)}

def sharing (observed : List (String × NativePath)) (logical : String) : List NativePath :=
  (observed.filter fun x => x.1 = logical).map Prod.snd

theorem sharing_append (logical : String) (native : NativePath) (p : String) :
    sharing (observed ++ [(logical, native)]) p =
      if logical = p then sharing observed p ++ [native] else sharing observed p := by
  by_cases h : logical = p <;> simp [sharing, h]

theorem length_sharing (p : String) :
    (sharing observed p).length = (observed.filter fun x => x.1 = p).length := length_map ..

theorem mem_of_sharing (h : sharing observed p ≠ []) : p ∈ observed.map Prod.fst := by
  obtain ⟨native, hnative⟩ := exists_mem_of_ne_nil _ h
  obtain ⟨x, hx, -⟩ := mem_map.mp hnative
  obtain ⟨hmem, hp⟩ := mem_filter.mp hx
  exact mem_map.mpr ⟨x, hmem, of_decide_eq_true hp⟩

def sorted (natives : List NativePath) : List NativePath := natives.mergeSort fun a b => a ≤ b

structure Detector where
  first : Std.HashMap String NativePath := ∅
  groups : Std.HashMap String (List NativePath) := ∅

namespace Detector

variable {d : Detector}

def observe (d : Detector) (logical : String) (native : NativePath) : Detector :=
  if isAscii logical then d
  else match d.groups[logical]? with
    | some group => { d with groups := d.groups.insert logical (group ++ [native]) }
    | none =>
      match d.first[logical]? with
      | some first => { d with groups := d.groups.insert logical [first, native] }
      | none => { d with first := d.first.insert logical native }

/-- Everything that collided, ordered so two runs over one tree agree. -/
def finish (d : Detector) : List Collision :=
  (d.groups.toList.map fun (logical, natives) =>
    { logical := logical, natives := sorted natives : Collision }).mergeSort fun a b =>
      a.logical ≤ b.logical

def detect (observed : List (String × NativePath)) : Detector :=
  observed.foldl (fun d x => d.observe x.1 x.2) {}

/-- What the detector keeps of the names seen so far. -/
structure Holds (d : Detector) (seen : List (String × NativePath)) : Prop where
  first : ∀ p, d.first[p]? = if isAscii p then none else (sharing seen p).head?
  groups : ∀ p, d.groups[p]? =
    if isAscii p = false ∧ 2 ≤ (sharing seen p).length then some (sharing seen p) else none

theorem holds_nil : Holds {} [] where
  first p := by simp [sharing]
  groups p := by simp [sharing]

/-- One name keeps the invariant.  The group of the name is empty, a single name or a collision. -/
theorem Holds.observe (h : Holds d seen) (logical : String) (native : NativePath) :
    Holds (d.observe logical native) (seen ++ [(logical, native)]) := by
  have hfirst := h.first
  have hgroups := h.groups
  by_cases hascii : isAscii logical
  · rw [Detector.observe, if_pos hascii]
    constructor
    · intro p
      rw [hfirst, sharing_append]
      by_cases hp : logical = p
      · rw [← hp, if_pos hascii, if_pos hascii]
      · rw [if_neg hp]
    · intro p
      rw [hgroups, sharing_append]
      by_cases hp : logical = p
      · simp [← hp, hascii]
      · rw [if_neg hp]
  · have hfalse : isAscii logical = false := Bool.eq_false_iff.mpr hascii
    have hgroup := hgroups logical
    have hhead := hfirst logical
    rw [if_neg hascii] at hhead
    -- a name beside others: the first of them stays, and the group becomes all of them
    have hjoined : ∀ one more, sharing seen logical = one :: more →
        Holds { d with groups := d.groups.insert logical (one :: more ++ [native]) }
          (seen ++ [(logical, native)]) := by
      intro one more hs
      constructor
      · intro p
        rw [hfirst, sharing_append]
        by_cases hp : logical = p
        · simp [← hp, hs]
        · rw [if_neg hp]
      · intro p
        rw [Std.HashMap.getElem?_insert, hgroups, sharing_append]
        by_cases hp : logical = p
        · simp [← hp, hs, hfalse]
        · simp [hp]
    rw [Detector.observe, if_neg hascii]
    match hs : sharing seen logical with
    | [] =>
      rw [hs] at hgroup hhead
      simp only [length_nil] at hgroup
      rw [if_neg (by omega)] at hgroup
      simp only [hgroup, hhead, List.head?_nil]
      constructor
      · intro p
        rw [Std.HashMap.getElem?_insert, hfirst, sharing_append]
        by_cases hp : logical = p
        · simp [← hp, hascii, hs]
        · simp [hp]
      · intro p
        rw [hgroups, sharing_append]
        by_cases hp : logical = p
        · simp [← hp, hs]
        · rw [if_neg hp]
    | [only] =>
      rw [hs] at hgroup hhead
      simp only [length_singleton] at hgroup
      rw [if_neg (by omega)] at hgroup
      simp only [hgroup, hhead, List.head?_cons]
      exact hjoined _ _ hs
    | one :: two :: more =>
      rw [hs, if_pos ⟨hfalse, by simp⟩] at hgroup
      simp only [hgroup]
      exact hjoined _ _ hs

theorem holds_detect (observed : List (String × NativePath)) :
    Holds (detect observed) observed := by
  induction observed using List.reverseRecOn with
  | nil => exact holds_nil
  | append_singleton observed x ih =>
    rw [detect, foldl_append]
    exact ih.observe x.1 x.2

theorem mem_finish {c : Collision} : c ∈ (detect observed).finish ↔
    isAscii c.logical = false ∧ 2 ≤ (sharing observed c.logical).length ∧
      c.natives = sorted (sharing observed c.logical) := by
  obtain ⟨logical, natives⟩ := c
  rw [finish, mem_mergeSort, mem_map]
  constructor
  · rintro ⟨⟨p, group⟩, hmem, heq⟩
    have hgroup := Std.HashMap.mem_toList_iff_getElem?_eq_some.mp hmem
    rw [(holds_detect observed).groups] at hgroup
    obtain ⟨rfl, rfl⟩ := Collision.mk.inj heq
    split at hgroup
    · rename_i hshared
      exact ⟨hshared.1, hshared.2, congrArg sorted (Option.some.inj hgroup).symm⟩
    · cases hgroup
  · rintro ⟨hascii, hshared, hnatives⟩
    refine ⟨(logical, sharing observed logical), ?_, ?_⟩
    · rw [Std.HashMap.mem_toList_iff_getElem?_eq_some, (holds_detect observed).groups,
        if_pos ⟨hascii, hshared⟩]
    · exact congrArg (Collision.mk logical) hnatives.symm

theorem ascends_mergeSort {found : List Collision}
    (hdistinct : found.Pairwise fun a b => a.logical ≠ b.logical) :
    (found.mergeSort fun a b => a.logical ≤ b.logical).Pairwise fun a b =>
      a.logical < b.logical := by
  have hsorted := @pairwise_mergeSort Collision
    (fun a b => Decidable.decide (a.logical ≤ b.logical))
    (fun a b c hab hbc => decide_eq_true
      (String.le_trans (of_decide_eq_true hab) (of_decide_eq_true hbc)))
    (fun a b => by simpa using String.le_total a.logical b.logical) found
  have hne :=
    ((mergeSort_perm found fun a b => Decidable.decide (a.logical ≤ b.logical)).pairwise_iff
    fun {a b} (h : a.logical ≠ b.logical) => h.symm).mpr hdistinct
  refine hsorted.imp₂ ?_ hne
  intro a b hle hne
  exact String.not_le.mp fun hge => hne (String.le_antisymm (of_decide_eq_true hle) hge)

theorem ascends_finish (d : Detector) : d.finish.Pairwise fun a b => a.logical < b.logical := by
  refine ascends_mergeSort (pairwise_map.mpr ?_)
  refine Std.HashMap.distinct_keys_toList.imp ?_
  intro a b hne
  simpa using hne

end Detector

/-- The fold over the observed paths gives the specified list. -/
theorem finish_detect (l : Listing) : (Detector.detect l.observed).finish = l.collisions := by
  have hmem : ∀ c, c ∈ (Detector.detect l.observed).finish ↔ c ∈ l.collisions := by
    intro c
    rw [Detector.mem_finish, Listing.collisions, mem_mergeSort, mem_map]
    constructor
    · rintro ⟨hascii, hshared, hnatives⟩
      have hne : sharing l.observed c.logical ≠ [] := fun h => by simp [h] at hshared
      refine ⟨c.logical, ?_, ?_⟩
      · simp only [mem_filter, mem_dedup]
        rw [length_sharing] at hshared
        exact ⟨mem_of_sharing hne, by simp [hascii, hshared]⟩
      · rw [show c = ⟨c.logical, c.natives⟩ from rfl, hnatives]
        rfl
    · rintro ⟨logical, hlogical, rfl⟩
      simp only [mem_filter, mem_dedup, Bool.and_eq_true, Bool.not_eq_true',
        decide_eq_true_eq] at hlogical
      exact ⟨hlogical.2.1, by rw [length_sharing]; exact hlogical.2.2, rfl⟩
  have hascends := Detector.ascends_finish (Detector.detect l.observed)
  have hascends' : l.collisions.Pairwise fun a b => a.logical < b.logical := by
    refine Detector.ascends_mergeSort (pairwise_map.mpr ?_)
    exact (nodup_dedup _).filter _
  have hasymm : ∀ a b : Collision, a.logical < b.logical → ¬ b.logical < a.logical :=
    fun a b hab hba => String.lt_irrefl a.logical (String.lt_trans hab hba)
  have hnodup : ∀ {found : List Collision},
      found.Pairwise (fun a b => a.logical < b.logical) → found.Nodup := by
    intro found h
    refine h.imp ?_
    intro a b hlt heq
    exact String.lt_irrefl b.logical (heq ▸ hlt)
  exact ((perm_ext_iff_of_nodup (hnodup hascends) (hnodup hascends')).mpr hmem).eq_of_pairwise
    (fun a b _ _ hab hba => absurd hba (hasymm a b hab)) hascends hascends'

end

variable {nfc : String → String}

/-- The logical path that a walk gives to the names it went down from its root. -/
def toLogical (nfc : String → String) (names : List OsName) : Except Unrepresentable String :=
  names.foldlM (fun dir name => do
    let component ← toLogicalComponent nfc name
    pure (LogicalPath.join dir component)) ""

structure WalkedFile (nfc : String → String) where
  names : List OsName
  logical : String
  spelled : toLogical nfc names = .ok logical

def WalkedFile.native (file : WalkedFile nfc) : NativePath :=
  file.names.map fun name => name.text.getD ""

/-- The files of a walk, each of which it came to once. -/
structure SourceWalk (nfc : String → String) where
  files : List (WalkedFile nfc)
  distinct : (files.map WalkedFile.native).Nodup

namespace SourceWalk

variable {walk : SourceWalk nfc} {a b : WalkedFile nfc} {p : String} {native : NativePath}

/-- The names in the order in which the detector is fed. -/
def observed (walk : SourceWalk nfc) : List (String × NativePath) :=
  walk.files.map fun file => (file.logical, file.native)

/-- The report names the paths that two files or more would share, each with all of its files. -/
structure Reports (walk : SourceWalk nfc) (found : List Collision) : Prop where
  paths : ∀ p, p ∈ found.map Collision.logical ↔
    ∃ a ∈ walk.files, ∃ b ∈ walk.files, a.native ≠ b.native ∧ a.logical = p ∧ b.logical = p
  natives : ∀ c ∈ found, ∀ native, native ∈ c.natives ↔
    ∃ file ∈ walk.files, file.logical = c.logical ∧ file.native = native
  once : found.Pairwise fun a b => a.logical < b.logical

theorem mem_sharing : native ∈ sharing walk.observed p ↔
    ∃ file ∈ walk.files, file.logical = p ∧ file.native = native := by
  simp [sharing, observed]

theorem nodup_sharing (walk : SourceWalk nfc) (p : String) : (sharing walk.observed p).Nodup := by
  have hsub : List.Sublist (sharing walk.observed p) (walk.files.map WalkedFile.native) := by
    have h := (filter_sublist (p := fun x => x.1 = p) (l := walk.observed)).map Prod.snd
    rwa [observed, map_map] at h
  exact hsub.nodup walk.distinct

theorem two_le_sharing : 2 ≤ (sharing walk.observed p).length ↔
    ∃ a ∈ walk.files, ∃ b ∈ walk.files, a.native ≠ b.native ∧ a.logical = p ∧ b.logical = p := by
  have hnodup := nodup_sharing walk p
  constructor
  · intro hlen
    match hs : sharing walk.observed p with
    | [] | [_] => simp [hs] at hlen
    | first :: second :: rest =>
      obtain ⟨a, ha, hap, han⟩ := mem_sharing.mp (hs ▸ mem_cons_self)
      obtain ⟨b, hb, hbp, hbn⟩ := mem_sharing.mp (hs ▸ mem_cons_of_mem _ mem_cons_self)
      rw [hs] at hnodup
      refine ⟨a, ha, b, hb, ?_, hap, hbp⟩
      rw [han, hbn]
      exact fun h => (nodup_cons.mp hnodup).1 (h ▸ mem_cons_self)
  · rintro ⟨a, ha, b, hb, hne, hap, hbp⟩
    have hmem : [a.native, b.native] ⊆ sharing walk.observed p := by
      intro native hnative
      rcases mem_cons.mp hnative with rfl | hnative
      · exact mem_sharing.mpr ⟨a, ha, hap, rfl⟩
      · exact mem_sharing.mpr ⟨b, hb, hbp, (mem_singleton.mp hnative).symm⟩
    have hpair : [a.native, b.native].Nodup := by simpa using hne
    exact (subperm_of_subset hpair hmem).length_le

theorem mem_finish_logical : p ∈ (Detector.detect walk.observed).finish.map Collision.logical ↔
    isAscii p = false ∧ 2 ≤ (sharing walk.observed p).length := by
  rw [mem_map]
  constructor
  · rintro ⟨c, hc, rfl⟩
    obtain ⟨hascii, hshared, -⟩ := Detector.mem_finish.mp hc
    exact ⟨hascii, hshared⟩
  · rintro ⟨hascii, hshared⟩
    exact ⟨⟨p, sorted (sharing walk.observed p)⟩,
      Detector.mem_finish.mpr ⟨hascii, hshared, rfl⟩, rfl⟩

/-- The detector is exact on a walk if and only if no two of its files share an ASCII path. -/
theorem reports_iff (walk : SourceWalk nfc) : Reports walk (Detector.detect walk.observed).finish ↔
    ∀ a ∈ walk.files, ∀ b ∈ walk.files, a.logical = b.logical → isAscii a.logical →
      a.native = b.native := by
  constructor
  · intro h a ha b hb heq hascii
    by_contra hne
    have hmem := (h.paths a.logical).mpr ⟨a, ha, b, hb, hne, rfl, heq.symm⟩
    rw [(mem_finish_logical.mp hmem).1] at hascii
    cases hascii
  · intro h
    constructor
    · intro p
      rw [mem_finish_logical, two_le_sharing]
      constructor
      · exact fun hshared => hshared.2
      · rintro ⟨a, ha, b, hb, hne, rfl, hbp⟩
        refine ⟨?_, a, ha, b, hb, hne, rfl, hbp⟩
        exact Bool.eq_false_iff.mpr fun hascii => hne (h a ha b hb hbp.symm hascii)
    · intro c hc native
      rw [(Detector.mem_finish.mp hc).2.2, sorted, mem_mergeSort, mem_sharing]
    · exact Detector.ascends_finish _

def kelvinNfc (s : String) : String :=
  String.ofList (s.toList.map fun c => if c = '\u212A' then 'K' else c)

def kelvinWalk : SourceWalk kelvinNfc where
  files := [⟨[⟨some "K.txt", by decide⟩], "K.txt", by decide⟩,
    ⟨[⟨some "\u212A.txt", by decide⟩], "K.txt", by decide⟩]
  distinct := by decide

/-- `K.txt` is ASCII, so the walk never observes it. -/
theorem kelvinWalk_unreported :
    ¬ Reports kelvinWalk (Detector.detect kelvinWalk.observed).finish := by
  intro h
  have hshared := (h.paths "K.txt").mpr ⟨_, mem_cons_self, _,
    mem_cons_of_mem _ mem_cons_self, by decide, rfl, rfl⟩
  exact absurd (mem_finish_logical.mp hshared).1 (by decide)

end SourceWalk

end Dctl.Transfer
