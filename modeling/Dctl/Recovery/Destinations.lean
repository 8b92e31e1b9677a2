import Dctl.Crypto.Names
import Dctl.Recovery.Preflight

/-! Where a restore writes the files of a vault, and what the inspection of their paths says about
it. -/

namespace Dctl.Recovery

open ProofKit Index Cli.Paths List

/-- A path of a vault, or what is left of one behind a directory. -/
def Recorded (U : Crypto.Unicode) (path : Path) : Prop :=
  path ≠ [] ∧ ∃ logical : String, Crypto.Path.validate U logical = .ok () ∧
    (logical.toList = path ∨ ∃ dir, logical.toList = dir ++ separator :: path)

section Recorded

variable {U : Crypto.Unicode} {path other : Path}

theorem mem_of_mem_splitOn {α : Type} [DecidableEq α] {sep a : α} {l name : List α}
    (hname : name ∈ l.splitOn sep) (ha : a ∈ name) : a ∈ l := by
  induction l generalizing name with
  | nil =>
    rw [splitOn_nil, mem_singleton] at hname
    rwa [hname] at ha
  | cons b l ih =>
    rw [splitOn_cons_eq_if_modifyHead] at hname
    by_cases hb : b = sep
    · rw [if_pos (beq_iff_eq.mpr hb), mem_cons] at hname
      rcases hname with rfl | hname
      · cases ha
      · exact mem_cons_of_mem _ (ih hname ha)
    · rw [if_neg (by simpa using hb)] at hname
      cases hl : l.splitOn sep with
      | nil => exact absurd hl (splitOn_ne_nil _ _)
      | cons first rest =>
        rw [hl, modifyHead_cons, mem_cons] at hname
        rcases hname with rfl | hname
        · rcases mem_cons.mp ha with rfl | ha
          · exact mem_cons_self
          · exact mem_cons_of_mem _ (ih (hl ▸ mem_cons_self) ha)
        · exact mem_cons_of_mem _ (ih (hl ▸ mem_cons_of_mem _ hname) ha)

section

variable (h : Recorded U path)
include h

theorem Recorded.splitOn :
    (∀ name ∈ path.splitOn separator, name ≠ [] ∧ name ≠ ['.'] ∧ name ≠ ['.', '.']) ∧
      '\\' ∉ path := by
  obtain ⟨-, logical, hvalid, hlogical⟩ := h
  simp only [Crypto.Path.validate, bind_eq_ok, reject_eq_ok] at hvalid
  obtain ⟨_, -, _, -, _, -, _, hchars, _, -, hsegments⟩ := hvalid
  rw [forM_eq_ok] at hchars hsegments
  have hnames : ∀ name ∈ logical.toList.splitOn '/', name ≠ [] ∧ name ≠ ['.'] ∧
      name ≠ ['.', '.'] := by
    intro name hname
    have hsegment := hsegments name hname
    simp only [Crypto.Path.validateSegment, bind_eq_ok, reject_eq_ok] at hsegment
    obtain ⟨_, hne, _, hdots, -⟩ := hsegment
    rw [not_or] at hdots
    exact ⟨hne, hdots⟩
  have hback : '\\' ∉ logical.toList := by
    intro hmem
    have hchar := hchars '\\' hmem
    simp only [Crypto.Path.validateChar, bind_eq_ok, reject_eq_ok] at hchar
    obtain ⟨_, -, _, hback, -⟩ := hchar
    exact hback trivial
  rcases hlogical with hlogical | ⟨dir, hlogical⟩
  · rw [hlogical] at hnames hback
    exact ⟨hnames, hback⟩
  · rw [hlogical] at hnames hback
    refine ⟨fun name hname => hnames name ?_, fun hmem => hback (by simp [hmem])⟩
    rw [show ('/' : Char) = separator from rfl, splitOn_append_cons_self]
    exact mem_append_right _ hname

theorem Recorded.segments_eq : segments separator path = path.splitOn separator := by
  rw [segments, filter_eq_self]
  intro name hname
  exact decide_eq_true (h.splitOn.1 name hname).1

theorem Recorded.spelled : spell (segments separator path) = path := by
  rw [h.segments_eq]
  exact intercalate_splitOn separator

theorem Recorded.segments_injective (h' : Recorded U other)
    (heq : segments separator path = segments separator other) : path = other := by
  rw [← h.spelled, heq, h'.spelled]

theorem Recorded.segments_ne_nil : segments separator path ≠ [] := by
  rw [h.segments_eq]
  exact splitOn_ne_nil _ _

theorem Recorded.behind {dir rest : Path} (hpath : path = dir ++ separator :: rest) :
    segments separator rest ≠ [] := by
  have hnames := h.splitOn.1
  rw [hpath, splitOn_append_cons_self] at hnames
  obtain ⟨name, more, hrest⟩ := exists_cons_of_ne_nil (splitOn_ne_nil separator rest)
  have hname := (hnames name (by rw [hrest]; simp)).1
  rw [segments, hrest, filter_cons, if_pos (decide_eq_true hname)]
  exact cons_ne_nil _ _

theorem Recorded.before {dir rest : Path} (hpath : path = dir ++ separator :: rest) :
    spell (segments separator dir) = dir := by
  have hnames := h.splitOn.1
  rw [hpath, splitOn_append_cons_self] at hnames
  have hall : segments separator dir = dir.splitOn separator := by
    rw [segments, filter_eq_self]
    intro name hname
    exact decide_eq_true (hnames name (mem_append_left _ hname)).1
  rw [hall]
  exact intercalate_splitOn separator

end

end Recorded

/-- A host, and what its file system takes names for.  Only a file system that ignores case takes
two spellings for one name. -/
structure Platform extends Host where
  canon : Path → Path

namespace Platform

variable (P : Platform)

/-- What two names are compared by.  Windows strips dots and spaces at the end. -/
def key (name : Path) : Path :=
  match P.os with
  | .windows => P.canon (name.rdropWhile trailing)
  | .macos => P.canon name
  | .linux | .freebsd | .unknown => name

/-- The two paths are one path of the file system. -/
def Same (a b : Native) : Prop := a.base = b.base ∧ a.names.map P.key = b.names.map P.key

/-- The one destination is a directory above the other, as the platform compares names. -/
def Above (a b : Native) : Prop :=
  a.base = b.base ∧ ∃ more, more ≠ [] ∧ b.names.map P.key = a.names.map P.key ++ more

/-- A name that stays in the directory where it is pushed. -/
structure Plain (name : Path) : Prop where
  ne_nil : name ≠ []
  ne_dot : name ≠ ['.']
  ne_dots : name ≠ ['.', '.']
  clean : ∀ c ∈ name, P.os.isSeparator c = false
  windows : P.os = .windows → hasDrive name = false ∧ name.rdropWhile trailing = name

/-- The destination lies below the root, in plain names. -/
def Inside (root : Path) (n : Native) : Prop :=
  n.base = root ∧ n.names ≠ [] ∧ ∀ name ∈ n.names, P.Plain name

end Platform

/-- The native destinations of the paths are different, none is above another, and all lie under the
root. -/
structure Sound (P : Platform) (root : Path) (paths : List Path) : Prop where
  apart : ∀ path ∈ paths, ∀ other ∈ paths, path ≠ other →
    ¬P.Same (fromLogical P.os root path) (fromLogical P.os root other)
  files : ∀ path ∈ paths, ∀ other ∈ paths,
    ¬P.Above (fromLogical P.os root path) (fromLogical P.os root other)
  inside : ∀ path ∈ paths, P.Inside root (fromLogical P.os root path)

def keys (P : Platform) (path : Path) : List Path := (segments separator path).map P.key

/-- Where the platform ignores case: what it takes for one path has one lower case spelling, and
what it takes for a directory above a path of the set is spelled like that directory. -/
def Spelled (P : Platform) (paths : List Path) : Prop :=
  P.os.caseInsensitive = true →
    (∀ path ∈ paths, ∀ other ∈ paths, keys P path = keys P other →
      P.lowercase path = P.lowercase other) ∧
    ∀ path ∈ paths, ∀ other ∈ paths, ∀ dir ∈ prefixesAt separator other, keys P path = keys P dir →
      path = dir

section Destinations

variable {U : Crypto.Unicode} {P : Platform} {root : Path} {paths : List Path} {path other : Path}

theorem mem_prefixesAt {dir l : Path} :
    dir ∈ prefixesAt separator l ↔ ∃ rest, l = dir ++ separator :: rest := by
  induction l generalizing dir with
  | nil => simp [prefixesAt]
  | cons a l ih =>
    have hlonger : dir ∈ (prefixesAt separator l).map (a :: ·) ↔
        ∃ rest, dir ≠ [] ∧ a :: l = dir ++ separator :: rest := by
      rw [mem_map]
      constructor
      · rintro ⟨shorter, hmem, rfl⟩
        obtain ⟨rest, rfl⟩ := ih.mp hmem
        exact ⟨rest, cons_ne_nil _ _, rfl⟩
      · rintro ⟨rest, hne, heq⟩
        obtain ⟨b, shorter, rfl⟩ := exists_cons_of_ne_nil hne
        rw [cons_append, List.cons.injEq] at heq
        obtain ⟨rfl, rfl⟩ := heq
        exact ⟨shorter, ih.mpr ⟨rest, rfl⟩, rfl⟩
    rw [prefixesAt]
    by_cases ha : a = separator
    · rw [if_pos ha, mem_cons, hlonger]
      constructor
      · rintro (rfl | ⟨rest, -, heq⟩)
        · exact ⟨l, by rw [ha, nil_append]⟩
        · exact ⟨rest, heq⟩
      · rintro ⟨rest, heq⟩
        by_cases hnil : dir = []
        · exact .inl hnil
        · exact .inr ⟨rest, hnil, heq⟩
    · rw [if_neg ha, hlonger]
      constructor
      · rintro ⟨rest, -, heq⟩
        exact ⟨rest, heq⟩
      · rintro ⟨rest, heq⟩
        refine ⟨rest, ?_, heq⟩
        rintro rfl
        rw [nil_append, List.cons.injEq] at heq
        exact ha heq.1

theorem Platform.key_of_sensitive (h : P.os.caseInsensitive = false) (name : Path) :
    P.key name = name := by
  unfold Platform.key
  cases hos : P.os <;> simp_all [Os.caseInsensitive]

theorem keys_of_sensitive (h : P.os.caseInsensitive = false) (path : Path) :
    keys P path = segments separator path := by
  unfold keys
  rw [map_congr_left (fun name _ => P.key_of_sensitive h name), map_id']

namespace Clean

variable (h : Clean P.toHost paths)
include h

section

variable (hpath : path ∈ paths)
include hpath

theorem plain (hrecorded : Recorded U path) {name : Path} (hname : name ∈ segments separator path) :
    P.Plain name := by
  have hmem : name ∈ path.splitOn separator := hrecorded.segments_eq ▸ hname
  obtain ⟨hne, hdot, hdots⟩ := hrecorded.splitOn.1 name hmem
  have hsep : separator ∉ name := (of_mem_segments hname).2
  have hback : '\\' ∉ name := fun hin => hrecorded.splitOn.2 (mem_of_mem_splitOn hmem hin)
  refine ⟨hne, hdot, hdots, ?_, ?_⟩
  · intro c hc
    have hslash : c ≠ separator := fun heq => hsep (heq ▸ hc)
    have hbackslash : c ≠ '\\' := fun heq => hback (heq ▸ hc)
    simp [Os.isSeparator, show c ≠ '/' from hslash, hbackslash]
  · intro hos
    obtain ⟨hchars, hlast⟩ := of_checkComponent (h.names hos path hpath name hname)
    constructor
    · exact hasDrive_eq_false fun hcolon => (hchars ':' hcolon).2 (by decide)
    · rw [rdropWhile_eq_self_iff]
      intro hl
      rw [hlast _ (List.getLast?_eq_some_getLast hl)]
      exact Bool.false_ne_true

theorem fromLogical_eq (hrecorded : Recorded U path) :
    fromLogical P.os root path = ⟨root, segments separator path⟩ :=
  Recovery.fromLogical_eq fun _ hname hos => ((h.plain hpath hrecorded hname).windows hos).1

theorem inside (hrecorded : Recorded U path) : P.Inside root (fromLogical P.os root path) := by
  rw [h.fromLogical_eq hpath hrecorded]
  exact ⟨rfl, hrecorded.segments_ne_nil, fun name hname => h.plain hpath hrecorded hname⟩

theorem same_iff (hother : other ∈ paths) (hrecorded : Recorded U path)
    (hrecorded' : Recorded U other) :
    P.Same (fromLogical P.os root path) (fromLogical P.os root other) ↔
      keys P path = keys P other := by
  rw [h.fromLogical_eq hpath hrecorded, h.fromLogical_eq hother hrecorded']
  exact and_iff_right rfl

/-- A destination is above another one exactly if the platform takes its path for a directory that
stands before a separator of the other path. -/
theorem above_iff (hother : other ∈ paths) (hrecorded : Recorded U path)
    (hrecorded' : Recorded U other) :
    P.Above (fromLogical P.os root path) (fromLogical P.os root other) ↔
      ∃ dir ∈ prefixesAt separator other, keys P path = keys P dir ∧
        spell (segments separator dir) = dir := by
  rw [h.fromLogical_eq hpath hrecorded, h.fromLogical_eq hother hrecorded']
  have hne : segments separator path ≠ [] := hrecorded.segments_ne_nil
  constructor
  · rintro ⟨-, more, hmore, heq⟩
    dsimp only at heq
    -- The names of the directory are as many of the other path as the first has.
    obtain ⟨front, back, hnames, hfront, hback⟩ := map_eq_append_iff.mp heq
    have hpieces := pieces_segments separator other
    have hfrontNe : front ≠ [] := by
      rintro rfl
      rw [map_nil, eq_comm, map_eq_nil_iff] at hfront
      exact hne hfront
    have hbackNe : back ≠ [] := by
      rintro rfl
      exact hmore hback.symm
    have hsegments : segments separator (spell front) = front :=
      segments_spell (hpieces.of_subset (by rw [hnames]; exact subset_append_left _ _))
    refine ⟨spell front, mem_prefixesAt.mpr ⟨spell back, ?_⟩, ?_, ?_⟩
    · rw [← spell_append hfrontNe hbackNe, ← hnames, hrecorded'.spelled]
    · rw [keys, keys, hsegments, hfront]
    · rw [hsegments]
  · rintro ⟨dir, hdir, hkeys, -⟩
    obtain ⟨rest, hrest⟩ := mem_prefixesAt.mp hdir
    refine ⟨rfl, (segments separator rest).map P.key, ?_, ?_⟩
    · simpa using hrecorded'.behind hrest
    · show (segments separator other).map P.key = _
      rw [hrest, segments_append, map_append]
      exact congrArg (· ++ _) hkeys.symm

end

end Clean

/-- A set of recorded paths that the inspection reports nothing blocking for is restored to
different files, none above another and all under the root, exactly if the platform compares names
as they are spelled, or takes no path for a directory above a path of the set that is spelled in
another way, and no two paths for one that are apart in lower case. -/
theorem inspect_sound_iff (U : Crypto.Unicode) (P : Platform) (root : Path) (paths : List Path)
    (hrecorded : ∀ path ∈ paths, Recorded U path)
    (hclean : blocking (P.toHost.inspect paths (some root) .thisPlatform) = []) :
    Sound P root paths ↔ Spelled P paths := by
  have h : Clean P.toHost paths := clean_of_inspect hclean
  constructor
  · intro hsound _
    constructor
    · intro path hpath other hother hkeys
      by_contra hne
      refine hsound.apart path hpath other hother (fun heq => hne (heq ▸ rfl)) ?_
      exact (h.same_iff hpath hother (hrecorded path hpath) (hrecorded other hother)).mpr hkeys
    · intro path hpath other hother dir hdir hkeys
      obtain ⟨rest, hrest⟩ := mem_prefixesAt.mp hdir
      refine absurd ?_ (hsound.files path hpath other hother)
      exact (h.above_iff hpath hother (hrecorded path hpath) (hrecorded other hother)).mpr
        ⟨dir, hdir, hkeys, (hrecorded other hother).before hrest⟩
  · intro hspelled
    refine ⟨?_, ?_, fun path hpath => h.inside hpath (hrecorded path hpath)⟩
    · intro path hpath other hother hne hsame
      rw [h.same_iff hpath hother (hrecorded path hpath) (hrecorded other hother)] at hsame
      apply hne
      cases hcase : P.os.caseInsensitive with
      | true => exact h.spelled hcase path hpath other hother ((hspelled hcase).1 path hpath
        other hother hsame)
      | false =>
        rw [keys_of_sensitive hcase, keys_of_sensitive hcase] at hsame
        exact (hrecorded path hpath).segments_injective (hrecorded other hother) hsame
    · intro path hpath other hother habove
      obtain ⟨dir, hdir, hkeys, hdirSpelled⟩ :=
        (h.above_iff hpath hother (hrecorded path hpath) (hrecorded other hother)).mp habove
      have heq : path = dir := by
        cases hcase : P.os.caseInsensitive with
        | true => exact (hspelled hcase).2 path hpath other hother dir hdir hkeys
        | false =>
          rw [keys_of_sensitive hcase, keys_of_sensitive hcase] at hkeys
          rw [← (hrecorded path hpath).spelled, hkeys, hdirSpelled]
      exact h.apart other hother path hpath (heq ▸ hdir)

end Destinations

/-- A file system that ignores the case of ASCII letters. -/
def samplePlatform : Platform where
  os := .macos
  lowercase := List.map Char.toLower
  canon := List.map Char.toLower

def asciiUnicode : Crypto.Unicode where
  nfc := id
  assigned c := c.toNat < 0x80
  nfc_nfc := Eq.refl

theorem recorded_of_validate {text : String} (hne : text ≠ "")
    (h : Crypto.Path.validate asciiUnicode text = .ok ()) : Recorded asciiUnicode text.toList :=
  ⟨by simpa using hne, text, h, .inl rfl⟩

def sampleRoot : Path := "/out".toList

def sampleTree : List Path := ["docs/a".toList, "docs/b".toList]

/-- Two files of one directory are restored. -/
theorem inspect_sound_two : Sound samplePlatform sampleRoot sampleTree := by
  refine (inspect_sound_iff asciiUnicode samplePlatform sampleRoot sampleTree ?_
    (by decide +kernel)).mpr ?_
  · intro path hpath
    rcases mem_cons.mp hpath with rfl | hpath
    · exact recorded_of_validate (by decide) (by decide)
    · cases mem_singleton.mp hpath
      exact recorded_of_validate (by decide) (by decide)
  · intro _
    decide

def clashingTree : List Path := ["README".toList, "readme/notes".toList]

/-- The inspection reports nothing that blocks, and one file has to be the directory of the other.
-/
theorem file_above_file : (∀ path ∈ clashingTree, Recorded asciiUnicode path) ∧
    blocking (samplePlatform.toHost.inspect clashingTree (some sampleRoot) .thisPlatform) = [] ∧
    ¬Sound samplePlatform sampleRoot clashingTree := by
  refine ⟨?_, by decide +kernel, ?_⟩
  · intro path hpath
    rcases mem_cons.mp hpath with rfl | hpath
    · exact recorded_of_validate (by decide) (by decide)
    · cases mem_singleton.mp hpath
      exact recorded_of_validate (by decide) (by decide)
  · intro hsound
    refine hsound.files "README".toList (by decide) "readme/notes".toList (by decide) ?_
    refine ⟨by decide, ["notes".toList], by decide, by decide⟩

end Dctl.Recovery
