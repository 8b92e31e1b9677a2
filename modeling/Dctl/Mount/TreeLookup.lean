import Dctl.Mount.TreePaths
import Mathlib.Data.List.Dedup

/-! The names that the mount lists in each directory, and the object that is reached by looking up
the names of its path. -/

namespace Dctl.Mount

open ProofKit Index Crypto Cli.Paths Dctl.Listing

variable {U : Unicode} {stored : List Entry} {names : List Path}
  {path name dir : Path}
  {e : Entry}

/-- The files directly in the directory, and the directories in it that lie above a stored path. -/
structure Listed (stored : List Entry) (names : List Path) (files : List Entry) (dirs : List Path) :
    Prop where
  sublist : files.Sublist stored
  files : ∀ e, e ∈ files ↔ e ∈ stored ∧ ∃ name, segments separator e.path = names ++ [name]
  nodup : dirs.Nodup
  dirs : ∀ d, d ∈ dirs ↔ ∃ name, d = spell (names ++ [name]) ∧ ∃ e ∈ stored,
    Beneath (names ++ [name]) e.path

/-- The listing has an entry for each of these files and directories. -/
def Lists (listing : List Child) (files : List Entry) (dirs : List Path) : Prop :=
  listing.Perm (files.map fileChild ++ dirs.map dirChild)

theorem inOrder_perm (children : List Child) : (inOrder children).Perm children :=
  List.perm_insertionSort _ _

/-- The root, or a directory above a stored path. -/
def Reached (stored : List Entry) (names : List Path) : Prop :=
  names = [] ∨ ∃ e ∈ stored, Beneath names e.path

theorem Beneath.pieces (h : Beneath names path) : Pieces separator names :=
  (pieces_segments separator path).of_subset h.1.subset

theorem Reached.pieces (h : Reached stored names) : Pieces separator names := by
  rcases h with rfl | ⟨e, -, he⟩
  · exact nofun
  · exact he.pieces

theorem vaultListed (hvalid : ∀ e ∈ stored, Path.validate U (String.ofList e.path) = .ok ())
    (hnames : Pieces separator names) :
    Listed stored names (vaultChildren stored (spell names)).files
      (vaultChildren stored (spell names)).dirs where
  sublist := List.filter_sublist
  files e := by
    simp only [vaultChildren, List.mem_filter, decide_eq_true_eq]
    refine and_congr_right fun he => ?_
    have hspell := spell_of_validate (hvalid e he)
    have hpieces := pieces_segments separator e.path
    obtain ⟨dirs, last, hsegs⟩ :=
      List.eq_nil_or_concat (segments separator e.path) |>.resolve_left
        (segments_ne_nil_of_validate (hvalid e he))
    rw [List.concat_eq_append] at hsegs
    rw [hsegs] at hspell hpieces
    rw [hspell, parentChars_spell hpieces]
    have hdirs : Pieces separator dirs := hpieces.of_subset (List.subset_append_left _ _)
    rw [segments_spell hpieces]
    constructor
    · intro heq
      exact ⟨last, by rw [spell_injective hdirs hnames heq]⟩
    · rintro ⟨name, heq⟩
      rw [(List.append_inj' heq rfl).1]
  nodup := (List.nodup_dedup _).filter _
  dirs d := by
    simp only [vaultChildren, List.mem_filter, List.mem_dedup, List.mem_flatMap, decide_eq_true_eq]
    constructor
    · rintro ⟨⟨e, he, hd⟩, hparent⟩
      obtain ⟨-, a, rest, hpath, hda⟩ := mem_ancestorsLoop.mp hd
      rw [List.nil_append] at hda
      subst hda
      obtain ⟨hsplit, hvalidNames⟩ := segments_of_validate (hvalid e he)
      rw [hpath, List.splitOn_append_cons_self] at hsplit hvalidNames
      have ha : segments separator d = d.splitOn separator := by
        rw [segments, List.filter_eq_self]
        exact fun seg hseg => decide_eq_true (hvalidNames seg (List.mem_append_left _ hseg)).1
      have hspell : d = spell (segments separator d) := by
        rw [ha]
        exact (List.intercalate_splitOn separator).symm
      have hpieces := pieces_segments separator d
      obtain ⟨dirs, last, hsegs⟩ := List.eq_nil_or_concat (segments separator d) |>.resolve_left
        (ha ▸ List.splitOn_ne_nil _ _)
      rw [List.concat_eq_append] at hsegs
      rw [hsegs] at hspell hpieces
      rw [hspell, parentChars_spell hpieces] at hparent
      have hdirs : Pieces separator dirs := hpieces.of_subset (List.subset_append_left _ _)
      obtain rfl := spell_injective hdirs hnames hparent
      refine ⟨last, hspell, e, he, ?_, ?_⟩
      · rw [hpath, segments_append, hsegs]
        exact List.prefix_append _ _
      · rw [hpath, segments_append, hsegs]
        intro heq
        have hrest : segments separator rest = [] := List.self_eq_append_right.mp heq
        rw [segments_append, ha, hrest] at hsplit
        exact List.splitOn_ne_nil separator rest (List.append_cancel_left hsplit).symm
    · rintro ⟨name, rfl, e, he, ⟨more, hmore⟩, hproper⟩
      have hpieces : Pieces separator (names ++ [name]) :=
        (pieces_segments separator e.path).of_subset (hmore ▸ List.subset_append_left _ _)
      have hne : more ≠ [] := by
        rintro rfl
        exact hproper (by rw [← hmore, List.append_nil])
      refine ⟨⟨e, he, mem_ancestorsLoop.mpr ⟨?_, spell (names ++ [name]), spell more, ?_, rfl⟩⟩,
        parentChars_spell hpieces⟩
      · exact intercalate_ne_nil hpieces (by simp)
      · rw [spell_of_validate (hvalid e he), ← hmore, spell_append (by simp) hne]

section

variable (hnames : Pieces separator names) (hunder : isUnder (spell names) e.path = true)
include hnames hunder

theorem relative_cases :
    (names = [] ∧ (ListEntry.fromSource e (spell names)).relative = e.path) ∨
      (names ≠ [] ∧ e.path = spell names) ∨
      names ≠ [] ∧ e.path = spell names ++ separator ::
        (ListEntry.fromSource e (spell names)).relative := by
  unfold ListEntry.relative ListEntry.fromSource relativeOffset
  rw [trimEnd_spell hnames]
  by_cases hnil : names = []
  · subst hnil
    have hzero : ∀ root : Path, trimEnd root = [] → offsetBelow e.path root = 0 :=
      fun root h => if_pos (.inl h)
    have hspell : spell [] = [] := rfl
    refine .inl ⟨rfl, ?_⟩
    split
    next heq =>
      rw [← heq, hspell]
      rfl
    · rw [hzero _ rfl, List.drop_zero]
  · have hspell : spell names ≠ [] := fun h => hnil ((spell_eq_nil hnames).mp h)
    rcases (isUnder_spell hnames hnil).mp hunder with heq | ⟨rest, hrest⟩
    · exact .inr (.inl ⟨hnil, heq⟩)
    · refine .inr (.inr ⟨hnil, ?_⟩)
      have hne : spell names ≠ e.path := by
        rw [hrest]
        simp
      rw [if_neg hne, offsetBelow, trimEnd_spell hnames, if_neg (by simp [hspell, hunder])]
      have hmin : min ((spell names).length + 1) e.path.length = (spell names).length + 1 := by
        rw [hrest, List.length_append, List.length_cons]
        omega
      rw [hmin, hrest, ← List.drop_drop, List.drop_left]
      rfl

theorem segments_relative (hself : names ≠ [] → e.path ≠ spell names) :
    segments separator e.path =
      names ++ segments separator (ListEntry.fromSource e (spell names)).relative := by
  rcases relative_cases hnames hunder with ⟨rfl, hrel⟩ | ⟨hne, heq⟩ | ⟨-, hpath⟩
  · rw [hrel, List.nil_append]
  · exact absurd heq (hself hne)
  · calc segments separator e.path
        = segments separator (spell names ++ separator ::
          (ListEntry.fromSource e (spell names)).relative) := by
          rw [← hpath]
      _ = _ := by rw [segments_append, segments_spell hnames]

end

/-- A plain store enumerates its keys in ascending order. -/
def Ascending (stored : List Entry) : Prop := stored.Pairwise fun e e' => e.path < e'.path

/-- Every path is well named, and the components of none are the beginning of another's. -/
structure Spread (stored : List Entry) : Prop where
  named : ∀ e ∈ stored, WellNamed e.path
  apart : ∀ e ∈ stored, ∀ e' ∈ stored,
    segments separator e.path <+: segments separator e'.path → e.path = e'.path

theorem group_perm (stored : List Entry) (dir : Path) : (group stored dir).Perm
    (((stored.filter fun e => isUnder dir e.path).filter fun e =>
        (ListEntry.fromSource e dir).parentComponents.isEmpty).map fileChild ++
      ((runs none ((stored.filter fun e => isUnder dir e.path).map fun e =>
        (ListEntry.fromSource e dir).first)).map (join dir)).map dirChild) := by
  have hnew : OpenAt dir none [] := rfl
  obtain ⟨out, hrun, hpaths⟩ := hnew.run
    ((stored.filter fun e => isUnder dir e.path).map (ListEntry.fromSource · dir))
  rw [List.map_map, ← hrun.collected] at hpaths
  refine (inOrder_perm _).trans (.of_eq ?_)
  rw [Aggregator.new, hpaths, List.filter_map, List.map_map]
  rfl

section

variable (h : Spread stored) (hnames : Reached stored names) (he : e ∈ stored)
include h hnames he

theorem Spread.isUnder_iff : isUnder (spell names) e.path = true ↔ Beneath names e.path := by
  by_cases hnil : names = []
  · subst hnil
    have hne : segments separator e.path ≠ [] := by
      rw [(h.named e he).segments_eq]
      simp
    exact ⟨fun _ => ⟨List.nil_prefix, Ne.symm hne⟩, fun _ => isUnder_nil _⟩
  · rw [isUnder_spell hnames.pieces hnil, (h.named e he).beneath_iff hnames.pieces hnil]
    refine ⟨fun hor => hor.resolve_left fun heq => ?_, .inr⟩
    obtain ⟨e', he', hbegin, hproper⟩ := hnames.resolve_left hnil
    have hsegs : segments separator e.path = names := by rw [heq, segments_spell hnames.pieces]
    have hsame := h.apart e he e' he' (hsegs ▸ hbegin)
    exact hproper (by rw [← hsame, hsegs])

theorem Spread.segments_relative (hbelow : Beneath names e.path) : segments separator e.path =
      names ++ segments separator (ListEntry.fromSource e (spell names)).relative := by
  refine Mount.segments_relative hnames.pieces ((h.isUnder_iff hnames he).mpr hbelow) fun _ heq =>
    hbelow.2 ?_
  rw [heq, segments_spell hnames.pieces]

theorem Spread.isEmpty_iff (hbelow : Beneath names e.path) :
    (ListEntry.fromSource e (spell names)).parentComponents.isEmpty = true ↔
      ∃ name, segments separator e.path = names ++ [name] := by
  have hsegs := h.segments_relative hnames he hbelow
  rw [ListEntry.parentComponents, List.isEmpty_iff, hsegs]
  cases hrel : segments separator (ListEntry.fromSource e (spell names)).relative with
  | nil =>
    rw [hrel, List.append_nil] at hsegs
    exact absurd hsegs.symm hbelow.2
  | cons first rest => cases rest <;> simp

theorem Spread.first_iff (hbelow : Beneath names e.path) :
    (ListEntry.fromSource e (spell names)).first = some name ↔
      Beneath (names ++ [name]) e.path := by
  have hsegs := h.segments_relative hnames he hbelow
  rw [ListEntry.first, ListEntry.parentComponents, Beneath, hsegs]
  rw [List.prefix_append_right_inj, Ne, List.append_cancel_left_eq]
  cases hrel : segments separator (ListEntry.fromSource e (spell names)).relative with
  | nil => simp
  | cons first rest => cases rest <;> simp [eq_comm]

end

theorem plainListed (hascending : Ascending stored) (h : Spread stored)
    (hnames : Reached stored names) :
    Listed stored names
      ((stored.filter fun e => isUnder (spell names) e.path).filter fun e =>
        (ListEntry.fromSource e (spell names)).parentComponents.isEmpty)
      ((runs none ((stored.filter fun e => isUnder (spell names) e.path).map fun e =>
        (ListEntry.fromSource e (spell names)).first)).map (join (spell names))) where
  sublist := List.filter_sublist.trans List.filter_sublist
  files e := by
    rw [List.mem_filter, List.mem_filter, and_assoc]
    refine and_congr_right fun he => ?_
    constructor
    · rintro ⟨hunder, hempty⟩
      exact (h.isEmpty_iff hnames he ((h.isUnder_iff hnames he).mp hunder)).mp hempty
    · rintro ⟨name, hsegs⟩
      have hbelow : Beneath names e.path := by
        rw [Beneath, hsegs]
        simp
      exact ⟨(h.isUnder_iff hnames he).mpr hbelow,
        (h.isEmpty_iff hnames he hbelow).mpr ⟨name, hsegs⟩⟩
  nodup := by
    have hall : ∀ e ∈ stored.filter fun e => isUnder (spell names) e.path, e ∈ stored ∧
        Beneath names e.path := by
      intro e he
      obtain ⟨hmem, hunder⟩ := List.mem_filter.mp he
      exact ⟨hmem, (h.isUnder_iff hnames hmem).mp hunder⟩
    have hgrouped := grouped_of_between (fun e => (ListEntry.fromSource e (spell names)).first)
      (List.Pairwise.filter (fun e => isUnder (spell names) e.path) hascending)
      (fun x hx y hy z hz hxy hyz name hfirst hfirst' => by
        obtain ⟨hx, hbelow⟩ := hall x hx
        obtain ⟨hy, hbelow'⟩ := hall y hy
        obtain ⟨hz, hbelow''⟩ := hall z hz
        have hx' := (h.first_iff hnames hx hbelow).mp hfirst
        have hz' := (h.first_iff hnames hz hbelow'').mp hfirst'
        have hpieces := hx'.pieces
        obtain ⟨rest, hrest⟩ := ((h.named x hx).beneath_iff hpieces (by simp)).mp hx'
        obtain ⟨rest', hrest'⟩ := ((h.named z hz).beneath_iff hpieces (by simp)).mp hz'
        obtain ⟨rest'', hrest''⟩ :=
          isPrefix_of_between (s := spell (names ++ [name]) ++ [separator])
          ⟨rest, by rw [hrest, List.append_assoc, List.singleton_append]⟩
          ⟨rest', by rw [hrest', List.append_assoc, List.singleton_append]⟩ hxy hyz
        refine (h.first_iff hnames hy hbelow').mpr
          (((h.named y hy).beneath_iff hpieces (by simp)).mpr ⟨rest'', ?_⟩)
        rw [← hrest'', List.append_assoc, List.singleton_append])
    refine List.Nodup.map_on ?_ (nodup_runs ⟨nofun, hgrouped⟩)
    intro name hname name' hname' heq
    have hpieces : ∀ name ∈ runs none _, Pieces separator (names ++ [name]) := fun name hname => by
      obtain ⟨e, he, hfirst⟩ :=
        List.mem_map.mp ((List.mem_cons.mp (mem_runs.mp hname)).resolve_left nofun)
      obtain ⟨hmem, hbelow⟩ := hall e he
      exact ((h.first_iff hnames hmem hbelow).mp hfirst).pieces
    rw [join_spell hnames.pieces, join_spell hnames.pieces] at heq
    have := spell_injective (hpieces name hname) (hpieces name' hname') heq
    simpa using this
  dirs d := by
    simp only [List.mem_map, mem_runs, List.mem_cons, reduceCtorEq, false_or, List.mem_filter]
    constructor
    · rintro ⟨name, ⟨e, ⟨he, hunder⟩, hfirst⟩, rfl⟩
      exact ⟨name, join_spell hnames.pieces, e, he,
        (h.first_iff hnames he ((h.isUnder_iff hnames he).mp hunder)).mp hfirst⟩
    · rintro ⟨name, rfl, e, he, hbelow⟩
      have hshorter : Beneath names e.path := by
        obtain ⟨more, hmore⟩ := hbelow.1
        rw [Beneath, ← hmore]
        simp
      exact ⟨name, ⟨e, ⟨he, (h.isUnder_iff hnames he).mpr hshorter⟩,
        (h.first_iff hnames he hshorter).mpr hbelow⟩, join_spell hnames.pieces⟩

end Dctl.Mount
