import Dctl.Mount.TreeFaithful

/-! What the mount lists in a directory and what a listing reports of the directories below a root
are the stored paths, grouped by their names. -/

namespace Dctl.Listing

open ProofKit Index Crypto Cli.Paths Mount List

def total (sizes : List (Option Nat)) : Option Nat :=
  if none ∈ sizes then none else some (min (sizes.filterMap id).sum maxU64)

section Totals

variable {d : Directory} {sizes : List (Option Nat)}

theorem counts_unknown (h : d.bytes = none) : (d.counts sizes).bytes = none := by
  induction sizes generalizing d with
  | nil => exact h
  | cons size sizes ih =>
    have hnone : (d.count size).bytes = none := by
      simp only [Directory.count, h]
      rfl
    exact ih hnone

theorem counts_bytes {b : Nat} (h : d.bytes = some b) (hb : b ≤ maxU64) : (d.counts sizes).bytes =
    if none ∈ sizes then none else some (min (b + (sizes.filterMap id).sum) maxU64) := by
  induction sizes generalizing d b with
  | nil =>
    rw [if_neg not_mem_nil, filterMap_nil, sum_nil, Nat.add_zero, Nat.min_eq_left hb]
    exact h
  | cons size sizes ih =>
    cases size with
    | none =>
      rw [if_pos mem_cons_self]
      have hnone : (d.count none).bytes = none := by
        simp only [Directory.count, h]
        rfl
      exact @counts_unknown (d.count none) sizes hnone
    | some size =>
      have hcounted : (d.count (some size)).bytes = some (satAdd b size) := by
        simp only [Directory.count, h]
        rfl
      have hsum := ih hcounted (Nat.min_le_right ..)
      have hmem : none ∈ some size :: sizes ↔ none ∈ sizes := by simp
      rw [show d.counts (some size :: sizes) = (d.count (some size)).counts sizes from rfl, hsum]
      simp only [hmem, filterMap_cons, id, sum_cons, satAdd]
      refine if_congr Iff.rfl rfl (congrArg some ?_)
      omega

theorem counts_objects (h : d.objects ≤ maxU64) :
    (d.counts sizes).objects = min (d.objects + sizes.length) maxU64 := by
  induction sizes generalizing d with
  | nil =>
    rw [length_nil, Nat.add_zero, Nat.min_eq_left h]
    rfl
  | cons size sizes ih =>
    have hcount := @ih (d.count size) (Nat.min_le_right ..)
    rw [show d.counts (size :: sizes) = (d.count size).counts sizes from rfl, hcount, length_cons]
    simp only [Directory.count, satAdd]
    omega

theorem counts_path : (d.counts sizes).path = d.path ∧ (d.counts sizes).rootLen = d.rootLen := by
  induction sizes generalizing d with
  | nil => exact ⟨rfl, rfl⟩
  | cons size sizes ih => exact ih

theorem counts_zero (path : Path) (rootLen : Nat) :
    (⟨path, rootLen, some 0, 0⟩ : Directory).counts sizes =
    ⟨path, rootLen, total sizes, min sizes.length maxU64⟩ := by
  obtain ⟨hpath, hroot⟩ := @counts_path ⟨path, rootLen, some 0, 0⟩ sizes
  have hbytes := @counts_bytes ⟨path, rootLen, some 0, 0⟩ sizes 0 rfl (Nat.zero_le _)
  have hobjects := @counts_objects ⟨path, rootLen, some 0, 0⟩ sizes (Nat.zero_le _)
  rw [Nat.zero_add] at hbytes hobjects
  generalize (⟨path, rootLen, some 0, 0⟩ : Directory).counts sizes = d at *
  obtain ⟨p, r, b, o⟩ := d
  obtain rfl : p = path := hpath
  obtain rfl : r = rootLen := hroot
  obtain rfl : b = total sizes := hbytes
  obtain rfl : o = min sizes.length maxU64 := hobjects
  rfl

end Totals

section Names

variable {names ds : List Path} {e : Entry} {name : Path}

theorem prefix_dropLast_iff {l : List Path} (hds : ds ≠ []) :
    ds <+: l.dropLast ↔ ds <+: l ∧ ds ≠ l := by
  have hpos := length_pos_iff.mpr hds
  rw [dropLast_eq_take, prefix_take_iff]
  refine and_congr_right fun hbegin => ?_
  have hle := hbegin.length_le
  constructor
  · rintro hlen rfl
    omega
  · intro hne
    have hlen : ds.length ≠ l.length := fun heq => hne (hbegin.eq_of_length heq)
    omega

theorem Spelled.isUnder_iff (h : Spelled e.path) (hnames : Pieces separator names) :
    isUnder (spell names) e.path = true ↔ Beneath names e.path ∨
      names ≠ [] ∧ e.path = spell names := by
  by_cases hnil : names = []
  · subst hnil
    have hne : segments separator e.path ≠ [] := by
      rw [h.segments_eq]
      exact append_ne_nil_of_right_ne_nil _ (cons_ne_nil _ _)
    exact ⟨fun _ => .inl ⟨List.nil_prefix, Ne.symm hne⟩, fun _ => isUnder_nil _⟩
  · rw [isUnder_spell hnames hnil, h.beneath_iff hnames hnil, or_comm]
    exact or_congr_right ⟨fun heq => ⟨hnil, heq⟩, fun heq => heq.2⟩

theorem segments_self (hnames : Pieces separator (names ++ [name]))
    (heq : e.path = spell (names ++ [name])) :
    segments separator (ListEntry.fromSource e (spell (names ++ [name]))).relative = [name] := by
  have hfront : Pieces separator names := hnames.of_subset (subset_append_left _ _)
  have hne : spell names ≠ spell (names ++ [name]) := fun h => by
    have hsame := congrArg List.length (spell_injective hfront hnames h)
    rw [length_append, length_singleton] at hsame
    omega
  have hroot : relativeOffset e.path (spell (names ++ [name])) =
      relativeOffset e.path (spell names) := by
    unfold relativeOffset
    rw [trimEnd_spell hnames, trimEnd_spell hfront, if_pos heq.symm, heq, if_neg hne,
      parentChars_spell hnames]
  have hsame : (ListEntry.fromSource e (spell (names ++ [name]))).relative =
      (ListEntry.fromSource e (spell names)).relative := by
    unfold ListEntry.relative ListEntry.fromSource
    rw [hroot]
  have hunder : isUnder (spell names) e.path = true := by
    by_cases hnil : names = []
    · rw [hnil]
      exact isUnder_nil _
    · rw [isUnder_spell hfront hnil, heq, spell_concat hnil]
      exact .inr ⟨name, rfl⟩
  have hsegs := segments_relative hfront hunder fun _ h => hne (h.symm.trans heq)
  rw [heq, segments_spell hnames] at hsegs
  rw [hsame]
  exact (append_cancel_left hsegs).symm

section

variable (h : Spelled e.path) (hnames : Pieces separator names)
  (hunder : isUnder (spell names) e.path = true)
include h hnames hunder

theorem Spelled.prefix_iff (hds : ds ≠ []) :
    ds <+: (ListEntry.fromSource e (spell names)).parentComponents ↔
      Beneath (names ++ ds) e.path := by
  rw [ListEntry.parentComponents, prefix_dropLast_iff hds]
  rcases (Spelled.isUnder_iff h hnames).mp hunder with hbelow | ⟨hne, heq⟩
  · have hsegs :=
      segments_relative hnames hunder fun _ heq => hbelow.2 (by rw [heq, segments_spell hnames])
    rw [Beneath, hsegs, prefix_append_right_inj, Ne, Ne, append_cancel_left_eq]
  · obtain ⟨front, last, rfl⟩ := eq_nil_or_concat' names |>.resolve_left hne
    rw [segments_self hnames heq, Beneath, heq, segments_spell hnames]
    constructor
    · rintro ⟨hbegin, hproper⟩
      have hle := hbegin.length_le
      have hpos := length_pos_iff.mpr hds
      rw [length_singleton] at hle
      exact absurd (hbegin.eq_of_length (by rw [length_singleton]; omega)) hproper
    · rintro ⟨hbegin, -⟩
      have hle := hbegin.length_le
      have hpos := length_pos_iff.mpr hds
      rw [length_append] at hle
      omega

theorem Spelled.isEmpty_iff :
    (ListEntry.fromSource e (spell names)).parentComponents = [] ↔
      segments separator e.path = names ++ [fileName e.path] ∨
        names ≠ [] ∧ e.path = spell names := by
  rw [ListEntry.parentComponents]
  rcases (Spelled.isUnder_iff h hnames).mp hunder with hbelow | hself
  · have hnot : ¬(names ≠ [] ∧ e.path = spell names) := fun hself =>
      hbelow.2 (by rw [hself.2, segments_spell hnames])
    have hsegs :=
      segments_relative hnames hunder fun _ heq => hbelow.2 (by rw [heq, segments_spell hnames])
    have hlast := h.segments_eq
    constructor
    · intro hnone
      left
      rw [hsegs] at hlast ⊢
      cases hrel : segments separator (ListEntry.fromSource e (spell names)).relative with
      | nil =>
        rw [hrel, append_nil] at hsegs
        exact absurd hsegs.symm hbelow.2
      | cons first rest =>
        rw [hrel] at hnone hlast
        cases rest with
        | nil =>
          have hfirst := (append_inj' hlast rfl).2
          rw [List.cons.inj hfirst |>.1]
        | cons second rest => cases hnone
    · rintro (hdirect | hself)
      · rw [hsegs] at hdirect
        rw [append_cancel_left hdirect]
        rfl
      · exact absurd hself hnot
  · obtain ⟨front, last, rfl⟩ := eq_nil_or_concat' names |>.resolve_left hself.1
    rw [segments_self hnames hself.2]
    exact ⟨fun _ => .inr hself, fun _ => rfl⟩

end

end Names

section Below

variable {stored : List Entry} {names ds : List Path} {e e' e'' : Entry} {maxDepth : Option Nat}

instance (names : List Path) (path : Path) : Decidable (Beneath names path) :=
  inferInstanceAs (Decidable (_ ∧ _))

def beneath (stored : List Entry) (names : List Path) : List Entry :=
  stored.filter fun e => decide (Beneath names e.path)

/-- The objects of a store that a listing of the directory of the names goes through. -/
def below (stored : List Entry) (names : List Path) : List ListEntry :=
  (stored.filter fun e => isUnder (spell names) e.path).map (ListEntry.fromSource · (spell names))

def totals (stored : List Entry) (rootLen : Nat) (names : List Path) : Directory :=
  ⟨spell names, rootLen, total ((beneath stored names).map Entry.size),
    min (beneath stored names).length maxU64⟩

theorem beneath_of_between (hx : Spelled e.path) (hy : Spelled e'.path) (hz : Spelled e''.path)
    (hne : names ≠ []) (hbelow : Beneath names e.path) (hbelow' : Beneath names e''.path)
    (hxy : e.path < e'.path) (hyz : e'.path < e''.path) : Beneath names e'.path := by
  have hpieces := hbelow.pieces
  obtain ⟨rest, hrest⟩ := (hx.beneath_iff hpieces hne).mp hbelow
  obtain ⟨rest', hrest'⟩ := (hz.beneath_iff hpieces hne).mp hbelow'
  have hbegin : spell names ++ [separator] <+: e.path :=
    ⟨rest, by rw [hrest, append_assoc, singleton_append]⟩
  have hbegin' : spell names ++ [separator] <+: e''.path :=
    ⟨rest', by rw [hrest', append_assoc, singleton_append]⟩
  obtain ⟨rest'', hrest''⟩ := isPrefix_of_between hbegin hbegin' hxy hyz
  refine (hy.beneath_iff hpieces hne).mpr ⟨rest'', ?_⟩
  rw [← hrest'', append_assoc, singleton_append]

theorem beneath_shorter (h : Beneath (names ++ ds) e.path) (hds : ds ≠ []) :
    Beneath names e.path := by
  obtain ⟨more, hmore⟩ := h.1
  rw [Beneath, ← hmore, append_assoc]
  refine ⟨prefix_append _ _, fun heq => ?_⟩
  exact hds (append_eq_nil_iff.mp (self_eq_append_right.mp heq)).1

theorem prefix_tracked_iff {e : ListEntry} : ds <+: tracked maxDepth e ↔
    (∀ depth, maxDepth = some depth → ds.length ≤ depth) ∧ ds <+: e.parentComponents := by
  unfold tracked
  cases maxDepth with
  | none =>
    refine ⟨fun h => ⟨fun depth hnone => ?_, h⟩, fun h => h.2⟩
    cases hnone
  | some depth =>
    rw [prefix_take_iff, and_comm]
    refine and_congr_left fun _ => ⟨fun h _ heq => Option.some.inj heq ▸ h, fun h => h depth rfl⟩

theorem dirPath_spell (h : Pieces separator (names ++ ds)) :
    dirPath (spell names) ds = spell (names ++ ds) := by
  induction ds using List.reverseRecOn with
  | nil => rw [append_nil]; rfl
  | append_singleton ds name ih =>
    rw [← append_assoc] at h ⊢
    have hfront : Pieces separator (names ++ ds) := h.of_subset (subset_append_left _ _)
    rw [dirPath_concat, ih hfront, join_spell hfront]

section Spelled

variable (hspelled : ∀ e ∈ stored, Spelled e.path) (hnames : Pieces separator names)
include hspelled hnames

theorem tracked_iff (he : e ∈ stored) (hds : ds ≠ []) :
    isUnder (spell names) e.path = true ∧
      ds <+: tracked maxDepth (ListEntry.fromSource e (spell names)) ↔
      (∀ depth, maxDepth = some depth → ds.length ≤ depth) ∧ Beneath (names ++ ds) e.path := by
  rw [prefix_tracked_iff]
  constructor
  · rintro ⟨hunder, hdepth, hbegin⟩
    exact ⟨hdepth, (Spelled.prefix_iff (hspelled e he) hnames hunder hds).mp hbegin⟩
  · rintro ⟨hdepth, hbelow⟩
    have hunder : isUnder (spell names) e.path = true :=
      (Spelled.isUnder_iff (hspelled e he) hnames).mpr (.inl (beneath_shorter hbelow hds))
    exact ⟨hunder, hdepth, (Spelled.prefix_iff (hspelled e he) hnames hunder hds).mpr hbelow⟩

theorem contiguous_below (hascending : Ascending stored) (maxDepth : Option Nat) :
    Contiguous ([] :: (below stored names).map (tracked maxDepth)) := by
  rw [below, map_map]
  refine contiguous_map _ (List.Pairwise.filter _ hascending)
    fun x hx y hy z hz hxy hyz ds hds hds' => ?_
  by_cases hnil : ds = []
  · rw [hnil]
    exact nil_prefix
  · obtain ⟨hx, hunder⟩ := mem_filter.mp hx
    obtain ⟨hy, hunder'⟩ := mem_filter.mp hy
    obtain ⟨hz, hunder''⟩ := mem_filter.mp hz
    obtain ⟨hdepth, hbelow⟩ := (tracked_iff hspelled hnames hx hnil).mp ⟨hunder, hds⟩
    obtain ⟨-, hbelow'⟩ := (tracked_iff hspelled hnames hz hnil).mp ⟨hunder'', hds'⟩
    have hne : names ++ ds ≠ [] := append_ne_nil_of_right_ne_nil _ hnil
    have hbetween :=
      beneath_of_between (hspelled x hx) (hspelled y hy) (hspelled z hz) hne hbelow hbelow' hxy hyz
    exact ((tracked_iff hspelled hnames hy hnil).mpr ⟨hdepth, hbetween⟩).2

theorem report_below (hds : ds ≠ []) (hdepth : ∀ depth, maxDepth = some depth → ds.length ≤ depth)
    (hpieces : Pieces separator (names ++ ds)) :
    report (spell names) maxDepth (below stored names) ds =
      totals stored (spell names).length (names ++ ds) := by
  have hsizes : sizesBelow maxDepth (below stored names) ds =
      (beneath stored (names ++ ds)).map Entry.size := by
    rw [sizesBelow, below, filter_map, map_map, filter_filter, beneath]
    have hsame : ∀ e : Entry, (ListEntry.size ∘ (ListEntry.fromSource · (spell names))) e =
        e.size := fun e => rfl
    rw [map_congr_left fun e _ => hsame e]
    refine congrArg _ (filter_congr fun e he => ?_)
    rw [← Bool.coe_iff_coe, Bool.and_eq_true, decide_eq_true_eq, Function.comp_apply,
      decide_eq_true_eq, and_comm, tracked_iff hspelled hnames he hds]
    exact ⟨fun h => h.2, fun h => ⟨hdepth, h⟩⟩
  rw [report, counts_zero, hsizes, length_map, dirPath_spell hpieces]
  rfl

end Spelled

/-- The directories below a root, each once with the totals of what lies beneath it, and none behind
one that it leads to. -/
structure Reports (stored : List Entry) (names : List Path) (maxDepth : Option Nat)
    (dirs : List Directory) :
    Prop where
  mem : ∀ d, d ∈ dirs ↔ ∃ ds, ds ≠ [] ∧ (∀ depth, maxDepth = some depth → ds.length ≤ depth) ∧
    (∃ e ∈ stored, Beneath (names ++ ds) e.path) ∧
      d = totals stored (spell names).length (names ++ ds)
  once : (dirs.map Directory.path).Nodup
  parentFirst : dirs.Pairwise fun d d' => ¬segments separator d'.path <+: segments separator d.path

theorem reports_below (hspelled : ∀ e ∈ stored, Spelled e.path) (hnames : Pieces separator names)
    (hascending : Ascending stored) (maxDepth : Option Nat) :
    Reports stored names maxDepth ((entries [] ((below stored names).map (tracked maxDepth))).map
      (report (spell names) maxDepth (below stored names))) := by
  have hcontiguous := contiguous_below hspelled hnames hascending maxDepth
  have hentered : ∀ ds, ds ∈ entries [] ((below stored names).map (tracked maxDepth)) ↔ ds ≠ [] ∧
      (∀ depth, maxDepth = some depth → ds.length ≤ depth) ∧ ∃ e ∈ stored,
        Beneath (names ++ ds) e.path := by
    intro ds
    rw [mem_entries hcontiguous, prefix_nil, below, map_map]
    refine and_congr_right fun hds => ?_
    constructor
    · rintro ⟨c, hc, hbegin⟩
      obtain ⟨e, he, rfl⟩ := mem_map.mp hc
      obtain ⟨he, hunder⟩ := mem_filter.mp he
      obtain ⟨hdepth, hbelow⟩ := (tracked_iff hspelled hnames he hds).mp ⟨hunder, hbegin⟩
      exact ⟨hdepth, e, he, hbelow⟩
    · rintro ⟨hdepth, e, he, hbelow⟩
      obtain ⟨hunder, hbegin⟩ := (tracked_iff hspelled hnames he hds).mpr ⟨hdepth, hbelow⟩
      exact ⟨_, mem_map_of_mem (mem_filter.mpr ⟨he, hunder⟩), hbegin⟩
  have hreport : ∀ ds ∈ entries [] ((below stored names).map (tracked maxDepth)),
      Pieces separator (names ++ ds) ∧
      report (spell names) maxDepth (below stored names) ds =
        totals stored (spell names).length (names ++ ds) := by
    intro ds hds
    obtain ⟨hne, hdepth, e, he, hbelow⟩ := (hentered ds).mp hds
    exact ⟨hbelow.pieces, report_below hspelled hnames hne hdepth hbelow.pieces⟩
  have hsegs : ∀ ds ∈ entries [] ((below stored names).map (tracked maxDepth)),
      segments separator (report (spell names) maxDepth (below stored names) ds).path =
        names ++ ds := by
    intro ds hds
    rw [(hreport ds hds).2]
    exact segments_spell (hreport ds hds).1
  have hfirst := pairwise_entries hcontiguous
  have hparent : ((entries [] ((below stored names).map (tracked maxDepth))).map
      (report (spell names) maxDepth (below stored names))).Pairwise
        fun d d' => ¬segments separator d'.path <+: segments separator d.path := by
    rw [pairwise_map]
    refine hfirst.imp_of_mem fun hds hds' hnot hbegin => hnot ?_
    rwa [hsegs _ hds, hsegs _ hds', prefix_append_right_inj] at hbegin
  refine ⟨fun d => ?_, ?_, hparent⟩
  · rw [mem_map]
    constructor
    · rintro ⟨ds, hds, rfl⟩
      obtain ⟨hne, hdepth, hbelow⟩ := (hentered ds).mp hds
      exact ⟨ds, hne, hdepth, hbelow, (hreport ds hds).2⟩
    · rintro ⟨ds, hne, hdepth, hbelow, rfl⟩
      have hds := (hentered ds).mpr ⟨hne, hdepth, hbelow⟩
      exact ⟨ds, hds, (hreport ds hds).2⟩
  · rw [List.Nodup, pairwise_map]
    refine hparent.imp fun hnot heq => hnot ?_
    rw [heq]

end Below

section Children

variable {U : Unicode} {source : Mount.Source} {stored files : List Entry} {dirs names : List Path}
  {listing : List Child}

/-- The file is listed in the directory: it lies in it, or a plain key is the directory's own path.
-/
def Direct (source : Mount.Source) (names : List Path) (e : Entry) : Prop :=
  segments separator e.path = names ++ [fileName e.path] ∨
    match source with
    | .vault _ => False
    | .plain _ => names ≠ [] ∧ e.path = spell names

/-- The listing is the files of the directory and the directories below it, each once, by name. -/
structure Groups (source : Mount.Source) (names : List Path) : Prop where
  mem : ∀ c, c ∈ source.list (spell names) ↔
    (∃ e ∈ source.stored, Direct source names e ∧ c = fileChild e) ∨
    ∃ name, (∃ e ∈ source.stored, Beneath (names ++ [name]) e.path) ∧
      c = dirChild (spell (names ++ [name]))
  once : (source.list (spell names)).Nodup
  ordered : (source.list (spell names)).Pairwise fun c c' => c.name ≤ c'.name

theorem pairwise_inOrder (children : List Child) :
    (inOrder children).Pairwise fun c c' => c.name ≤ c'.name :=
  pairwise_insertionSort (fun c c' : Child => c.name ≤ c'.name) children

theorem nodup_of_lists (h : Lists listing files dirs) (hfiles : files.Nodup) (hdirs : dirs.Nodup) :
    listing.Nodup := by
  refine h.nodup_iff.mpr (List.Nodup.append ?_ ?_ ?_)
  · exact hfiles.map_on fun e _ e' _ heq => by
      obtain ⟨path, size, modified⟩ := e
      obtain ⟨path', size', modified'⟩ := e'
      obtain rfl : path = path' := congrArg Child.path heq
      obtain rfl : size = size' := congrArg Child.size heq
      obtain rfl : modified = modified' := congrArg Child.modifiedUnix heq
      rfl
  · exact hdirs.map_on fun d _ d' _ heq => congrArg Child.path heq
  · intro c hfile hdir
    obtain ⟨e, -, rfl⟩ := mem_map.mp hfile
    obtain ⟨d, -, heq⟩ := mem_map.mp hdir
    cases congrArg Child.kind heq

theorem groups_of_lists (h : Lists (source.list (spell names)) files dirs)
    (hordered : (source.list (spell names)).Pairwise fun c c' => c.name ≤ c'.name)
    (hfiles : ∀ e, e ∈ files ↔ e ∈ source.stored ∧ Direct source names e) (hnodup : files.Nodup)
    (hdirs : ∀ d, d ∈ dirs ↔ ∃ name, (∃ e ∈ source.stored, Beneath (names ++ [name]) e.path) ∧
      d = spell (names ++ [name])) (hnodup' : dirs.Nodup) : Groups source names where
  mem c := by
    rw [h.mem_iff, mem_append, mem_map, mem_map]
    refine or_congr ⟨?_, ?_⟩ ⟨?_, ?_⟩
    · rintro ⟨e, he, rfl⟩
      exact ⟨e, ((hfiles e).mp he).1, ((hfiles e).mp he).2, rfl⟩
    · rintro ⟨e, he, hdirect, rfl⟩
      exact ⟨e, (hfiles e).mpr ⟨he, hdirect⟩, rfl⟩
    · rintro ⟨d, hd, rfl⟩
      obtain ⟨name, hbelow, rfl⟩ := (hdirs d).mp hd
      exact ⟨name, hbelow, rfl⟩
    · rintro ⟨name, hbelow, rfl⟩
      exact ⟨_, (hdirs _).mpr ⟨name, hbelow, rfl⟩, rfl⟩
  once := nodup_of_lists h hnodup hnodup'
  ordered := hordered

theorem nodup_of_ascending (h : Ascending stored) : stored.Nodup :=
  List.Pairwise.imp (fun hlt heq => ne_of_lt hlt (congrArg Entry.path heq)) h

theorem groups_vault (hvalid : ∀ e ∈ stored, Path.validate U (String.ofList e.path) = .ok ())
    (hascending : Ascending stored) (hnames : Pieces separator names) :
    Groups (.vault stored) names := by
  have hlisted := vaultListed hvalid hnames
  refine groups_of_lists (inOrder_perm _) (pairwise_inOrder _) (fun e => ?_)
    ((nodup_of_ascending hascending).sublist hlisted.sublist) (fun d => ?_) hlisted.nodup
  · rw [hlisted.files e]
    refine and_congr_right fun he => ?_
    have hsegs := (wellNamed_of_validate (hvalid e he)).segments_eq
    constructor
    · rintro ⟨name, heq⟩
      left
      rw [heq] at hsegs ⊢
      rw [(append_inj' hsegs rfl).2]
    · rintro (hdirect | hfalse)
      · exact ⟨_, hdirect⟩
      · exact hfalse.elim
  · rw [hlisted.dirs d]
    exact exists_congr fun name => and_comm

section

variable (hspelled : ∀ e ∈ stored, Spelled e.path) (hnames : Pieces separator names)
  (hascending : Ascending stored)
include hspelled hnames hascending

theorem group_lists : ∃ out : List Directory, Reports stored names (some 1) out ∧
      Lists (group stored (spell names))
        ((stored.filter fun e => isUnder (spell names) e.path).filter fun e =>
        (ListEntry.fromSource e (spell names)).parentComponents.isEmpty)
          (out.map Directory.path) := by
  have hrun := @Aggregator.run_new (spell names) _ _
    (contiguous_below hspelled hnames hascending (some 1))
  refine ⟨_, reports_below hspelled hnames hascending (some 1), (inOrder_perm _).trans (.of_eq ?_)⟩
  rw [← hrun.collected, filter_map, map_map]
  rfl

theorem groups_plain : Groups (.plain stored) names := by
  obtain ⟨out, hout, hlists⟩ := group_lists hspelled hnames hascending
  refine groups_of_lists hlists (pairwise_inOrder _) (fun e => ?_)
    (((nodup_of_ascending hascending).filter _).filter _) (fun d => ?_) hout.once
  · rw [mem_filter, mem_filter, List.isEmpty_iff, and_assoc]
    refine and_congr_right fun he => ?_
    constructor
    · rintro ⟨hunder, hnone⟩
      exact (Spelled.isEmpty_iff (hspelled e he) hnames hunder).mp hnone
    · intro hdirect
      have hunder : isUnder (spell names) e.path = true := by
        refine (Spelled.isUnder_iff (hspelled e he) hnames).mpr ?_
        rcases hdirect with hsegs | hself
        · left
          rw [Beneath, hsegs]
          refine ⟨prefix_append _ _, fun heq => ?_⟩
          exact cons_ne_nil _ _ (self_eq_append_right.mp heq)
        · exact .inr hself
      exact ⟨hunder, (Spelled.isEmpty_iff (hspelled e he) hnames hunder).mpr hdirect⟩
  · rw [mem_map]
    constructor
    · rintro ⟨d, hd, rfl⟩
      obtain ⟨ds, hds, hdepth, hbelow, rfl⟩ := (hout.mem d).mp hd
      have hlen := hdepth 1 rfl
      obtain ⟨name, rfl⟩ := length_eq_one_iff.mp (Nat.le_antisymm hlen (length_pos_iff.mpr hds))
      exact ⟨name, hbelow, rfl⟩
    · rintro ⟨name, hbelow, rfl⟩
      refine ⟨_, (hout.mem _).mpr ⟨[name], cons_ne_nil _ _, fun depth heq => ?_, hbelow, rfl⟩, rfl⟩
      cases heq
      exact Nat.le_refl _

end

end Children

/-- For ascending paths that are spelled, the mount lists in every directory the objects and the
directories with one name more, and the listing reports of every root, as deep as is asked, each
directory once, behind those that it lies in, with the totals of all that is stored beneath it. -/
theorem grouped_of_spelled {stored : List Entry} {names : List Path} (hascending : Ascending stored)
    (hspelled : ∀ e ∈ stored, Spelled e.path) (hnames : Pieces separator names) :
    Groups (.plain stored) names ∧
      (∀ U : Unicode, (∀ e ∈ stored, Path.validate U (String.ofList e.path) = .ok ()) →
        Groups (.vault stored) names) ∧
      ∀ maxDepth, ∃ dirs, Reports stored names maxDepth dirs ∧
        Emits (fun _ _ emit => (Aggregator.new (spell names) maxDepth).run emit
          (below stored names)) dirs () :=
  ⟨groups_plain hspelled hnames hascending, fun _ hvalid => groups_vault hvalid hascending hnames,
    fun maxDepth => ⟨_, reports_below hspelled hnames hascending maxDepth,
      Aggregator.run_new (contiguous_below hspelled hnames hascending maxDepth)⟩⟩

theorem grouped_of_spelled_parted :
    Groups (.plain parted) [['a']] ∧ Groups (.vault parted) [['a']] ∧
    Groups (.plain parted) [] ∧ Reports parted [] none [⟨['a'], 0, some 2, 1⟩] ∧
      Emits (fun _ _ emit => (Aggregator.new [] none).run emit (below parted []))
        [⟨['a'], 0, some 2, 1⟩] () := by
  have hspelled : ∀ e ∈ parted, Spelled e.path := by
    intro e he
    simp only [parted, mem_cons, not_mem_nil, or_false] at he
    rcases he with rfl | rfl
    · exact ⟨by decide, by decide⟩
    · exact ⟨by decide, by decide⟩
  have hascending : Ascending parted := by
    unfold Ascending
    decide
  have hvalid : ∀ e ∈ parted, Path.validate clearUnicode (String.ofList e.path) = .ok () := by
    decide
  have hname := grouped_of_spelled hascending hspelled
    (pieces_singleton (by decide) (by decide) : Pieces separator [['a']])
  obtain ⟨hroot, -, hreports⟩ := grouped_of_spelled hascending hspelled (forall_mem_nil _)
  obtain ⟨dirs, hdirs, hemits⟩ := hreports none
  obtain rfl : [⟨['a'], 0, some 2, 1⟩] = dirs := hemits.collected
  exact ⟨hname.1, hname.2.1 clearUnicode hvalid, hroot, hdirs, hemits⟩

def huge : List Entry := [⟨"a/b".toList, some maxU64, none⟩, ⟨"a/c".toList, some 1, none⟩]

/-- A directory that is left for another spelling of its parent. -/
def doubled : List Entry :=
  [⟨"/b/x".toList, some 1, none⟩, ⟨"0/y".toList, some 2, none⟩, ⟨"b/z".toList, some 3, none⟩]

/-- A total stops where it would no longer fit; the object at a directory's own path is listed in
it; and a directory is reported twice when its keys are spelled differently. -/
theorem not_grouped_huge :
    ((Aggregator.run (m := StateM (List Directory)) (fun d => modify (· ++ [d]))
      (Aggregator.new [] none)
        (below huge [])) []).2 = [⟨['a'], 0, some maxU64, 2⟩] ∧
      (huge.filterMap Entry.size).sum = maxU64 + 1 ∧
      ((Mount.Source.plain nested).list ['a']).map Child.name = [['a'], ['b']] ∧
      ((Aggregator.run (m := StateM (List Directory)) (fun d => modify (· ++ [d]))
        (Aggregator.new [] none)
        (below doubled [])) []).2.map Directory.path = [['b'], ['0'], ['b']] := by
  refine ⟨?_, ?_, ?_, ?_⟩
  · rfl
  · rfl
  · decide
  · rfl

end Dctl.Listing
