import Dctl.Removal.Selection

/-! What a removal selects: distinct items of the listing, objects in front of markers and deeper
markers in front of shallower ones, and the marker of a directory only with everything below it. -/

namespace Dctl.Removal

open ProofKit Index Cli Cli.Paths List

variable {selects : Entry → Bool} {target : Target} {listing : Listing target.path}
  {items : List Item}
  {dirs : List Path} {chosen : Entry → Bool} {d d' path : Path} {e : Entry} {op : Operation}

def Listing.declared {dir : Path} (l : Listing dir) : List Path :=
  (Directories.fromPaths l.paths).markers

/-- What the selection of a removal is to be. -/
structure Sound (target : Target) (listing : Listing target.path) (items : List Item) : Prop where
  distinct : (items.map Item.path).Nodup
  listed : ∀ i ∈ items, i.path ∈ listing.paths ∧ isUnder target.path i.path = true
  objectsFirst : items.Pairwise fun i j => i.kind = .directory → j.kind = .directory
  deepestFirst : items.Pairwise fun i j => i.kind = .directory → j.kind = .directory →
    depth j.path ≤ depth i.path
  closed : ∀ d ∈ listing.declared, markerItem d ∈ items → ∀ d' ∈ listing.declared, Below d d' →
    markerItem d' ∈ items
  emptied : ∀ d ∈ listing.declared, markerItem d ∈ items →
    ∀ e ∈ listing.entries, isMarker e.path = false →
    Below d e.path → objectItem e ∈ items

instance : Std.Total deeper where
  total a b := by
    unfold deeper
    rcases lt_trichotomy (depth a) (depth b) with h | h | h
    · exact .inr (.inl h)
    · rcases le_total a b with hab | hab
      · exact .inl (.inr ⟨h, hab⟩)
      · exact .inr (.inr ⟨h.symm, hab⟩)
    · exact .inl (.inl h)

instance : IsTrans Path deeper where
  trans a b c := by
    unfold deeper
    rintro (hab | ⟨hab, hle⟩) (hbc | ⟨hbc, hle'⟩)
    · exact .inl (hbc.trans hab)
    · exact .inl (hbc ▸ hab)
    · exact .inl (hab ▸ hbc)
    · exact .inr ⟨hab.trans hbc, hle.trans hle'⟩

theorem mem_sortDeepestFirst {paths : List Path} : path ∈ sortDeepestFirst paths ↔ path ∈ paths :=
  (perm_insertionSort _ _).mem_iff

theorem sortDeepestFirst_deeper (paths : List Path) : (sortDeepestFirst paths).Pairwise deeper :=
  pairwise_insertionSort _ _

theorem depth_markerPath (d : Path) : depth (markerPath d) = depth d + 1 := by
  have hname : segments separator directoryMarkerName = [directoryMarkerName] := by decide
  unfold depth markerPath
  split
  next h =>
    rw [h, hname, segments_nil]
    rfl
  next => rw [segments_append, hname, length_append, length_singleton]

/-- Chosen objects of the listing, and behind them the markers of directories, deepest first. -/
structure Arranged (listing : Listing target.path) (items : List Item) (chosen : Entry →
    Bool) (dirs : List Path) :
    Prop where
  eq : items = (listing.entries.filter chosen).map objectItem ++ dirs.map markerItem
  objects : ∀ e, chosen e = true → isMarker e.path = false
  nodup : dirs.Nodup
  sorted : dirs.Pairwise deeper
  declared : ∀ d ∈ dirs, d ∈ listing.declared ∧ isUnder target.path d = true

theorem markerItem_injective : Function.Injective markerItem := fun _ _ h =>
  markerPath_injective (congrArg Item.path h)

theorem Arranged.markerItem_mem (h : Arranged listing items chosen dirs) :
    markerItem d ∈ items ↔ d ∈ dirs := by
  rw [h.eq, mem_append, mem_map_of_injective markerItem_injective]
  refine or_iff_right ?_
  rintro hmem
  obtain ⟨e, -, heq⟩ := mem_map.mp hmem
  exact ItemKind.noConfusion (congrArg Item.kind heq)

theorem Arranged.objectItem_mem (h : Arranged listing items chosen dirs) :
    objectItem e ∈ items ↔ ∃ e' ∈ listing.entries, chosen e' = true ∧
      objectItem e' = objectItem e := by
  rw [h.eq, mem_append, mem_map]
  constructor
  · rintro (⟨e', he', heq⟩ | hmem)
    · obtain ⟨hmem, hchosen⟩ := mem_filter.mp he'
      exact ⟨e', hmem, hchosen, heq⟩
    · obtain ⟨d, -, heq⟩ := mem_map.mp hmem
      exact ItemKind.noConfusion (congrArg Item.kind heq)
  · rintro ⟨e', he', hchosen, heq⟩
    exact .inl ⟨e', mem_filter.mpr ⟨he', hchosen⟩, heq⟩

variable {dir : Path}

theorem Listing.nodup_paths (l : Listing dir) : l.paths.Nodup :=
  pairwise_map.mpr (l.ascending.imp fun h => ne_of_lt h)

theorem Listing.eq_of_path {l : Listing dir} {e e' : Entry} (he : e ∈ l.entries)
    (he' : e' ∈ l.entries) (h : e.path = e'.path) : e = e' :=
  inj_on_of_nodup_map l.nodup_paths he he' h

theorem Arranged.sound_iff_dirs (h : Arranged listing items chosen dirs) :
    Sound target listing items ↔
    (∀ d ∈ dirs, markerPath d ∈ listing.paths) ∧
    (∀ d ∈ dirs, ∀ d' ∈ listing.declared, Below d d' → d' ∈ dirs) ∧
    ∀ d ∈ dirs, ∀ e ∈ listing.entries, isMarker e.path = false → Below d e.path →
      chosen e = true := by
  constructor
  · intro hs
    refine ⟨fun d hd => (hs.listed _ (h.markerItem_mem.mpr hd)).1, fun d hd d' hd' hbelow => ?_,
      fun d hd e he hobject hbelow => ?_⟩
    · exact h.markerItem_mem.mp (hs.closed d (h.declared d hd).1 (h.markerItem_mem.mpr hd)
        d' hd' hbelow)
    · have hmem := hs.emptied d (h.declared d hd).1 (h.markerItem_mem.mpr hd) e he hobject hbelow
      obtain ⟨e', he', hchosen, heq⟩ := h.objectItem_mem.mp hmem
      rwa [Listing.eq_of_path he' he (congrArg Item.path heq)] at hchosen
  · rintro ⟨hlisted, hclosed, hemptied⟩
    refine ⟨?_, ?_, ?_, ?_, ?_, ?_⟩
    · rw [h.eq, map_append, map_map, map_map]
      refine List.Nodup.append ?_ (h.nodup.map markerPath_injective) ?_
      · exact listing.nodup_paths.sublist (filter_sublist.map Entry.path)
      · intro path hobject hmarker
        obtain ⟨e, he, rfl⟩ := mem_map.mp hobject
        obtain ⟨d, -, heq⟩ := mem_map.mp hmarker
        have hmark := isMarker_markerPath d
        rw [show markerPath d = e.path from heq, h.objects e (mem_filter.mp he).2] at hmark
        cases hmark
    · intro i hi
      have hpath : i.path ∈ listing.paths := by
        rw [h.eq, mem_append] at hi
        rcases hi with hi | hi
        · obtain ⟨e, he, rfl⟩ := mem_map.mp hi
          exact mem_map_of_mem (mem_of_mem_filter he)
        · obtain ⟨d, hd, rfl⟩ := mem_map.mp hi
          exact hlisted d hd
      obtain ⟨e, he, hpath'⟩ := mem_map.mp hpath
      exact ⟨hpath, hpath' ▸ listing.under e he⟩
    · rw [h.eq, pairwise_append]
      refine ⟨?_, ?_, ?_⟩
      · exact pairwise_map.mpr (pairwise_of_forall fun _ _ => nofun)
      · exact pairwise_map.mpr (pairwise_of_forall fun _ _ _ => rfl)
      · intro i hi j hj hkind
        obtain ⟨e, -, rfl⟩ := mem_map.mp hi
        cases hkind
    · rw [h.eq, pairwise_append]
      refine ⟨?_, ?_, ?_⟩
      · exact pairwise_map.mpr (pairwise_of_forall fun _ _ => nofun)
      · refine pairwise_map.mpr (h.sorted.imp fun {a b} hdeeper _ _ => ?_)
        show depth (markerPath b) ≤ depth (markerPath a)
        rw [depth_markerPath, depth_markerPath]
        rcases hdeeper with hlt | ⟨heq, -⟩
        · omega
        · omega
      · intro i hi j hj hkind
        obtain ⟨e, -, rfl⟩ := mem_map.mp hi
        cases hkind
    · intro d _ hd d' hd' hbelow
      exact h.markerItem_mem.mpr (hclosed d (h.markerItem_mem.mp hd) d' hd' hbelow)
    · intro d _ hd e he hobject hbelow
      exact h.objectItem_mem.mpr ⟨e, he,
        hemptied d (h.markerItem_mem.mp hd) e he hobject hbelow, rfl⟩

theorem isUnder_of_below (hunder : isUnder target.path d = true) (hbelow : Below d d') :
    isUnder target.path d' = true := by
  obtain ⟨names, hnames, hpath⟩ := target.clean
  by_cases hnil : names = []
  · subst hnil
    rw [hpath]
    exact isUnder_nil d'
  · rw [hpath] at hunder ⊢
    have hd : d ≠ [] := by
      rintro rfl
      rcases (isUnder_spell hnames hnil).mp hunder with heq | ⟨rest, heq⟩
      · exact intercalate_ne_nil hnames hnil heq.symm
      · simp at heq
    obtain ⟨rest, hrest⟩ := (below_of_ne hd).mp hbelow
    refine (isUnder_spell hnames hnil).mpr (.inr ?_)
    rcases (isUnder_spell hnames hnil).mp hunder with rfl | ⟨more, rfl⟩
    · exact ⟨rest, by rw [← hrest, append_assoc, singleton_append]⟩
    · exact ⟨more ++ separator :: rest, by
        rw [← hrest, append_assoc, append_assoc, singleton_append, cons_append]⟩

theorem not_below_target (hunder : isUnder target.path d = true) : ¬Below d target.path := by
  intro hbelow
  obtain ⟨names, hnames, hpath⟩ := target.clean
  have hne := hbelow.ne_nil
  have hnil : names ≠ [] := by
    rintro rfl
    exact hne hpath
  rw [hpath] at hunder hbelow
  rcases (isUnder_spell hnames hnil).mp hunder with heq | ⟨rest, rfl⟩
  · exact hbelow.ne heq.symm
  · have hlen := ((below_of_ne (by simp)).mp hbelow).length_le
    simp at hlen

theorem target_root (hunder : isUnder target.path [] = true) : target.path = [] := by
  obtain ⟨names, hnames, hpath⟩ := target.clean
  by_contra hne
  have hnil : names ≠ [] := by
    rintro rfl
    exact hne hpath
  rw [hpath] at hunder
  rcases (isUnder_spell hnames hnil).mp hunder with heq | ⟨rest, heq⟩
  · exact hne (hpath.trans heq.symm)
  · simp at heq

/-- A marker of the root that is listed with a separator is listed without it too. -/
def RootSpelled {dir : Path} (l : Listing dir) : Prop :=
  separator :: directoryMarkerName ∈ l.paths → directoryMarkerName ∈ l.paths

theorem mem_declared {l : Listing dir} : d ∈ l.declared ↔
    ∃ path ∈ l.paths, isMarker path = true ∧ parentChars path = d := mem_markers

theorem markerPath_mem {l : Listing dir} (hd : d ∈ l.declared) :
    markerPath d ∈ l.paths ∨ d = [] ∧ separator :: directoryMarkerName ∈ l.paths := by
  obtain ⟨path, hpath, hmarker, rfl⟩ := mem_declared.mp hd
  rcases markerPath_parentChars hmarker with heq | rfl
  · rw [heq]
    exact .inl hpath
  · exact .inr ⟨rfl, hpath⟩

theorem markerPath_mem_of_ne {l : Listing dir} (hd : d ∈ l.declared) (hne : d ≠ []) :
    markerPath d ∈ l.paths := (markerPath_mem hd).resolve_right fun h => hne h.1

theorem RootSpelled.markerPath_mem {l : Listing dir} (h : RootSpelled l) (hd : d ∈ l.declared) :
    markerPath d ∈ l.paths := by
  rcases Removal.markerPath_mem hd with hmem | ⟨rfl, hroot⟩
  · exact hmem
  · exact h hroot

theorem mem_declared_root {l : Listing dir} (h : separator :: directoryMarkerName ∈ l.paths) :
    [] ∈ l.declared := mem_declared.mpr ⟨_, h, by decide, by decide⟩

/-- An object of the listing lies below the directory. -/
def Holds {dir : Path} (l : Listing dir) (d : Path) : Prop :=
  ∃ e ∈ l.entries, isMarker e.path = false ∧ Below d e.path

theorem holdsObject_listing {l : Listing dir} (hne : d ≠ []) :
    (Directories.fromPaths l.paths).holdsObject d = true ↔ Holds l d := by
  rw [holdsObject_iff hne, Holds, Listing.paths]
  simp

theorem holdsObject_of_below {l : Listing dir} (he : e ∈ l.entries)
    (hobject : isMarker e.path = false) (hbelow : Below d e.path) :
    (Directories.fromPaths l.paths).holdsObject d = true := by
  have hpath : e.path ∈ l.paths := mem_map_of_mem he
  by_cases hnil : d = []
  · rw [hnil]
    exact (holdsObject_root rfl).mpr ⟨e.path, hpath, hobject⟩
  · exact (holdsObject_iff hnil).mpr ⟨e.path, hpath, hobject, hbelow⟩

/-- The condition under which a verb selects what it should. -/
def Operation.Whole (op : Operation) (selects : Entry → Bool) (target : Target)
    (listing : Listing target.path) :
    Prop :=
  match op with
  | .delete true => ∀ d ∈ listing.declared, ∀ d' ∈ listing.declared, isUnder target.path d = true →
      d ≠ target.path → Holds listing d →
      (∀ e ∈ listing.entries, isMarker e.path = false → Below d e.path → selects e = true) →
      Below d d' → Holds listing d'
  | .purge => target.path = [] → RootSpelled listing
  | .rmdir => target.path = [] → (∀ e ∈ listing.entries, isMarker e.path = true) →
      (∀ d ∈ listing.declared, d = []) → RootSpelled listing
  | .rmdirs leaveRoot => target.path = [] → leaveRoot = false →
      (∀ e ∈ listing.entries, isMarker e.path = true) → RootSpelled listing
  | .delete false | .deleteFile | .cleanup => True

theorem purge_arranged (target : Target) (listing : Listing target.path) : Arranged listing
    ((listing.entries.filter fun e => !isMarker e.path).map objectItem ++
      ((Directories.fromPaths listing.paths).declaredAtOrBelow target.path).map markerItem)
    (fun e => !isMarker e.path) ((Directories.fromPaths listing.paths).declaredAtOrBelow
      target.path) where
  eq := rfl
  objects _ h := by simpa using h
  nodup := (perm_insertionSort _ _).nodup_iff.mpr (nodup_ordered.filter _)
  sorted := sortDeepestFirst_deeper _
  declared d hd := by
    rw [Directories.declaredAtOrBelow, mem_sortDeepestFirst, mem_filter] at hd
    exact hd

theorem mem_declaredAtOrBelow :
    d ∈ (Directories.fromPaths listing.paths).declaredAtOrBelow target.path ↔
    d ∈ listing.declared ∧ isUnder target.path d = true := by
  rw [Directories.declaredAtOrBelow, mem_sortDeepestFirst, mem_filter]
  rfl

theorem purge_sound_iff (target : Target) (listing : Listing target.path) :
    (∀ items, purge target listing.entries (Directories.fromPaths listing.paths) = .ok items →
      Sound target listing items) ↔ (target.path = [] → RootSpelled listing) := by
  have harranged := purge_arranged target listing
  unfold purge
  split
  next hempty =>
    -- A refusal: the target is not the root.
    rw [Bool.and_eq_true, Bool.not_eq_true'] at hempty
    refine ⟨fun _ hroot => ?_, fun _ items h => nomatch h⟩
    exact absurd hroot (of_decide_eq_false hempty.2)
  next =>
    constructor
    · intro h hroot hmem
      have hlisted := (harranged.sound_iff_dirs.mp (h _ rfl)).1 [] (mem_declaredAtOrBelow.mpr
        ⟨mem_declared_root hmem, by rw [hroot]; rfl⟩)
      exact hlisted
    · rintro h items hitems
      cases hitems
      refine harranged.sound_iff_dirs.mpr ⟨fun d hd => ?_, fun d hd d' hd' hbelow => ?_,
        fun d hd e he hobject _ => ?_⟩
      · obtain ⟨hdeclared, hunder⟩ := mem_declaredAtOrBelow.mp hd
        by_cases hnil : d = []
        · subst hnil
          exact (h (target_root hunder)).markerPath_mem hdeclared
        · exact markerPath_mem_of_ne hdeclared hnil
      · exact mem_declaredAtOrBelow.mpr ⟨hd',
          isUnder_of_below (mem_declaredAtOrBelow.mp hd).2 hbelow⟩
      · rw [hobject]
        rfl

theorem arranged_filter {markers : List Path} (hnodup : markers.Nodup)
    (hdeclared : ∀ d, d ∈ markers ↔ d ∈ listing.declared)
    (hchosen : ∀ e, chosen e = true → isMarker e.path = false) (p : Path → Bool) : Arranged listing
      ((listing.entries.filter chosen).map objectItem ++
        ((sortDeepestFirst (markers.filter (isUnder target.path))).filter p).map markerItem)
      chosen ((sortDeepestFirst (markers.filter (isUnder target.path))).filter p) where
  eq := rfl
  objects := hchosen
  nodup := ((perm_insertionSort _ _).nodup_iff.mpr (hnodup.filter _)).filter _
  sorted := (sortDeepestFirst_deeper _).filter _
  declared d hd := by
    obtain ⟨hmem, hunder⟩ := mem_filter.mp (mem_sortDeepestFirst.mp (mem_of_mem_filter hd))
    exact ⟨(hdeclared d).mp hmem, hunder⟩

theorem rmdirs_sound_iff (target : Target) (listing : Listing target.path) (leaveRoot : Bool) :
    Sound target listing (rmdirs target (Directories.fromPaths listing.paths) leaveRoot) ↔
      (target.path = [] → leaveRoot = false → (∀ e ∈ listing.entries, isMarker e.path = true) →
        RootSpelled listing) := by
  have harranged := @arranged_filter target listing (fun _ => false) listing.declared nodup_ordered
    (fun _ => Iff.rfl) nofun fun d =>
      (Directories.fromPaths listing.paths).isEmpty d && !(leaveRoot && d = target.path)
  rw [filter_false, map_nil, nil_append] at harranged
  have hmem :
      ∀ d, d ∈ ((sortDeepestFirst (listing.declared.filter (isUnder target.path))).filter fun d =>
      (Directories.fromPaths listing.paths).isEmpty d && !(leaveRoot && d = target.path)) ↔
      (d ∈ listing.declared ∧ isUnder target.path d = true) ∧
        (Directories.fromPaths listing.paths).holdsObject d = false ∧
          (leaveRoot = true → d ≠ target.path) := by
    intro d
    rw [mem_filter, mem_sortDeepestFirst, mem_filter]
    cases leaveRoot <;> simp [Directories.isEmpty]
  have hitems : rmdirs target (Directories.fromPaths listing.paths) leaveRoot =
      ((sortDeepestFirst (listing.declared.filter (isUnder target.path))).filter fun d =>
        (Directories.fromPaths listing.paths).isEmpty d && !(leaveRoot && d = target.path)).map
          markerItem := by
    rw [rmdirs, filter_filter]
    rfl
  rw [hitems, harranged.sound_iff_dirs]
  constructor
  · rintro ⟨hlisted, -, -⟩ hroot rfl hnone hspelled
    refine hlisted [] ((hmem []).mpr ⟨⟨mem_declared_root hspelled, by rw [hroot]; rfl⟩, ?_, nofun⟩)
    rw [← Bool.not_eq_true, holdsObject_root rfl]
    rintro ⟨path, hpath, hobject⟩
    obtain ⟨e, he, rfl⟩ := mem_map.mp hpath
    rw [hnone e he] at hobject
    cases hobject
  · intro h
    refine ⟨fun d hd => ?_, fun d hd d' hd' hbelow => ?_, fun d hd e he hobject hbelow => ?_⟩
    · obtain ⟨⟨hdeclared, hunder⟩, hempty, hleft⟩ := (hmem d).mp hd
      by_cases hnil : d = []
      · subst hnil
        have hroot := target_root hunder
        refine (h hroot ?_ fun e he => ?_).markerPath_mem hdeclared
        · rw [← Bool.not_eq_true]
          exact fun hleave => hleft hleave hroot.symm
        · rw [← Bool.not_eq_false]
          intro hobject
          rw [← Bool.not_eq_true] at hempty
          exact hempty ((holdsObject_root rfl).mpr ⟨_, mem_map_of_mem he, hobject⟩)
      · exact markerPath_mem_of_ne hdeclared hnil
    · obtain ⟨⟨-, hunder⟩, hempty, -⟩ := (hmem d).mp hd
      refine (hmem d').mpr ⟨⟨hd', isUnder_of_below hunder hbelow⟩, ?_, ?_⟩
      · rw [← Bool.not_eq_true] at hempty ⊢
        intro hholds
        obtain ⟨e, he, hobject, hlow⟩ := (holdsObject_listing hbelow.ne_nil).mp hholds
        exact hempty (holdsObject_of_below he hobject (hbelow.trans hlow))
      · rintro - rfl
        exact not_below_target hunder hbelow
    · obtain ⟨-, hempty, -⟩ := (hmem d).mp hd
      rw [holdsObject_of_below he hobject hbelow] at hempty
      cases hempty

theorem isUnder_target (target : Target) : isUnder target.path target.path = true := by
  obtain ⟨names, hnames, hpath⟩ := target.clean
  by_cases hnil : names = []
  · rw [hpath, hnil]
    rfl
  · rw [hpath]
    exact (isUnder_spell hnames hnil).mpr (.inl rfl)

theorem rmdir_eq_ok : rmdir target (Directories.fromPaths listing.paths) = .ok items ↔
    (Directories.fromPaths listing.paths).existsAt target.path = true ∧
      (Directories.fromPaths listing.paths).holdsObject target.path = false ∧
      (∀ d ∈ listing.declared, isUnder target.path d = true → d = target.path) ∧
      items = if target.path ∈ listing.declared then [markerItem target.path] else [] := by
  have hsub : (Directories.fromPaths listing.paths).subdirectories target.path = [] ↔
      ∀ d ∈ listing.declared, isUnder target.path d = true → d = target.path := by
    rw [Directories.subdirectories, sortDeepestFirst, ← length_eq_zero_iff, length_insertionSort,
      length_eq_zero_iff, filter_eq_nil_iff]
    refine forall₂_congr fun d _ => ?_
    simp only [Bool.and_eq_true, decide_eq_true_eq, not_and]
    exact ⟨fun h hunder => by_contra fun hne => h hne hunder, fun h hne hunder => hne (h hunder)⟩
  have hdeclared : (Directories.fromPaths listing.paths).isDeclared target.path = true ↔
      target.path ∈ listing.declared := decide_eq_true_iff
  rw [← hsub, rmdir, Directories.holdsObject]
  split
  next hexists =>
    rw [hexists]
    cases hfirst : (Directories.fromPaths listing.paths).firstObjectUnder target.path with
    | some occupant => simp
    | none =>
      cases hdirs : (Directories.fromPaths listing.paths).subdirectories target.path with
      | cons child rest => simp
      | nil =>
        simp only [Except.ok.injEq, hdeclared]
        simp [eq_comm]
  next hmissing => simp [hmissing]

theorem rmdir_sound_iff (target : Target) (listing : Listing target.path) :
    (∀ items, rmdir target (Directories.fromPaths listing.paths) = .ok items →
      Sound target listing items) ↔
      (target.path = [] → (∀ e ∈ listing.entries, isMarker e.path = true) →
        (∀ d ∈ listing.declared, d = []) →
        RootSpelled listing) := by
  constructor
  · intro h hroot hnone hdeclared hspelled
    have hmem : target.path ∈ listing.declared :=
      mem_declared.mpr ⟨_, hspelled, by decide, hroot.symm⟩
    have hempty : (Directories.fromPaths listing.paths).holdsObject target.path = false := by
      rw [← Bool.not_eq_true, holdsObject_root hroot]
      rintro ⟨path, hpath, hobject⟩
      obtain ⟨e, he, rfl⟩ := mem_map.mp hpath
      rw [hnone e he] at hobject
      cases hobject
    have hexists : (Directories.fromPaths listing.paths).existsAt target.path = true := by
      have hmarkers : target.path ∈ (Directories.fromPaths listing.paths).markers := hmem
      rw [Directories.existsAt, decide_eq_true hmarkers]
      rfl
    have hsound : Sound target listing [markerItem target.path] :=
      h _ (rmdir_eq_ok.mpr ⟨hexists, hempty, fun d hd _ => (hdeclared d hd).trans hroot.symm,
        (if_pos hmem).symm⟩)
    have hlisted : markerPath target.path ∈ listing.paths := (hsound.listed _ mem_cons_self).1
    rwa [show markerPath target.path = directoryMarkerName from if_pos hroot] at hlisted
  · intro h items hitems
    obtain ⟨-, hempty, hsub, rfl⟩ := rmdir_eq_ok.mp hitems
    split
    next hdeclared =>
      have harranged : Arranged listing [markerItem target.path] (fun _ => false) [target.path] :=
        ⟨by simp, nofun, nodup_singleton _, pairwise_singleton _ _, fun d hd => by
          rw [mem_singleton.mp hd]
          exact ⟨hdeclared, isUnder_target target⟩⟩
      refine harranged.sound_iff_dirs.mpr ⟨fun d hd => ?_, fun d hd d' hd' hbelow => ?_,
        fun d hd e he hobject hbelow => ?_⟩
      · rw [mem_singleton.mp hd]
        by_cases hroot : target.path = []
        · refine (h hroot (fun e he => ?_) fun d hd => ?_).markerPath_mem hdeclared
          · rw [← Bool.not_eq_false]
            intro hobject
            have hpath : e.path ∈ listing.paths := mem_map_of_mem he
            rw [(holdsObject_root hroot).mpr ⟨_, hpath, hobject⟩] at hempty
            cases hempty
          · refine (hsub d hd ?_).trans hroot
            rw [hroot]
            rfl
        · exact markerPath_mem_of_ne hdeclared hroot
      · obtain rfl := mem_singleton.mp hd
        exact absurd (hsub d' hd' (isUnder_of_below (isUnder_target target) hbelow)) hbelow.ne
      · obtain rfl := mem_singleton.mp hd
        rw [holdsObject_of_below he hobject hbelow] at hempty
        cases hempty
    next =>
      have harranged : Arranged listing [] (fun _ => false) [] :=
        ⟨by simp, nofun, nodup_nil, List.Pairwise.nil, nofun⟩
      exact harranged.sound_iff_dirs.mpr ⟨nofun, nofun, nofun⟩

theorem mem_markers_surviving (selects : Entry → Bool) :
    d ∈ (Directories.fromPaths (surviving selects listing.entries)).markers ↔
      d ∈ listing.declared := by
  rw [mem_declared, mem_markers, Listing.paths, surviving]
  simp only [mem_map, mem_filter, Bool.or_eq_true, exists_exists_and_eq_and]
  constructor
  · rintro ⟨e, ⟨he, -⟩, hmarker, hd⟩
    exact ⟨e, he, hmarker, hd⟩
  · rintro ⟨e, he, hmarker, hd⟩
    exact ⟨e, ⟨he, .inl hmarker⟩, hmarker, hd⟩

theorem isEmpty_surviving (selects : Entry → Bool) (hne : d ≠ []) :
    (Directories.fromPaths (surviving selects listing.entries)).isEmpty d = true ↔
      ∀ e ∈ listing.entries, isMarker e.path = false → Below d e.path → selects e = true := by
  rw [Directories.isEmpty, Bool.not_eq_true', ← Bool.not_eq_true, holdsObject_iff hne, surviving]
  simp only [mem_map, mem_filter, exists_exists_and_eq_and, not_exists, not_and]
  refine ⟨fun h e he hobject hbelow => ?_, fun h e hsurvives hobject hbelow => ?_⟩
  · by_contra hnot
    exact h e ⟨he, by simp [hnot]⟩ hobject hbelow
  · have hselected := h e hsurvives.1 hobject hbelow
    simp [hobject, hselected] at hsurvives

def swept (selects : Entry → Bool) (target : Target) (listing : Listing target.path) : List Path :=
  ((Directories.fromPaths (surviving selects listing.entries)).declaredAtOrBelow target.path).filter
    fun directory =>
    directory ≠ target.path &&
      ((Directories.fromPaths (surviving selects listing.entries)).isEmpty directory &&
      (Directories.fromPaths listing.paths).holdsObject directory)

theorem mem_swept (selects : Entry → Bool) : d ∈ swept selects target listing ↔
    d ∈ listing.declared ∧ isUnder target.path d = true ∧ d ≠ target.path ∧ Holds listing d ∧
      ∀ e ∈ listing.entries, isMarker e.path = false → Below d e.path → selects e = true := by
  have hne : isUnder target.path d = true → d ≠ target.path → d ≠ [] := by
    rintro hunder hroot rfl
    exact hroot (target_root hunder).symm
  rw [swept, mem_filter, Directories.declaredAtOrBelow, mem_sortDeepestFirst, mem_filter,
    mem_markers_surviving, Bool.and_eq_true, Bool.and_eq_true, decide_eq_true_eq]
  constructor
  · rintro ⟨⟨hdeclared, hunder⟩, hroot, hempty, hholds⟩
    exact ⟨hdeclared, hunder, hroot, (holdsObject_listing (hne hunder hroot)).mp hholds,
      (isEmpty_surviving selects (hne hunder hroot)).mp hempty⟩
  · rintro ⟨hdeclared, hunder, hroot, hholds, hempty⟩
    exact ⟨⟨hdeclared, hunder⟩, hroot, (isEmpty_surviving selects (hne hunder hroot)).mpr hempty,
      (holdsObject_listing (hne hunder hroot)).mpr hholds⟩

theorem delete_sound (selects : Entry → Bool) (target : Target) (listing : Listing target.path) :
    Sound target listing (delete selects target listing.entries
      (Directories.fromPaths listing.paths) false) := by
  have harranged : Arranged listing
      (delete selects target listing.entries (Directories.fromPaths listing.paths) false)
      (fun e => !isMarker e.path && selects e) [] :=
    ⟨by simp [delete], fun e h => by simpa using (Bool.and_eq_true_iff.mp h).1, nodup_nil,
      List.Pairwise.nil,
      nofun⟩
  exact harranged.sound_iff_dirs.mpr ⟨nofun, nofun, nofun⟩

theorem delete_rmdirs_sound_iff (selects : Entry → Bool) (target : Target)
    (listing : Listing target.path) :
    Sound target listing (delete selects target listing.entries
      (Directories.fromPaths listing.paths) true) ↔
      (Operation.delete true).Whole selects target listing := by
  have harranged : Arranged listing
      (delete selects target listing.entries (Directories.fromPaths listing.paths) true)
      (fun e => !isMarker e.path && selects e) (swept selects target listing) :=
    arranged_filter nodup_ordered (fun d => mem_markers_surviving selects)
      (fun e h => by simpa using (Bool.and_eq_true_iff.mp h).1) _
  rw [harranged.sound_iff_dirs]
  constructor
  · rintro ⟨-, hclosed, -⟩ d hd d' hd' hunder hroot hholds hselected hbelow
    have hswept :=
      hclosed d ((mem_swept selects).mpr ⟨hd, hunder, hroot, hholds, hselected⟩) d' hd' hbelow
    exact ((mem_swept selects).mp hswept).2.2.2.1
  · intro h
    refine ⟨fun d hd => ?_, fun d hd d' hd' hbelow => ?_, fun d hd e he hobject hbelow => ?_⟩
    · obtain ⟨hdeclared, hunder, hroot, -⟩ := (mem_swept selects).mp hd
      refine markerPath_mem_of_ne hdeclared ?_
      rintro rfl
      exact hroot (target_root hunder).symm
    · obtain ⟨hdeclared, hunder, hroot, hholds, hselected⟩ := (mem_swept selects).mp hd
      refine (mem_swept selects).mpr ⟨hd', isUnder_of_below hunder hbelow, ?_,
        h d hdeclared d' hd' hunder hroot hholds hselected hbelow,
        fun e he hobject hlow => hselected e he hobject (hbelow.trans hlow)⟩
      rintro rfl
      exact not_below_target hunder hbelow
    · obtain ⟨-, -, -, -, hselected⟩ := (mem_swept selects).mp hd
      rw [hobject, hselected e he hobject hbelow]
      rfl

/-- The verbs that select a region, and not one named object. -/
def Operation.sweeps : Operation → Bool
  | .deleteFile | .cleanup => false
  | _ => true

def wholeRemote : Target := ⟨"vault", [], [], nofun, rfl⟩

/-- An object in a declared directory, that lies in another. -/
def stored : Listing wholeRemote.path :=
  ⟨[⟨"a/.dctl-dir".toList, some 0, none⟩, ⟨"a/b/.dctl-dir".toList, some 0, none⟩,
    ⟨"a/b/x".toList, some 3, none⟩],
    by decide +kernel, by decide +kernel⟩

/-- The object lies beside a declared directory that holds none. -/
def beside : Listing wholeRemote.path :=
  ⟨[⟨"a/.dctl-dir".toList, some 0, none⟩, ⟨"a/b/.dctl-dir".toList, some 0, none⟩,
    ⟨"a/x".toList, some 3, none⟩],
    by decide +kernel, by decide +kernel⟩

end Dctl.Removal
