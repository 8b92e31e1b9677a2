import Dctl.Index.Answers
import Dctl.Mount.TreeLookup

/-! The mount shows a store as it is, every object under its path and every name once, exactly when
no stored path leads into another. -/

namespace Dctl.Mount

open ProofKit Index Crypto Cli.Paths Dctl.Listing List

variable {U : Unicode} {source : Source} {stored files : List Entry} {dirs names : List Path}
  {path name dir : Path}
  {e : Entry} {c : Child} {place : Path × Kind} {listing : List Child}

/-- What a source keeps: distinct valid paths in a vault, and paths in order in a plain store. -/
def Source.Holds (U : Unicode) : Source → Prop
  | .vault stored => (stored.map Entry.path).Nodup ∧
      ∀ e ∈ stored, Path.validate U (String.ofList e.path) = .ok ()
  | .plain stored => Ascending stored

instance : Decidable (source.Holds U) :=
  match source with
  | .vault stored => inferInstanceAs (Decidable ((stored.map Entry.path).Nodup ∧
      ∀ e ∈ stored, Path.validate U (String.ofList e.path) = .ok ()))
  | .plain stored => inferInstanceAs (Decidable (stored.Pairwise fun e e' => e.path < e'.path))

/-- No directory lists a name twice, and the names of each stored path lead to its object. -/
structure Source.Faithful (source : Source) : Prop where
  distinct : ∀ names dir, source.walk rootPlace names = some (dir, .directory) →
    (readdirNames (source.list dir)).Nodup
  reached : ∀ e ∈ source.stored,
    source.walk rootPlace (segments separator e.path) = some (e.path, .file)

theorem Source.Holds.nodup (h : source.Holds U) : (source.stored.map Entry.path).Nodup := by
  cases source with
  | vault stored => exact h.1
  | plain stored =>
    rw [Source.stored, List.Nodup, pairwise_map]
    exact List.Pairwise.imp (fun hlt => ne_of_lt hlt) h

theorem Source.listed (h : source.Holds U) (hs : Spread source.stored)
    (hnames : Reached source.stored names) :
    ∃ files dirs, Listed source.stored names files dirs ∧
      Lists (source.list (spell names)) files dirs := by
  cases source with
  | vault stored => exact ⟨_, _, vaultListed h.2 hnames.pieces, inOrder_perm _⟩
  | plain stored => exact ⟨_, _, plainListed h hs hnames, group_perm stored (spell names)⟩

theorem Spread.fileName_eq (hs : Spread stored) (he : e ∈ stored)
    (h : segments separator e.path = names ++ [name]) : fileName e.path = name := by
  rw [(hs.named e he).segments_eq] at h
  exact singleton_inj.mp (append_inj' h rfl).2

theorem Listed.mem_iff (h : Listed stored names files dirs) (hs : Spread stored)
    (hl : Lists listing files dirs) : c ∈ listing ↔
      (∃ e ∈ stored, c = fileChild e ∧ segments separator e.path = names ++ [c.name]) ∨
        (c = dirChild (spell (names ++ [c.name])) ∧ ∃ e ∈ stored,
          Beneath (names ++ [c.name]) e.path) := by
  rw [hl.mem_iff, mem_append, mem_map, mem_map]
  refine or_congr ?_ ?_
  · constructor
    · rintro ⟨e, he, rfl⟩
      obtain ⟨hmem, name, hsegs⟩ := (h.files e).mp he
      refine ⟨e, hmem, rfl, ?_⟩
      rw [hsegs, show (fileChild e).name = fileName e.path from rfl, hs.fileName_eq hmem hsegs]
    · rintro ⟨e, he, rfl, hsegs⟩
      exact ⟨e, (h.files e).mpr ⟨he, _, hsegs⟩, rfl⟩
  · constructor
    · rintro ⟨d, hd, rfl⟩
      obtain ⟨name, rfl, e, he, hbelow⟩ := (h.dirs d).mp hd
      have hname : (dirChild (spell (names ++ [name]))).name = name := fileName_spell hbelow.pieces
      rw [hname]
      exact ⟨rfl, e, he, hbelow⟩
    · rintro ⟨hc, e, he, hbelow⟩
      exact ⟨_, (h.dirs _).mpr ⟨_, rfl, e, he, hbelow⟩, hc.symm⟩

section

variable (h : Listed stored names files dirs) (hs : Spread stored)
  (hnodup : (stored.map Entry.path).Nodup) (hl : Lists listing files dirs)
include h hs hnodup hl

theorem Listed.nodup_names : (listing.map Child.name).Nodup := by
  rw [(hl.map Child.name).nodup_iff, map_append, map_map, map_map]
  refine List.Nodup.append ?_ ?_ ?_
  · rw [show Child.name ∘ fileChild = fileName ∘ Entry.path from rfl, ← map_map]
    refine List.Nodup.map_on ?_ (hnodup.sublist (h.sublist.map _))
    intro p hp q hq heq
    obtain ⟨e, he, rfl⟩ := mem_map.mp hp
    obtain ⟨e', he', rfl⟩ := mem_map.mp hq
    obtain ⟨hmem, name, hsegs⟩ := (h.files e).mp he
    obtain ⟨hmem', name', hsegs'⟩ := (h.files e').mp he'
    rw [hs.fileName_eq hmem hsegs, hs.fileName_eq hmem' hsegs'] at heq
    exact hs.apart e hmem e' hmem' (by rw [hsegs, hsegs', heq])
  · refine List.Nodup.map_on ?_ h.nodup
    intro p hp q hq heq
    obtain ⟨name, rfl, e, -, hbelow⟩ := (h.dirs p).mp hp
    obtain ⟨name', rfl, e', -, hbelow'⟩ := (h.dirs q).mp hq
    have hsame : fileName (spell (names ++ [name])) = fileName (spell (names ++ [name'])) := heq
    rw [fileName_spell hbelow.pieces, fileName_spell hbelow'.pieces] at hsame
    rw [hsame]
  · intro name hfile hdir
    obtain ⟨e, he, rfl⟩ := mem_map.mp hfile
    obtain ⟨d, hd, hname⟩ := mem_map.mp hdir
    obtain ⟨hmem, name, hsegs⟩ := (h.files e).mp he
    obtain ⟨name', rfl, e', he', hbelow⟩ := (h.dirs d).mp hd
    have hsame : fileName (spell (names ++ [name'])) = fileName e.path := hname
    rw [fileName_spell hbelow.pieces, hs.fileName_eq hmem hsegs] at hsame
    subst hsame
    have hpath := hs.apart e hmem e' he' (hsegs ▸ hbelow.1)
    exact hbelow.2 (by rw [← hpath, hsegs])

theorem Listed.nodup_readdir : (readdirNames listing).Nodup := by
  have hdots : ∀ dots, dots ∈ listing.map Child.name → dots ≠ ['.'] ∧ dots ≠ ['.', '.'] := by
    intro dots hmem
    obtain ⟨c, hc, rfl⟩ := mem_map.mp hmem
    rcases (h.mem_iff hs hl).mp hc with ⟨e, he, -, hsegs⟩ | ⟨-, e, he, ⟨more, hmore⟩, -⟩
    · exact (hs.named e he).dots _ (by rw [hsegs]; simp)
    · exact (hs.named e he).dots _ (by rw [← hmore]; simp)
  rw [readdirNames, nodup_cons, nodup_cons, mem_cons, not_or]
  exact ⟨⟨by decide, fun hmem => (hdots _ hmem).1 rfl⟩, fun hmem => (hdots _ hmem).2 rfl,
    h.nodup_names hs hnodup hl⟩

end

theorem child_eq_some (h : child listing name = some c) : c ∈ listing ∧ c.name = name :=
  ⟨mem_of_find?_eq_some h, by simpa using List.find?_some h⟩

theorem child_of_mem (h : (listing.map Child.name).Nodup) (hc : c ∈ listing) :
    child listing c.name = some c := by
  induction listing with
  | nil => cases hc
  | cons first rest ih =>
    rw [map_cons, nodup_cons] at h
    unfold child
    rw [List.find?_cons]
    rcases mem_cons.mp hc with rfl | hc
    · rw [decide_eq_true rfl]
    · have hne : first.name ≠ c.name := fun heq => h.1 (heq ▸ mem_map_of_mem hc)
      rw [decide_eq_false hne]
      exact ih h.2 hc

theorem Source.walk_append {more : List Path} : source.walk place (names ++ more) =
    (source.walk place names).bind fun place => source.walk place more := by
  induction names generalizing place with
  | nil => rfl
  | cons name names ih =>
    rw [cons_append, walk, walk]
    cases source.lookup place name with
    | none => rfl
    | some place => exact ih

theorem Source.walk_concat : source.walk place (names ++ [name]) =
    (source.walk place names).bind fun place => source.lookup place name := by
  rw [walk_append]
  refine congrArg _ (funext fun place => ?_)
  rw [walk]
  cases source.lookup place name <;> rfl

section

variable (h : source.Holds U) (hs : Spread source.stored)
include h hs

theorem Source.walk_reached (hnames : Reached source.stored names) :
    source.walk rootPlace names = some (spell names, .directory) := by
  induction names using List.reverseRecOn with
  | nil => rfl
  | append_singleton names name ih =>
    obtain ⟨e, he, hbelow⟩ := hnames.resolve_left (by simp)
    have hshorter : Reached source.stored names := by
      obtain ⟨more, hmore⟩ := hbelow.1
      refine .inr ⟨e, he, ?_⟩
      rw [Beneath, ← hmore]
      simp
    obtain ⟨files, dirs, hlisted, hl⟩ := Source.listed h hs hshorter
    have hname : (dirChild (spell (names ++ [name]))).name = name := fileName_spell hbelow.pieces
    have hmem : dirChild (spell (names ++ [name])) ∈ source.list (spell names) := by
      refine (hlisted.mem_iff hs hl).mpr (.inr ?_)
      rw [hname]
      exact ⟨rfl, e, he, hbelow⟩
    have hfound := child_of_mem (hlisted.nodup_names hs h.nodup hl) hmem
    rw [hname] at hfound
    rw [walk_concat, ih hshorter, Option.bind_some, lookup, hfound]
    rfl

theorem Source.walk_stored (he : e ∈ source.stored) :
    source.walk rootPlace (segments separator e.path) = some (e.path, .file) := by
  have hsegs := (hs.named e he).segments_eq
  have hparent : Reached source.stored (segments separator (parentChars e.path)) := by
    refine .inr ⟨e, he, ?_⟩
    rw [Beneath, hsegs]
    simp
  obtain ⟨files, dirs, hlisted, hl⟩ := Source.listed h hs hparent
  have hmem : fileChild e ∈ source.list (spell (segments separator (parentChars e.path))) :=
    (hlisted.mem_iff hs hl).mpr (.inl ⟨e, he, rfl, hsegs⟩)
  have hfound := child_of_mem (hlisted.nodup_names hs h.nodup hl) hmem
  rw [hsegs, walk_concat, walk_reached h hs hparent, Option.bind_some, lookup,
    show fileName e.path = (fileChild e).name from rfl, hfound]
  rfl

theorem Source.reached_of_walk (hwalk : source.walk rootPlace names = some (dir, .directory)) :
    Reached source.stored names ∧ dir = spell names := by
  induction names using List.reverseRecOn generalizing dir with
  | nil =>
    cases hwalk
    exact ⟨.inl rfl, rfl⟩
  | append_singleton names name ih =>
    rw [walk_concat, Option.bind_eq_some_iff] at hwalk
    obtain ⟨⟨parent, kind⟩, hparent, hlookup⟩ := hwalk
    cases kind with
    | file => cases hlookup
    | directory =>
      obtain ⟨hreached, rfl⟩ := ih hparent
      obtain ⟨c, hc, hplace⟩ := Option.map_eq_some_iff.mp hlookup
      obtain ⟨hmem, rfl⟩ := child_eq_some hc
      obtain ⟨files, dirs, hlisted, hl⟩ := Source.listed h hs hreached
      rcases (hlisted.mem_iff hs hl).mp hmem with ⟨e, -, heq, -⟩ | ⟨heq, hbelow⟩
      · rw [heq] at hplace
        cases hplace
      · refine ⟨.inr hbelow, ?_⟩
        rw [heq] at hplace
        exact (congrArg Prod.fst hplace).symm

theorem Source.faithful_of_spread : source.Faithful where
  distinct names dir hwalk := by
    obtain ⟨hreached, rfl⟩ := reached_of_walk h hs hwalk
    obtain ⟨files, dirs, hlisted, hl⟩ := Source.listed h hs hreached
    exact hlisted.nodup_readdir hs h.nodup hl
  reached _ he := walk_stored h hs he

end

theorem Source.Faithful.apart (h : source.Faithful) {e e' : Entry} (he : e ∈ source.stored)
    (he' : e' ∈ source.stored) (hbegin : segments separator e.path <+: segments separator e'.path) :
    e.path = e'.path := by
  obtain ⟨more, hmore⟩ := hbegin
  have hwalk := h.reached e' he'
  rw [← hmore, walk_append, h.reached e he, Option.bind_some] at hwalk
  cases more with
  | nil =>
    rw [walk, Option.some.injEq, Prod.mk.injEq] at hwalk
    exact hwalk.1
  | cons name more => cases hwalk

theorem Source.Faithful.dots (h : source.Faithful) (he : e ∈ source.stored)
    (hname : name ∈ segments separator e.path) : name ≠ ['.'] ∧ name ≠ ['.', '.'] := by
  obtain ⟨front, rest, hsplit⟩ := append_of_mem hname
  have hwalk := h.reached e he
  rw [hsplit, walk_append, Option.bind_eq_some_iff] at hwalk
  obtain ⟨⟨dir, kind⟩, hdir, hrest⟩ := hwalk
  rw [walk, Option.bind_eq_some_iff] at hrest
  obtain ⟨place, hlookup, -⟩ := hrest
  cases kind with
  | file => cases hlookup
  | directory =>
    obtain ⟨c, hc, -⟩ := Option.map_eq_some_iff.mp hlookup
    obtain ⟨hmem, rfl⟩ := child_eq_some hc
    have hnodup := h.distinct front dir hdir
    rw [readdirNames, nodup_cons, nodup_cons, mem_cons, not_or] at hnodup
    have hlisted := mem_map_of_mem (f := Child.name) hmem
    exact ⟨fun heq => hnodup.1.2 (heq ▸ hlisted), fun heq => hnodup.2.1 (heq ▸ hlisted)⟩

theorem dir_of_walk_plain (hnames : Pieces separator names)
    (hwalk : (Source.plain stored).walk rootPlace names = some (dir, .directory)) :
    dir = spell names := by
  induction names using List.reverseRecOn generalizing dir with
  | nil =>
    cases hwalk
    rfl
  | append_singleton names name ih =>
    have hfront : Pieces separator names := hnames.of_subset (subset_append_left _ _)
    rw [Source.walk_concat, Option.bind_eq_some_iff] at hwalk
    obtain ⟨⟨parent, kind⟩, hparent, hlookup⟩ := hwalk
    cases kind with
    | file => cases hlookup
    | directory =>
      obtain rfl := ih hfront hparent
      obtain ⟨c, hc, hplace⟩ := Option.map_eq_some_iff.mp hlookup
      obtain ⟨hmem, rfl⟩ := child_eq_some hc
      rcases mem_append.mp ((group_perm stored (spell names)).mem_iff.mp hmem) with hfile | hdir
      · obtain ⟨e, -, rfl⟩ := mem_map.mp hfile
        cases hplace
      · obtain ⟨d, hd, rfl⟩ := mem_map.mp hdir
        obtain ⟨last, hlast, rfl⟩ := mem_map.mp hd
        obtain ⟨e, -, hfirst⟩ := mem_map.mp ((mem_cons.mp (mem_runs.mp hlast)).resolve_left nofun)
        have hpiece := of_mem_segments (mem_of_mem_dropLast (mem_of_mem_head? hfirst))
        have hpieces : Pieces separator (names ++ [last]) :=
          hfront.append (pieces_singleton hpiece.1 hpiece.2)
        rw [join_spell hfront] at hplace ⊢
        have hname : (dirChild (spell (names ++ [last]))).name = last := fileName_spell hpieces
        rw [hname]
        exact (congrArg Prod.fst hplace).symm

theorem eq_of_segments (hname : fileName path = name) (hsegs : segments separator path = [name]) :
    path = name ∨ ∃ k, path = List.replicate k separator ++ separator :: name := by
  have hne : fileName path ≠ [] := by
    rw [hname]
    exact (of_mem_segments (hsegs ▸ mem_singleton_self name)).1
  rcases path_cases path with ⟨-, hfinal, -⟩ | hpath
  · exact .inl (hfinal.symm.trans hname)
  · have hdirs := segments_eq hne
    rw [hsegs, hname] at hdirs
    have hnil : segments separator (parentChars path) = [] := self_eq_append_left.mp hdirs
    refine .inr ⟨(parentChars path).length, ?_⟩
    rw [← eq_replicate_of_mem (segments_eq_nil.mp hnil), ← hname]
    exact hpath

theorem fileName_append_cons (dir rest : Path) :
    fileName (dir ++ separator :: rest) = fileName rest := by
  rcases path_cases rest with ⟨-, hfinal, hmem⟩ | hrest
  · rw [fileName_append hmem, hfinal]
  · calc fileName (dir ++ separator :: rest)
        = fileName ((dir ++ separator :: parentChars rest) ++ separator :: fileName rest) := by
          rw [append_assoc, cons_append, ← hrest]
      _ = fileName rest := fileName_append (not_mem_fileName rest)

theorem trimEnd_parentChars (hnames : Pieces separator names) (hname : fileName e.path = name)
    (hunder : isUnder (spell names) e.path = true)
    (hsegs : segments separator e.path = names ++ [name]) :
    trimEnd (parentChars e.path) = spell names := by
  have hsep : separator ∉ name := hname ▸ not_mem_fileName _
  have hself : names ≠ [] → e.path ≠ spell names := by
    rintro - heq
    rw [heq, segments_spell hnames] at hsegs
    exact absurd hsegs.symm (by simp)
  have hrel := segments_relative hnames hunder hself
  rw [hsegs, append_cancel_left_eq] at hrel
  -- What is in front of the name: the directory, and separators behind it.
  have hfront : ∃ k, parentChars e.path = spell names ++ List.replicate k separator := by
    rcases relative_cases hnames hunder with ⟨rfl, hpath⟩ | ⟨hne, heq⟩ | ⟨-, hpath⟩
    · rw [hpath] at hrel
      rcases eq_of_segments hname hrel.symm with heq | ⟨k, heq⟩
      · exact ⟨0, by rw [heq, parentChars_of_not_mem hsep]; rfl⟩
      · exact ⟨k, by rw [heq, parentChars_append hsep]; rfl⟩
    · exact absurd heq (hself hne)
    · have hlast : fileName (ListEntry.fromSource e (spell names)).relative = name := by
        rw [← hname, hpath, fileName_append_cons]
      rcases eq_of_segments hlast hrel.symm with heq | ⟨k, heq⟩
      · exact ⟨0, by rw [hpath, heq, parentChars_append hsep, replicate_zero, append_nil]⟩
      · refine ⟨k + 1, ?_⟩
        rw [hpath, heq, ← cons_append, ← append_assoc, parentChars_append hsep, replicate_succ]
  obtain ⟨k, hk⟩ := hfront
  rw [hk]
  exact rdropWhile_intercalate hnames k

theorem Source.Faithful.wellNamed (h : (Source.plain stored).Faithful) (he : e ∈ stored) :
    WellNamed e.path := by
  have hwalk := h.reached e he
  have hpieces := pieces_segments separator e.path
  obtain ⟨names, name, hsegs⟩ :=
    eq_nil_or_concat (segments separator e.path) |>.resolve_left fun hnil => by
    rw [hnil, walk, rootPlace, Option.some.injEq, Prod.mk.injEq] at hwalk
    exact Kind.noConfusion hwalk.2
  rw [concat_eq_append] at hsegs
  rw [hsegs] at hwalk hpieces
  have hnames : Pieces separator names := hpieces.of_subset (subset_append_left _ _)
  rw [walk_concat, Option.bind_eq_some_iff] at hwalk
  obtain ⟨⟨dir, kind⟩, hdir, hlookup⟩ := hwalk
  cases kind with
  | file => cases hlookup
  | directory =>
    obtain rfl := dir_of_walk_plain hnames hdir
    obtain ⟨c, hc, hplace⟩ := Option.map_eq_some_iff.mp hlookup
    obtain ⟨hmem, rfl⟩ := child_eq_some hc
    rcases mem_append.mp ((group_perm stored (spell names)).mem_iff.mp hmem) with hfile | hdir
    · obtain ⟨e', he', rfl⟩ := mem_map.mp hfile
      have hunder := (mem_filter.mp (mem_of_mem_filter he')).2
      have hpath : e'.path = e.path := congrArg Prod.fst hplace
      have hname : fileName e.path = (fileChild e').name := by rw [← hpath]; rfl
      refine ⟨?_, ?_, fun name hname => h.dots he hname⟩
      · rw [hname]
        exact (hpieces _ (by simp)).1
      · rw [hsegs, dropLast_concat]
        exact trimEnd_parentChars hnames hname (hpath ▸ hunder) hsegs
    · obtain ⟨d, -, rfl⟩ := mem_map.mp hdir
      cases hplace

theorem Source.Faithful.spread (h : source.Faithful) (hholds : source.Holds U) :
    Spread source.stored where
  named e he := by
    cases source with
    | vault stored => exact wellNamed_of_validate (hholds.2 e he)
    | plain stored => exact h.wellNamed he
  apart _ he _ he' hbegin := h.apart he he' hbegin

section Answers

variable {ix : Index} {known : Set String} {rows : Rows} {db : Database}

def fromRecord (r : Index.Record) : Entry :=
  ⟨r.path.toList, if r.unmeasured then none else some r.size.toNat, r.modifiedUnix.map Int64.toInt⟩

theorem assemble_answers {dir : String} (h : ix.Answers known rows db) (hdir : dir ∈ known)
    (hvalid : ∀ r ∈ rows.scan, Path.validate U r.path = .ok ())
    (hpath : ∀ path, path ∈ rows ↔ ∃ r ∈ rows.scan, r.path = path) :
    ∃ files dirs, ix.children db dir = .ok files ∧ ix.childDirs db dir = .ok dirs ∧
      (assemble ⟨files.map fromRecord, dirs.map String.toList⟩).Perm
        ((Source.vault (rows.scan.map fromRecord)).list dir.toList) := by
  have hrooted : ∀ r ∈ rows.scan, Rooted r.path := fun r hr => rooted_of_validate (hvalid r hr)
  have hparent : ∀ {s : String}, Rooted s →
      (parentChars s.toList = dir.toList ↔ directlyIn dir s = true) := by
    intro s hs
    rw [← parentOf_eq_iff hs, parentOf, ← String.toList_inj, String.toList_ofList]
  obtain ⟨files, hfiles, hfilesPerm⟩ := h.children dir hdir
  obtain ⟨dirs, hdirs, hnodup, hmem⟩ := h.childDirs dir hdir
  refine ⟨files, dirs, hfiles, hdirs,
    (inOrder_perm _).trans (List.Perm.trans ?_ (inOrder_perm _).symm)⟩
  refine List.Perm.append (List.Perm.map _ ?_) (List.Perm.map _ ?_)
  · refine (hfilesPerm.map fromRecord).trans (List.Perm.of_eq ?_)
    rw [vaultChildren, filter_map]
    refine congrArg (List.map fromRecord) (filter_congr fun r hr => ?_)
    exact (Bool.eq_iff_iff.mpr (decide_eq_true_iff.trans (hparent (hrooted r hr)))).symm
  · refine (perm_ext_iff_of_nodup (hnodup.map fun _ _ heq => String.toList_inj.mp heq)
      ((nodup_dedup _).filter _)).mpr fun d => ?_
    have hancestor : ∀ {s path : String}, s.toList ∈ ancestorsLoop [] path.toList ↔
        s ≠ "" ∧ under s path = true := by
      intro s path
      rw [← mem_ancestorsOf, ancestorsOf, mem_map]
      constructor
      · intro hs
        exact ⟨_, hs, String.ofList_toList⟩
      · rintro ⟨_, hs, heq⟩
        rwa [← heq, String.toList_ofList]
    simp only [mem_map, hmem, mem_filter, mem_dedup, mem_flatMap, decide_eq_true_eq]
    constructor
    · rintro ⟨s, ⟨hin, path, hstored, hunder⟩, rfl⟩
      obtain ⟨r, hr, rfl⟩ := (hpath path).mp hstored
      have hne : s ≠ "" := by
        rintro rfl
        rw [not_under_empty (hrooted r hr)] at hunder
        cases hunder
      exact ⟨⟨fromRecord r, ⟨r, hr, rfl⟩, hancestor.mpr ⟨hne, hunder⟩⟩,
        (hparent ((hrooted r hr).of_under hne hunder)).mpr hin⟩
    · rintro ⟨⟨e, ⟨r, hr, rfl⟩, hd⟩, hin⟩
      have hd' : (String.ofList d).toList ∈ ancestorsLoop [] r.path.toList := by
        rwa [String.toList_ofList]
      obtain ⟨hne, hunder⟩ := hancestor.mp hd'
      refine ⟨String.ofList d, ⟨?_, r.path, (hpath _).mpr ⟨r, hr, rfl⟩, hunder⟩,
        String.toList_ofList⟩
      refine (hparent ((hrooted r hr).of_under hne hunder)).mp ?_
      rwa [String.toList_ofList]

theorem Lists.perm {entries files' : List Entry} {dirs' : List Path} {listing' : List Child}
    (h : Listed stored names files dirs) (hl : Lists listing files dirs)
    (h' : Listed entries names files' dirs') (hl' : Lists listing' files' dirs')
    (hsame : entries.Perm stored) (hs : Spread stored) (hnodup : (stored.map Entry.path).Nodup) :
    listing.Perm listing' := by
  have hs' : Spread entries := ⟨fun e he => hs.named e (hsame.mem_iff.mp he),
    fun e he e' he' => hs.apart e (hsame.mem_iff.mp he) e' (hsame.mem_iff.mp he')⟩
  refine (perm_ext_iff_of_nodup (h.nodup_names hs hnodup hl).of_map
    (h'.nodup_names hs' ((hsame.map _).nodup_iff.mpr hnodup) hl').of_map).mpr fun c => ?_
  rw [h.mem_iff hs hl, h'.mem_iff hs' hl']
  simp only [hsame.mem_iff]

theorem inOrder_eq_of_perm {a b : List Child} (h : (inOrder a).Perm (inOrder b))
    (hn : ((inOrder a).map Child.name).Nodup) : inOrder a = inOrder b := by
  let r : Child → Child → Prop := fun left right => left.name ≤ right.name
  have : Std.Total r := ⟨fun left right => le_total left.name right.name⟩
  have : IsTrans Child r := ⟨fun _ _ _ => le_trans⟩
  exact h.eq_of_pairwise
    (fun c c' hc hc' hle hge => inj_on_of_nodup_map hn hc (h.mem_iff.mpr hc') (le_antisymm hle hge))
    (pairwise_insertionSort r a) (pairwise_insertionSort r b)

/-- The index's own answer for a directory is what grouping every path beneath it gives, in one
order. -/
theorem assemble_eq_group (hP : ix.toPrimitives.Lawful) (hC : ix.toCodec.Lawful)
    (hn : ix.Distinct known) (h : ix.Run U known rows db) {entries : List Entry}
    (hsame : entries.Perm (rows.scan.map fromRecord)) (hascending : Ascending entries)
    (hapart : ∀ e ∈ entries, ∀ e' ∈ entries,
      segments separator e.path <+: segments separator e'.path → e.path = e'.path)
    (hnames : Reached entries names) :
    ∃ files dirs, ix.children db (String.ofList (spell names)) = .ok files ∧
      ix.childDirs db (String.ofList (spell names)) = .ok dirs ∧
      assemble ⟨files.map fromRecord, dirs.map String.toList⟩ = group entries (spell names) := by
  obtain ⟨hrep, hfits, hrooted⟩ := h.represents hP hC hn
  have hrow : ∀ r, r ∈ rows.scan ↔ rows[r.path]? = some r := fun r => Rows.mem_scan hrep.path
  have hvalid : ∀ r ∈ rows.scan, Path.validate U r.path = .ok () := fun r hr =>
    h.valid _ (Table.mem_of_getElem? ((hrow r).mp hr))
  have hvalid' : ∀ e ∈ entries, Path.validate U (String.ofList e.path) = .ok () := by
    intro e he
    obtain ⟨r, hr, rfl⟩ := mem_map.mp (hsame.mem_iff.mp he)
    rw [fromRecord, String.ofList_toList]
    exact hvalid r hr
  have hs : Spread entries := ⟨fun e he => wellNamed_of_validate (hvalid' e he), hapart⟩
  have hplain : (Source.plain entries).Holds U := hascending
  have hnodup : (entries.map Entry.path).Nodup := hplain.nodup
  have hknown : String.ofList (spell names) ∈ known := by
    rcases eq_nil_or_concat names with rfl | ⟨parents, last, rfl⟩
    · exact hn.root
    · rw [concat_eq_append] at hnames ⊢
      obtain ⟨e, he, hbelow⟩ := hnames.resolve_left (by simp)
      have hparents : Pieces separator parents := hbelow.pieces.of_subset (subset_append_left _ _)
      have hdir := ((vaultListed hvalid' hparents).dirs _).mpr ⟨last, rfl, e, he, hbelow⟩
      simp only [vaultChildren, mem_filter, mem_dedup, mem_flatMap] at hdir
      obtain ⟨⟨e', he', hancestor⟩, -⟩ := hdir
      obtain ⟨r, hr, rfl⟩ := mem_map.mp (hsame.mem_iff.mp he')
      exact hn.ancestors r.path (hrep.records.mem _ _ ((hrow r).mp hr)) _
        (mem_map_of_mem hancestor)
  obtain ⟨files, dirs, hfiles, hdirs, hperm⟩ :=
    assemble_answers (hrep.answers hn hrooted hfits) hknown hvalid
    fun path => ⟨fun hpath => by
      obtain ⟨r, hr⟩ := mem_rows_iff.mp hpath
      obtain rfl := hrep.path path r hr
      exact ⟨r, (hrow r).mpr hr, rfl⟩, by
      rintro ⟨r, hr, rfl⟩
      exact Table.mem_of_getElem? ((hrow r).mp hr)⟩
  rw [String.toList_ofList] at hperm
  have hvault := vaultListed (fun e he => hvalid' e (hsame.mem_iff.mpr he)) hnames.pieces
  have hlists :=
    Lists.perm (plainListed hascending hs hnames) (group_perm entries (spell names)) hvault
    (hperm.trans (inOrder_perm _)) hsame.symm hs hnodup
  refine ⟨files, dirs, hfiles, hdirs, (inOrder_eq_of_perm hlists ?_).symm⟩
  exact (plainListed hascending hs hnames).nodup_names hs hnodup (group_perm entries (spell names))

def treeNames : Set String := {"", "a", "a/b", "a/b/c", "a/d", "e"}

theorem treeNames_distinct : clearIndex.Distinct treeNames where
  root := .inl rfl
  ancestors path hpath dir hdir := by
    have hall : ∀ path ∈ ["", "a", "a/b", "a/b/c", "a/d", "e"], ∀ d ∈ ancestorsOf path,
        d = "a" ∨ d = "a/b" := by decide
    rcases hall path (by simpa [treeNames] using hpath) dir hdir with rfl | rfl <;> simp [treeNames]
  injective := by
    have hall : ∀ a ∈ ["", "a", "a/b", "a/b/c", "a/d", "e"],
        ∀ b ∈ ["", "a", "a/b", "a/b/c", "a/d", "e"],
        clearIndex.indexKey a = clearIndex.indexKey b → a = b := by decide
    intro a ha b hb
    exact hall a (by simpa [treeNames] using ha) b (by simpa [treeNames] using hb)

def treeRows : Rows :=
  ((∅ : Rows).insert "e" { sampleRecord with path := "e" }).insert "a/b/c"
    { sampleRecord with path := "a/b/c" } |>.insert "a/d" { sampleRecord with path := "a/d" }

def treeEntries : List Entry :=
  [⟨['a', '/', 'b', '/', 'c'], some 3, none⟩, ⟨['a', '/', 'd'], some 3, none⟩,
    ⟨['e'], some 3, none⟩]

/-- A directory with a file and a directory in it, beside another file. -/
theorem assemble_eq_group_tree : ∃ db files dirs,
    clearIndex.Run ⟨id, fun _ => true, Eq.refl⟩ treeNames treeRows db ∧
      clearIndex.children db "a" = .ok files ∧ clearIndex.childDirs db "a" = .ok dirs ∧
      assemble ⟨files.map fromRecord, dirs.map String.toList⟩ = group treeEntries ['a'] ∧
      (group treeEntries ['a']).map Child.name = [['b'], ['d']] := by
  obtain ⟨db0, h0⟩ := @exists_run_opened clearIndex treeNames ⟨id, fun _ => true, Eq.refl⟩
    clearPrimitives_lawful Postcard.codec_lawful treeNames_distinct
  have hput : ∀ (r : Index.Record) {rows db},
      clearIndex.Run ⟨id, fun _ => true, Eq.refl⟩ treeNames rows db →
      r.path ∈ treeNames → Path.validate ⟨id, fun _ => true, Eq.refl⟩ r.path = .ok () →
      (clearIndex.encodeRecord r).length ≤ maxMessageLen → Rows.Fits (rows.insert r.path r) →
      ∃ db', clearIndex.Run ⟨id, fun _ => true, Eq.refl⟩ treeNames (rows.insert r.path r) db' :=
    fun r {rows db} h => h.exists_put clearPrimitives_lawful Postcard.codec_lawful
      treeNames_distinct
  obtain ⟨db1, h1⟩ := hput { sampleRecord with path := "e" } h0 (by simp [treeNames]) (by decide)
    (by decide) (by unfold Rows.Fits; decide +kernel)
  obtain ⟨db2, h2⟩ :=
    hput { sampleRecord with path := "a/b/c" } h1 (by simp [treeNames]) (by decide)
    (by decide) (by unfold Rows.Fits; decide +kernel)
  obtain ⟨db, hrun⟩ := hput { sampleRecord with path := "a/d" } h2 (by simp [treeNames]) (by decide)
    (by decide) (by unfold Rows.Fits; decide +kernel)
  have hsame : treeEntries.Perm (treeRows.scan.map fromRecord) := by decide +kernel
  obtain ⟨files, dirs, hfiles, hdirs, heq⟩ := assemble_eq_group clearPrimitives_lawful
    Postcard.codec_lawful treeNames_distinct hrun hsame (by unfold Ascending; decide) (by decide)
    (show Reached _ [['a']] from .inr ⟨_, mem_cons_self, by unfold Beneath; decide⟩)
  exact ⟨db, files, dirs, hrun, hfiles, hdirs, heq, by decide⟩

end Answers

/-- In every directory that the mount lists the names are distinct, and every stored object is found
under the names of its path, if and only if each path is well named and no path's names begin
another's. -/
theorem faithful_iff_spread (source : Source) (h : source.Holds U) :
    source.Faithful ↔ Spread source.stored :=
  ⟨fun hf => hf.spread h, Source.faithful_of_spread h⟩

def nested : List Entry := [⟨['a'], some 1, none⟩, ⟨['a', '/', 'b'], some 2, none⟩]

/-- A directory with an object in it, and an object whose name sorts between the two. -/
def parted : List Entry := [⟨['a', '.', 'c'], some 1, none⟩, ⟨['a', '/', 'b'], some 2, none⟩]

def clearUnicode : Unicode := ⟨id, fun _ => true, Eq.refl⟩

theorem faithful_iff_spread_parted :
    (Source.vault parted).Faithful ∧ (Source.plain parted).Faithful := by
  have hspread : Spread parted := by
    refine ⟨?_, ?_⟩
    · intro e he
      simp only [parted, mem_cons, not_mem_nil, or_false] at he
      rcases he with rfl | rfl
      · exact ⟨by decide, by decide, by decide⟩
      · exact ⟨by decide, by decide, by decide⟩
    · decide
  exact ⟨(faithful_iff_spread (.vault parted) (U := clearUnicode) (by decide)).mpr hspread,
    (faithful_iff_spread (.plain parted) (U := clearUnicode) (by decide)).mpr hspread⟩

/-- Two entries of the root have one name, and the object in the directory cannot be reached. -/
theorem nested_lost : ((Source.vault nested).Holds clearUnicode ∧ ¬(Source.vault nested).Faithful ∧
      ((Source.vault nested).list []).map Child.name = [['a'], ['a']] ∧
      (Source.vault nested).walk rootPlace [['a'], ['b']] = none) ∧
    (Source.plain nested).Holds clearUnicode ∧ ¬(Source.plain nested).Faithful ∧
      ((Source.plain nested).list []).map Child.name = [['a'], ['a']] ∧
      (Source.plain nested).walk rootPlace [['a'], ['b']] = none := by
  have hvault : (Source.vault nested).walk rootPlace [['a'], ['b']] = none := by decide
  have hplain : (Source.plain nested).walk rootPlace [['a'], ['b']] = none := by decide
  refine ⟨⟨by decide, fun h => ?_, by decide, hvault⟩, by decide, fun h => ?_,
    by decide, hplain⟩
  · have hreached := h.reached ⟨['a', '/', 'b'], some 2, none⟩ (by simp [Source.stored, nested])
    rw [show segments separator ['a', '/', 'b'] = [['a'], ['b']] by decide, hvault] at hreached
    cases hreached
  · have hreached := h.reached ⟨['a', '/', 'b'], some 2, none⟩ (by simp [Source.stored, nested])
    rw [show segments separator ['a', '/', 'b'] = [['a'], ['b']] by decide, hplain] at hreached
    cases hreached

end Dctl.Mount
