import Dctl.ProofKit.Pager
import Dctl.Store.LocalKey
import Dctl.Store.LocalWalk

/-! Listings of the local backend (`local/mod.rs`, `local/walk.rs`): what a whole walk finds, how
its keys are cut into pages, and what a listing that is driven to its end returns. -/

namespace Dctl.Store.LocalFs

open ProofKit Transfer List Prog

variable {policy : LinkPolicy} {want : Want} {confine : Option (List Name)} {m : Machine}
  {names dir place : List Name} {n : Name} {node : DiskNode Name Leaf}

section Walks

variable {p : Pending} {trace : List (Walk.Visit Pending (Finding String))}
  {end' : Except StoreError Unit}

abbrev Machine.visits (m : Machine) (policy : LinkPolicy) (want : Want)
    (confine : Option (List Name)) : Walk.Visits Unit Pending (Finding String) StoreError :=
  LocalFs.visits m.serve policy want confine

theorem gives_of_visits {x : Given}
    (h : m.visits policy want confine () p (.ok x) ()) :
    VisitGives m policy want confine (¬m.Exists p.path) p x :=
  run_visit (fun _ _ _ _ hserve => hserve.1) (fun _ _ _ hserve => hserve.2) h

theorem gives_of_walks (h : Walk.Walks (m.visits policy want confine) () [p] trace end' ())
    (hp : p.path = []) : ∀ v ∈ trace, Reached m policy confine v.at.path ∧
      VisitGives m policy want confine (¬m.Exists v.at.path) v.at (v.found, v.pushed) := by
  have hstack : ∀ q ∈ [p], Reached m policy confine q.path := by
    rw [forall_mem_singleton, hp]
    exact reached_root
  obtain ⟨-, hall⟩ :=
    Walk.Walks.all (I := fun (_ : Unit) (q : Pending) => Reached m policy confine q.path)
    (fun (_ : Unit) => (trivial : (fun (_ _ : Unit) => True) _ _)) (fun _ _ => trivial)
    (fun _ _ _ _ _ => trivial)
    (fun _ _ _ _ hq => hq) (fun _ _ _ _ _ hvisit hq =>
      ((gives_of_visits hvisit).reached hq).2) h hstack
  intro v hv
  obtain ⟨_, _, -, -, hreached, hvisit⟩ := hall v hv
  exact ⟨hreached, gives_of_visits hvisit⟩

theorem VisitGives.entry {x : Given}
    (h : VisitGives m policy want confine (¬m.Exists p.path) p x)
    (hdir : m.tree.disk (m.root ++ p.path) = some .dir)
    (hnode : m.tree.disk (m.root ++ p.path ++ [n]) = some node) :
    ∃ (entry : DirEntry) (y : Given), entry.name = n ∧
      (∀ type, entry.fileType = .ok type → type = entryType node) ∧
      EntryGives m policy want confine p entry y ∧ y.1 ⊆ x.1 ∧ y.2 ⊆ x.2 := by
  have hleads : m.At p.path (m.root ++ p.path) .dir :=
    ⟨Tree.leads_of_exists (by rw [hdir]; exact Option.some_ne_none _) (by rw [hdir]; exact nofun),
      hdir⟩
  cases h with
  | missing hgone => exact absurd ⟨_, _, hleads⟩ hgone
  | @read place entries xs hat hlists hgives =>
    obtain ⟨rfl, -⟩ := hat.unique hleads
    obtain ⟨entry, hentry, rfl⟩ := hlists.whole rfl n (by rw [hnode]; exact Option.some_ne_none _)
    obtain ⟨y, hy, hgive⟩ := forall₂_exists_right hgives hentry
    obtain ⟨found, hfound, htype⟩ := hlists.truthful entry hentry
    obtain rfl : found = node := Option.some.inj (hfound.symm.trans hnode)
    refine ⟨entry, y, rfl, htype, hgive, ?_, ?_⟩
    · exact fun z hz => mem_flatMap.mpr ⟨y, hy, hz⟩
    · exact fun z hz => mem_flatMap.mpr ⟨y, mem_reverse.mpr hy, hz⟩

section

variable (h : Walk.Walks (m.visits policy want confine) () [p] trace (.ok ()) ()) (hp : p.path = [])
include h hp

theorem visited_dir (hdir : m.tree.disk (m.root ++ dir) = some .dir) :
    ∃ v ∈ trace, v.at.path = dir := by
  induction dir using List.reverseRecOn with
  | nil =>
    obtain ⟨v, hv, rfl⟩ := h.visited mem_cons_self
    exact ⟨v, hv, hp⟩
  | append_singleton dir n ih =>
    rw [← append_assoc] at hdir
    have hparent := m.tree.parent _ _ (by rw [hdir]; exact Option.some_ne_none _)
    obtain ⟨v, hv, rfl⟩ := ih hparent
    obtain ⟨entry, y, rfl, htype, hgive, -, hpushed⟩ :=
      (gives_of_walks h hp v hv).2.entry hparent hdir
    have hpush : ∃ q ∈ y.2, q.path = v.at.path ++ [entry.name] := by
      cases hgive with
      | file hfile => cases htype _ hfile
      | dir => exact ⟨_, mem_cons_self, rfl⟩
      | special _ hspecial => cases htype _ hspecial
      | passed _ hlink => cases htype _ hlink
      | linkFile hlink => cases htype _ hlink
      | linkDir hlink => cases htype _ hlink
    obtain ⟨q, hq, hpath⟩ := hpush
    obtain ⟨v', hv', rfl⟩ := h.visited_pushed hv (hpushed hq)
    exact ⟨v', hv', hpath⟩

theorem found_file {size : Nat} {modified : Option Int}
    (hfile : m.tree.disk (m.root ++ (dir ++ [n])) = some (.file (.regular size modified)))
    (hkeeps : want.keeps (relativeKey (dir ++ [n])) = true) :
    relativeKey (dir ++ [n]) ∈ Finding.objects (Walk.findings trace) := by
  rw [← append_assoc] at hfile
  have hparent := m.tree.parent _ _ (by rw [hfile]; exact Option.some_ne_none _)
  obtain ⟨v, hv, rfl⟩ := visited_dir h hp hparent
  obtain ⟨entry, y, rfl, htype, hgive, hfound, -⟩ :=
    (gives_of_walks h hp v hv).2.entry hparent hfile
  rw [Finding.mem_objects, Walk.mem_findings]
  refine ⟨v, hv, hfound ?_⟩
  cases hgive with
  | file => simp [emit, hkeeps]
  | dir hdir => cases htype _ hdir
  | special _ hspecial => cases htype _ hspecial
  | passed _ hlink => cases htype _ hlink
  | linkFile hlink => cases htype _ hlink
  | linkDir hlink => cases htype _ hlink

end

theorem nodup_visited (h : Walk.Walks (m.visits policy want confine) () [p] trace end' ()) :
    (trace.map fun v => v.at.path).Nodup := by
  refine (Walk.Walks.nodup Pending.path ?_ h (by simp)).2
  intro _ q found new _ hvisit
  obtain ⟨ns, hns, hpushed⟩ := (gives_of_visits hvisit).pushed
  simp only at hpushed
  constructor
  · intro q' hq'
    have hmem : q'.path ∈ new.map (·.path) := mem_map_of_mem hq'
    rw [hpushed] at hmem
    obtain ⟨n, -, hpath⟩ := mem_map.mp hmem
    rw [← hpath]
    exact ⟨prefix_append _ _, by simp⟩
  · rw [hpushed]
    exact Walk.apart_children hns

theorem objects_of_visits {P : List Name → Prop} (hnodup : (trace.map fun v => v.at.path).Nodup)
    (hfound : ∀ v ∈ trace, ∃ ns : List Name, ns.Nodup ∧
      Finding.objects v.found = ns.map (fun n => relativeKey (v.at.path ++ [n])) ∧
      ∀ n ∈ ns, P (v.at.path ++ [n])) :
    ∃ paths : List (List Name), paths.Nodup ∧
      Finding.objects (Walk.findings trace) = paths.map relativeKey ∧
      ∀ path ∈ paths, P path ∧ ∃ v ∈ trace, path.dropLast = v.at.path := by
  induction trace with
  | nil => exact ⟨[], nodup_nil, rfl, nofun⟩
  | cons v trace ih =>
    obtain ⟨hfirst, hrest⟩ := nodup_cons.mp hnodup
    obtain ⟨ns, hns, hobjects, hns'⟩ := hfound v mem_cons_self
    obtain ⟨paths, hpaths, hkeys, hall⟩ := ih hrest fun w hw => hfound w (mem_cons_of_mem _ hw)
    refine ⟨ns.map (v.at.path ++ [·]) ++ paths, ?_, ?_, ?_⟩
    · refine List.Nodup.append (hns.map fun a b hab => by simpa using hab) hpaths ?_
      intro path hpath hlater
      obtain ⟨n, -, rfl⟩ := mem_map.mp hpath
      obtain ⟨-, w, hw, hat⟩ := hall _ hlater
      rw [dropLast_concat] at hat
      exact hfirst (mem_map.mpr ⟨w, hw, hat.symm⟩)
    · rw [Walk.findings, flatMap_cons, Finding.objects_append, hobjects, ← Walk.findings, hkeys,
        map_append, map_map]
      rfl
    · intro path hpath
      rcases mem_append.mp hpath with hpath | hpath
      · obtain ⟨n, hn, rfl⟩ := mem_map.mp hpath
        exact ⟨hns' n hn, v, mem_cons_self, dropLast_concat⟩
      · obtain ⟨hP, w, hw, hat⟩ := hall path hpath
        exact ⟨hP, w, mem_cons_of_mem _ hw, hat⟩

end Walks

theorem run_start {first : Option Pending}
    (h : Prog.Run m.serve (start policy).run () (.ok (confine, first)) ()) :
    (first = none → ¬m.Exists []) ∧ ∀ p, first = some p → p.path = [] := by
  obtain ⟨found, ⟨⟩, -, hrest⟩ := run_bind_ok.mp h
  obtain ⟨root, ⟨⟩, hroot, hend⟩ := run_bind_ok.mp hrest
  obtain ⟨hx, -⟩ := run_pure.mp hend
  cases hx
  rw [rootPending] at hroot
  split at hroot
  · rw [run_query_bind] at hroot
    obtain ⟨x, ⟨⟩, hserve, hend⟩ := hroot
    cases x with
    | ok found =>
      obtain ⟨hx, -⟩ := run_pure.mp hend
      cases hx
      refine ⟨nofun, ?_⟩
      rintro _ ⟨⟩
      rfl
    | error e =>
      simp only at hend
      split at hend
      · rename_i hkind
        obtain ⟨hx, -⟩ := run_pure.mp hend
        cases hx
        exact ⟨fun _ => hserve.2 hkind, nofun⟩
      · exact absurd (run_throw.mp hend).1 nofun
  · obtain ⟨hx, -⟩ := run_pure.mp hroot
    cases hx
    refine ⟨nofun, ?_⟩
    rintro _ ⟨⟩
    rfl

theorem objects_of_collects {findings : List (Finding String)}
    (h : Collects m.serve (want.links policy) want () (.ok findings) ())
    (hroot : m.tree.disk m.root = some .dir) :
    ∃ paths : List (List Name), paths.Nodup ∧ Finding.objects findings = paths.map relativeKey ∧
      (∀ path ∈ paths, m.File path) ∧
      ∀ path size modified, path ≠ [] →
        m.tree.disk (m.root ++ path) = some (.file (.regular size modified)) →
        want.keeps (relativeKey path) = true → relativeKey path ∈ Finding.objects findings := by
  generalize hout : Except.ok findings = out at h
  cases h with
  | failed => cases hout
  | missing hrun =>
    have hexists : m.Exists [] := ⟨m.root, .dir, Tree.leads_nil, hroot⟩
    exact absurd hexists ((run_start hrun).1 rfl)
  | @walked confine p _ _ trace end' hrun hwalks =>
    cases end' with
    | error e => cases hout
    | ok =>
      obtain rfl : findings = Walk.findings trace := Except.ok.inj hout
      have hp := (run_start hrun).2 p rfl
      obtain ⟨paths, hnodup, hkeys, hfiles⟩ :=
        objects_of_visits (P := m.File) (nodup_visited hwalks) <| by
        intro v hv
        obtain ⟨hreached, hgives⟩ := gives_of_walks hwalks hp v hv
        obtain ⟨⟨ns, hns, hobjects, hall⟩, -⟩ := hgives.reached hreached
        exact ⟨ns, hns, hobjects, fun n hn => (hall n hn).2.2⟩
      refine ⟨paths, hnodup, hkeys, fun path hpath => (hfiles path hpath).1, ?_⟩
      intro path size modified hne hfile hkeeps
      obtain ⟨dir, n, rfl⟩ : ∃ dir n, path = dir ++ [n] :=
        ⟨path.dropLast, path.getLast hne, (dropLast_append_getLast hne).symm⟩
      exact found_file hwalks hp hfile hkeeps

structure ObjectMeta where
  key : String
  size : Nat
  modifiedUnix : Option Int
  deriving DecidableEq, Repr

/-- The sorted, prefix-filtered keys of one paged listing, held between its pages. -/
structure WalkSnapshot where
  under : String
  want : Want
  keys : List String
  deriving DecidableEq

def listed (findings : List (Finding String)) (under : String) : List String :=
  ((Finding.objects findings).filter fun key => under.toList.isPrefixOf key.toList).mergeSort
    fun a b => a ≤ b

/-- The keys that a page slices, and the snapshot that is held then: those of the snapshot, for a
continuation of the listing it is of, and those of a new walk for any other page. -/
inductive ListingKeys (m : Machine) (policy : LinkPolicy) (held : Option WalkSnapshot)
    (under : String)
    (cursor : Option String) (want : Want) : List String → Option WalkSnapshot → Prop
  | held {keys : List String} : cursor ≠ none → held = some ⟨under, want, keys⟩ →
      ListingKeys m policy held under cursor want keys held
  | walked {findings : List (Finding String)} :
      (cursor = none ∨ ∀ keys, held ≠ some ⟨under, want, keys⟩) →
      Collects m.serve (want.links policy) want () (.ok findings) () →
      ListingKeys m policy held under cursor want (listed findings under)
        (some ⟨under, want, listed findings under⟩)

def pageSize : Nat := 1000

def describe (metadata : String → Except IoError (Nat × Option Int)) :
    List String → Except StoreError (List ObjectMeta)
  | [] => .ok []
  | key :: rest =>
    match metadata key with
    | .error e => if e.kind = .notFound then describe metadata rest else .error (.io e)
    | .ok (size, modified) => do
      let items ← describe metadata rest
      pure (⟨key, size, modified⟩ :: items)

def paginate (metadata : String → Except IoError (Nat × Option Int)) (keys : List String)
    (cursor : Option String) : Except StoreError (List ObjectMeta × Option String) := do
  let start := match cursor with
    | some c => partitionPoint (· ≤ c) keys
    | none => 0
  let stop := min (start + pageSize) keys.length
  let items ← describe metadata ((keys.take stop).drop start)
  pure (items, if stop < keys.length then keys[stop - 1]? else none)

/-- What is said to be missing under the root is missing. -/
def Machine.Describes (m : Machine) (metadata : String → Except IoError (Nat × Option Int)) :
    Prop :=
  ∀ key e, metadata key = .error e → e.kind = .notFound →
    ¬∃ via place node, Disk.Leads m.tree.disk m.root (pathHops key) via place ∧
      m.tree.disk place = some node

/-- The snapshot is what one whole walk found. -/
def WalkSnapshot.Sound (m : Machine) (policy : LinkPolicy) (s : WalkSnapshot) : Prop :=
  ∃ findings, Collects m.serve (s.want.links policy) s.want () (.ok findings) () ∧
    s.keys = listed findings s.under

/-- The objects of a listing that is driven from a cursor until there is none.  Another listing of
the same backend may exchange the snapshot between two pages. -/
inductive Paged (m : Machine) (policy : LinkPolicy) (under : String) (want : Want) :
    Option WalkSnapshot → Option String → List ObjectMeta → Prop
  | last {held held' : Option WalkSnapshot} {cursor : Option String} {keys : List String}
      {metadata : String → Except IoError (Nat × Option Int)} {items : List ObjectMeta} :
      ListingKeys m policy held under cursor want keys held' → m.Describes metadata →
      paginate metadata keys cursor = .ok (items, none) →
      Paged m policy under want held cursor items
  | more {held held' between : Option WalkSnapshot} {cursor : Option String} {next : String}
      {keys : List String} {metadata : String → Except IoError (Nat × Option Int)}
      {items rest : List ObjectMeta} :
      ListingKeys m policy held under cursor want keys held' → m.Describes metadata →
      paginate metadata keys cursor = .ok (items, some next) →
      (between = held' ∨ ∀ s, between = some s → s.Sound m policy) →
      Paged m policy under want between (some next) rest →
      Paged m policy under want held cursor (items ++ rest)

section Pages

variable {held held' : Option WalkSnapshot} {under key : String} {cursor next : Option String}
  {keys : List String} {items : List ObjectMeta}
  {metadata : String → Except IoError (Nat × Option Int)}

theorem ListingKeys.sound (h : ListingKeys m policy held under cursor want keys held')
    (hheld : cursor ≠ none → ∀ s, held = some s → s.Sound m policy) :
    (∃ findings, Collects m.serve (want.links policy) want () (.ok findings) () ∧
      keys = listed findings under) ∧
      ∀ s, held' = some s → s.Sound m policy := by
  cases h with
  | held hcursor heq => exact ⟨hheld hcursor _ heq, hheld hcursor⟩
  | walked _ hcollects =>
    refine ⟨⟨_, hcollects, rfl⟩, ?_⟩
    rintro _ ⟨⟩
    exact ⟨_, hcollects, rfl⟩

theorem sorted_listed (findings : List (Finding String)) (under : String) :
    (listed findings under).Pairwise (· ≤ ·) := by
  have h := @pairwise_mergeSort String (fun a b => Decidable.decide (a ≤ b))
    (fun a b c hab hbc => decide_eq_true
      (String.le_trans (of_decide_eq_true hab) (of_decide_eq_true hbc)))
    (fun a b => by simpa using String.le_total a b)
    ((Finding.objects findings).filter fun key => under.toList.isPrefixOf key.toList)
  refine h.imp ?_
  intro a b hab
  exact of_decide_eq_true hab

theorem count_listed (findings : List (Finding String)) (key : String) :
    (listed findings "").count key = (Finding.objects findings).count key := by
  have hall : (Finding.objects findings).filter (fun key => "".toList.isPrefixOf key.toList) =
      Finding.objects findings := filter_eq_self.mpr fun _ _ => rfl
  rw [listed, (mergeSort_perm _ _).count_eq, hall]

theorem paginate_eq_ok : paginate metadata keys cursor = .ok (items, next) ↔
    describe metadata ((behind keys cursor).take pageSize) = .ok items ∧
      nextCursor pageSize (behind keys cursor) = next := by
  obtain ⟨start, hle, hstart, hbehind⟩ : ∃ start, start ≤ keys.length ∧
      (match cursor with
        | some c => partitionPoint (· ≤ c) keys
        | none => 0) = start ∧ behind keys cursor = keys.drop start := by
    cases cursor with
    | none => exact ⟨0, Nat.zero_le _, rfl, rfl⟩
    | some c => exact ⟨_, partitionPoint_le _ _, rfl, (drop_partitionPoint _ _).symm⟩
  have hpage : (keys.take (min (start + pageSize) keys.length)).drop start =
      (keys.drop start).take pageSize := by
    rw [drop_take]
    rcases Nat.le_total (start + pageSize) keys.length with h | h
    · rw [Nat.min_eq_left h, Nat.add_sub_cancel_left]
    · rw [Nat.min_eq_right h, take_of_length_le (by simp), take_of_length_le (by simp; omega)]
  have hnext : (if min (start + pageSize) keys.length < keys.length then
      keys[min (start + pageSize) keys.length - 1]? else none) =
        nextCursor pageSize (keys.drop start) := by
    rw [nextCursor, length_drop]
    by_cases h : start + pageSize < keys.length
    · rw [Nat.min_eq_left h.le, if_pos h, if_pos (by omega), List.getElem?_drop,
        Nat.add_sub_assoc (by decide)]
    · rw [Nat.min_eq_right (by omega), if_neg (by omega), if_neg (by omega)]
  rw [hbehind]
  unfold paginate
  simp only [hstart, hpage, hnext, bind_eq_ok, pure_eq_ok, Prod.mk.injEq]
  constructor
  · rintro ⟨found, hfound, rfl, hlast⟩
    exact ⟨hfound, hlast⟩
  · rintro ⟨hfound, hlast⟩
    exact ⟨items, hfound, rfl, hlast⟩

theorem count_describe (h : describe metadata keys = .ok items)
    (hkey : ∀ e, metadata key = .error e → e.kind ≠ .notFound) :
    (items.map (·.key)).count key = keys.count key := by
  induction keys generalizing items with
  | nil =>
    cases h
    rfl
  | cons first keys ih =>
    rw [describe] at h
    split at h
    · rename_i e he
      split at h
      · rename_i hkind
        have hne : first ≠ key := by
          rintro rfl
          exact hkey e he hkind
        rw [ih h, count_cons_of_ne hne]
      · cases h
    · obtain ⟨rest, hrest, heq⟩ := bind_eq_ok.mp h
      cases heq
      rw [map_cons, count_cons, count_cons, ih hrest]

/-- A file that every walk finds once is returned once by a listing that starts before its key, and
not at all by one that starts at or behind it. -/
theorem Paged.count (h : Paged m policy "" want held cursor items)
    (hheld : cursor ≠ none → ∀ s, held = some s → s.Sound m policy)
    (honce : ∀ findings, Collects m.serve (want.links policy) want () (.ok findings) () →
      (Finding.objects findings).count key = 1)
    (hkey : ∀ metadata, m.Describes metadata → ∀ e, metadata key = .error e → e.kind ≠ .notFound) :
    ((∀ c, cursor = some c → ¬key ≤ c) → (items.map (·.key)).count key = 1) ∧
      ∀ c, cursor = some c → key ≤ c → (items.map (·.key)).count key = 0 := by
  have hpage : ∀ {cursor : Option String} {keys : List String}, keys.Pairwise (· ≤ ·) →
      (∀ c, cursor = some c → key ≤ c → (behind keys cursor).count key = 0) := by
    rintro cursor keys hsorted c rfl hle
    exact count_eq_zero.mpr fun hmem => not_le_of_mem_behind hsorted hmem hle
  have hbefore : ∀ {held held' : Option WalkSnapshot} {cursor : Option String} {keys : List String},
      ListingKeys m policy held "" cursor want keys held' →
      (cursor ≠ none → ∀ s, held = some s → s.Sound m policy) →
      keys.Pairwise (· ≤ ·) ∧ keys.count key = 1 := by
    intro held held' cursor keys hkeys hheld
    obtain ⟨⟨findings, hcollects, rfl⟩, -⟩ := hkeys.sound hheld
    exact ⟨sorted_listed _ _, by rw [count_listed, honce _ hcollects]⟩
  have hsize : 0 < pageSize := by decide
  induction h with
  | @last held held' cursor keys metadata items hkeys hdescribes hpaginate =>
    obtain ⟨hsorted, hcount⟩ := hbefore hkeys hheld
    obtain ⟨hitems, hnext⟩ := paginate_eq_ok.mp hpaginate
    rw [count_describe hitems (hkey _ hdescribes)]
    constructor
    · intro hcursor
      rw [← count_behind hcursor] at hcount
      rcases count_page (sorted_behind hsorted) hsize hcount with ⟨hone, -⟩ | ⟨-, n, hn, -⟩
      · exact hone
      · rw [hnext] at hn
        cases hn
    · intro c hc hle
      exact Nat.le_zero.mp ((take_sublist _ _).count_le _ |>.trans (hpage hsorted c hc hle).le)
  | @more held held' between cursor next keys metadata items rest hkeys hdescribes hpaginate
    hbetween _ ih =>
    obtain ⟨hsorted, hcount⟩ := hbefore hkeys hheld
    obtain ⟨hitems, hnext⟩ := paginate_eq_ok.mp hpaginate
    have hsound : ∀ s, between = some s → s.Sound m policy := by
      rcases hbetween with rfl | hbetween
      · exact (hkeys.sound hheld).2
      · exact hbetween
    obtain ⟨hlater, hearlier⟩ := ih fun _ => hsound
    rw [map_append, count_append, count_describe hitems (hkey _ hdescribes)]
    constructor
    · intro hcursor
      rw [← count_behind hcursor] at hcount
      rcases count_page (sorted_behind hsorted) hsize hcount with ⟨hone, hnext'⟩ |
        ⟨hzero, n, hn, hle⟩
      · rw [hone, hearlier next rfl (hnext' next hnext)]
      · obtain rfl : next = n := Option.some.inj (hnext.symm.trans hn)
        rw [hzero, hlater]
        rintro c ⟨⟩
        exact hle
    · intro c hc hle
      have hzero := Nat.le_zero.mp
        ((take_sublist pageSize _).count_le _ |>.trans (hpage hsorted c hc hle).le)
      have hmem := mem_of_nextCursor hnext
      have hnextle : key ≤ next := by
        subst hc
        rcases String.le_total key next with h | h
        · exact h
        · exact absurd (String.le_trans h hle) (not_le_of_mem_behind hsorted hmem)
      rw [hzero, hearlier next rfl hnextle]

end Pages

/-- A write at a path below the root, through no link.  The directories on the way are made. -/
structure Machine.Puts (m : Machine) (path : List Name) (after : Machine) : Prop where
  root : after.root = m.root
  written : ∃ slot size modified, Disk.Entry m.tree.disk m.root (path.map .name) [] slot ∧
    Disk.Writes m.tree.disk slot (.regular size modified) after.tree.disk

theorem eq_of_leads_names {d : Disk Name Leaf} {here : List Name}
    (h : Disk.Leads d here (names.map Hop.name) [] place) : place = here ++ names := by
  induction names generalizing here with
  | nil =>
    cases h
    exact (append_nil _).symm
  | cons n names ih =>
    cases h with
    | name _ h => rw [ih h, append_assoc, singleton_append]

variable {after : Machine} {key : String} {path : List Name} {held : Option WalkSnapshot}
  {items : List ObjectMeta}

theorem Machine.Puts.file (h : m.Puts path after) :
    ∃ size modified, after.tree.disk (after.root ++ path) =
      some (.file (.regular size modified)) := by
  obtain ⟨slot, size, modified, ⟨dirs, n, here, hpath, hleads, rfl⟩, hfile, -⟩ := h.written
  obtain ⟨front, last, rfl, hfront, hlast⟩ := map_eq_append_iff.mp hpath
  obtain ⟨n', rfl, hn⟩ := map_eq_singleton_iff.mp hlast
  cases hn
  rw [← hfront] at hleads
  obtain rfl := eq_of_leads_names hleads
  refine ⟨size, modified, ?_⟩
  rw [h.root, ← append_assoc]
  exact hfile

theorem listed_once {size : Nat} {modified : Option Int} (hne : path ≠ [])
    (hfile : m.tree.disk (m.root ++ path) = some (.file (.regular size modified)))
    (hspelled : relativeKey path = key) (hhops : pathHops key = path.map .name)
    (hkeeps : want.keeps key = true)
    (halone : ∀ other, m.File other → relativeKey other = key → other = path)
    (h : Paged m policy "" want held none items) : (items.map (·.key)).count key = 1 := by
  have hsome : m.tree.disk (m.root ++ path) ≠ none := by
    rw [hfile]
    exact Option.some_ne_none _
  have hroot : m.tree.disk m.root = some .dir :=
    Tree.dir_of_prefix hsome (prefix_append _ _) (by simpa using hne)
  have hleads : m.tree.Leads m.root path (m.root ++ path) :=
    Tree.leads_of_exists hsome (by rw [hfile]; exact nofun)
  refine (h.count (fun hnone => absurd rfl hnone) ?_ ?_).1 nofun
  · intro findings hcollects
    obtain ⟨paths, hnodup, hkeys, hfiles, hfound⟩ := objects_of_collects hcollects hroot
    have hmem := hfound path size modified hne hfile (hspelled ▸ hkeeps)
    rw [hkeys] at hmem ⊢
    obtain ⟨other, hother, heq⟩ := mem_map.mp hmem
    obtain rfl := halone other (hfiles other hother) (heq.trans hspelled)
    have hcount : (paths.map relativeKey).count key = paths.count other := by
      rw [List.count, countP_map, List.count]
      refine countP_congr ?_
      intro p hp
      simp only [Function.comp_apply, beq_iff_eq]
      exact ⟨fun h => halone p (hfiles p hp) h, fun h => h ▸ hspelled⟩
    rw [hcount, count_eq_one_of_mem hnodup hother]
  · intro metadata hdescribes e he hkind
    obtain ⟨via, hvia⟩ := hleads
    exact hdescribes key e he hkind ⟨via, _, _, by rw [hhops]; exact hvia, hfile⟩

/-- Keys with different plain spellings stand for different paths.  A key in plain spelling without
a backslash is listed once under itself when it was written, if no other file is spelled like it. -/
theorem key_kept (hkey : resolve key = .ok path) :
    (∀ other path', resolve other = .ok path' → (path' = path ↔ plainKey other = plainKey key)) ∧
    (Plain key → '\\' ∉ key.toList → isStagingKey key = false →
      ∀ (m after : Machine) policy held items, m.Puts path after →
        (∀ other, after.File other → relativeKey other = key → other = path) →
      Paged after policy "" .objects held none items → (items.map (·.key)).count key = 1) := by
  constructor
  · intro other path' hother
    exact resolve_inj hother hkey
  · intro hplain hback hstaging m after policy held items hput halone hlisting
    obtain ⟨size, modified, hfile⟩ := hput.file
    have hhops : pathHops key = path.map .name := by
      obtain ⟨-, -, -, -, -, rfl⟩ := resolve_eq_ok.mp hkey
      rw [← show pathText (parts key) = key from hplain, pathHops_pathText
        (isComponent_of_resolve hkey), show pathText (parts key) = key from hplain, map_map]
      rfl
    exact listed_once (path_ne_nil hkey) hfile (relativeKey_resolve hkey hplain hback) hhops
      (by rw [Want.keeps, hstaging]; rfl) halone hlisting

/-! A store that holds one file, and the store after a second one was written into a directory. -/

def besideNodes : List (List Name × DiskNode Name Leaf) :=
  [([], .dir), ([utf8 "b"], .file (.regular 0 none))]

def nestedNodes : List (List Name × DiskNode Name Leaf) :=
  besideNodes ++ [([utf8 "d"], .dir), ([utf8 "d", utf8 "a"], .file (.regular 0 none))]

def besideMachine : Machine := ⟨.ofNodes besideNodes rfl (by decide) (by decide), [], fun _ => 0⟩

def nestedMachine : Machine := ⟨.ofNodes nestedNodes rfl (by decide) (by decide), [], fun _ => 0⟩

theorem puts_nested : besideMachine.Puts [utf8 "d", utf8 "a"] nestedMachine where
  root := rfl
  written := by
    refine ⟨[utf8 "d", utf8 "a"], 0, none, ⟨[.name (utf8 "d")], utf8 "a", [utf8 "d"], rfl,
      .name nofun (.done _), rfl⟩, rfl, fun q hq => ?_⟩
    by_cases hdir : q = [utf8 "d"]
    · exact .inr ⟨by rw [hdir]; rfl, by rw [hdir]; rfl⟩
    · refine .inl ?_
      show (besideNodes ++ _).lookup q = besideNodes.lookup q
      rw [lookup_append]
      refine (congrArg _ (lookup_eq_none_iff.mpr ?_)).trans (Option.or_none ..)
      simp [hq, hdir]

def nestedAnswer : (r : FsRequest) → r.Answer
  | .readDir path =>
    if path = [] then .ok ([⟨utf8 "b", .ok .file⟩, ⟨utf8 "d", .ok .dir⟩], none)
    else if path = [utf8 "d"] then .ok ([⟨utf8 "a", .ok .file⟩], none)
    else .error ⟨.other, none⟩
  | .metadata _ | .canonicalize _ | .describe _ => .error ⟨.other, none⟩

theorem serve_nested (u : Unit) (r : FsRequest) : nestedMachine.serve u r (nestedAnswer r) () := by
  cases r with
  | readDir path =>
    rw [nestedAnswer]
    split
    · rename_i hpath
      subst hpath
      refine ⟨⟨[], ⟨Tree.leads_nil, rfl⟩, by decide, fun e he => ?_, fun _ n hn => ?_⟩, trivial⟩
      · obtain rfl | rfl : e = _ ∨ e = _ := by simpa using he
        all_goals exact ⟨_, rfl, by rintro _ ⟨⟩; rfl⟩
      · have hmem : [n] ∈ nestedNodes.map Prod.fst := Tree.mem_of_lookup hn
        obtain rfl | rfl : n = utf8 "b" ∨ n = utf8 "d" := by
          simpa [nestedNodes, besideNodes] using hmem
        · exact ⟨_, mem_cons_self, rfl⟩
        · exact ⟨_, mem_cons_of_mem _ mem_cons_self, rfl⟩
    · split
      · rename_i hpath
        subst hpath
        refine ⟨⟨[utf8 "d"], ⟨⟨[], .name nofun (.done _)⟩, rfl⟩, by decide, fun e he => ?_,
          fun _ n hn => ?_⟩, trivial⟩
        · obtain rfl : e = _ := by simpa using he
          exact ⟨_, rfl, by rintro _ ⟨⟩; rfl⟩
        · have hmem : [utf8 "d", n] ∈ nestedNodes.map Prod.fst := Tree.mem_of_lookup hn
          obtain rfl : n = utf8 "a" := by simpa [nestedNodes, besideNodes] using hmem
          exact ⟨_, mem_singleton_self _, rfl⟩
      · exact ⟨trivial, nofun⟩
  | metadata path => exact ⟨trivial, nofun⟩
  | canonicalize path | describe path => exact ⟨trivial, trivial⟩

theorem collects_nested :
    Collects nestedMachine.serve .skip .objects () (.ok [.object "b", .object "d/a"]) () := by
  have hrun := fun {α : Type} (p : Prog FsRequest FsRequest.Answer α) =>
    @run_eval _ _ _ _ _ (fun u r => (nestedAnswer r, u)) serve_nested p ()
  exact .walked (hrun (start .skip).run) (.visit (hrun (visit .skip .objects none ⟨[], none⟩).run)
    (.visit (hrun (visit .skip .objects none ⟨[utf8 "d"], none⟩).run) .done))

theorem key_kept_nested : resolve "d/a" = .ok [utf8 "d", utf8 "a"] ∧ ∃ items,
    Paged nestedMachine .skip "" .objects none none items ∧ items.map (·.key) = ["b", "d/a"] ∧
      (items.map (·.key)).count "d/a" = 1 := by
  have hkey : resolve "d/a" = .ok [utf8 "d", utf8 "a"] := resolve_eq_ok.mpr (by decide)
  have hlisting :
      Paged nestedMachine .skip "" .objects none none [⟨"b", 0, none⟩, ⟨"d/a", 0, none⟩] := by
    have hdescribes : nestedMachine.Describes fun _ => .ok (0, none) := by
      intro key e he
      cases he
    refine .last (.walked (.inl rfl) collects_nested) hdescribes ?_
    have hkeys : listed [.object "b", .object "d/a"] "" = ["b", "d/a"] :=
      mergeSort_of_pairwise (by decide)
    rw [hkeys]
    exact paginate_eq_ok.mpr ⟨rfl, rfl⟩
  have halone : ∀ other, nestedMachine.File other → relativeKey other = "d/a" →
      other = [utf8 "d", utf8 "a"] := by
    rintro other ⟨place, size, modified, ⟨via, hleads⟩, hfile⟩ hspelled
    have hnode : ∀ {q node}, nestedMachine.tree.disk q = some node → (q, node) ∈ nestedNodes := by
      intro q node h
      obtain ⟨before, after, heq, -⟩ := lookup_eq_some_iff.mp h
      rw [heq]
      exact mem_append_right _ mem_cons_self
    have hvia : via = [] := eq_nil_iff_forall_not_mem.mpr fun q hq => by
      obtain ⟨target, htarget⟩ := hleads.link_of_mem hq
      simpa [nestedNodes, besideNodes] using hnode htarget
    subst hvia
    obtain rfl : place = other := eq_of_leads_names hleads
    obtain ⟨rfl, -⟩ | ⟨rfl, -⟩ : (place = [utf8 "b"] ∧ _) ∨ (place = [utf8 "d", utf8 "a"] ∧ _) := by
      simpa [nestedNodes, besideNodes] using hnode hfile
    · exact absurd hspelled (by decide)
    · rfl
  exact ⟨hkey, _, hlisting, rfl, (key_kept hkey).2 (by unfold Plain; decide) (by decide) (by decide)
    _ _ _ _ _ puts_nested halone hlisting⟩

/-- Two keys for one path, and a key that the walk spells in another way. -/
theorem slashes_collide :
    (¬∀ k k' p p', resolve k = .ok p → resolve k' = .ok p' → isStagingKey k = false →
      isStagingKey k' = false → k ≠ k' → p ≠ p') ∧
    resolve "a\\b" = .ok [utf8 "a\\b"] ∧ relativeKey [utf8 "a\\b"] = "a/b" := by
  refine ⟨?_, ?_, ?_⟩
  · intro h
    have hdouble : resolve "a//b" = .ok [utf8 "a", utf8 "b"] := resolve_eq_ok.mpr (by decide)
    have hsingle : resolve "a/b" = .ok [utf8 "a", utf8 "b"] := resolve_eq_ok.mpr (by decide)
    exact h _ _ _ _ hdouble hsingle (by decide) (by decide) (by decide) rfl
  · exact resolve_eq_ok.mpr (by decide)
  · rw [relativeKey, show [utf8 "a\\b"] = ["a\\b"].map utf8 from rfl, joinNames_utf8,
      toStringLossy_utf8]
    decide

end Dctl.Store.LocalFs
