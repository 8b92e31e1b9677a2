import Dctl.Cli.RealPath
import Dctl.Transfer.Execute
import Dctl.Transfer.Listed
import Dctl.Transfer.Prepare

/-! What a `move` leaves of its files: the disk under its two sides, what the engine and its reaper
do to it (`engine.rs`), and when a source file is only removed once the destination holds it. -/

namespace Dctl.Transfer

open Cli ProofKit List

def Planned.on (e : Planned) : Target → String
  | .source => e.entry.source
  | .destination => e.entry.dest

/-- The two sides of a run on one machine: its working directory, the directory that a configured
`local` remote names, and the prepared specs. -/
structure Sides where
  start : List String
  directory : String → String
  source : RemoteSpec
  dest : RemoteSpec

def Request.spares : Request → Bool
  | .upload .. | .remove .. => false
  | _ => true

namespace Sides

variable (s : Sides)

/-- Where a path below a spec lies: `source_path`, `dest_path`, and the key of a plain remote below
the directory of its backend. -/
def below : RemoteSpec → String → List (Hop String)
  | .local root, relative => hops root ++ pushed relative
  | .named remote dir, relative =>
    hops (s.directory remote) ++ pushed (LogicalPath.join dir relative)

def spec : Target → RemoteSpec
  | .source => s.source
  | .destination => s.dest

def path (e : Planned) (t : Target) : List (Hop String) := s.below (s.spec t) (e.on t)

variable {C : Type}

/-- What an upload does that gets as far as publishing the file: the source is read through its
links, and the file takes the place of the destination entry, whatever that was. -/
def Copies (e : Planned) (d d' : Disk String C) : Prop :=
  ∃ c front slot, d.Reads s.start (s.path e .source) c ∧
    d.Entry s.start (s.path e .destination) front slot ∧ d.Writes slot c d'

/-- The engine and the reaper of the source on a disk that nothing else writes.  A request that
fails may have done its work, or a part of it; a removal may find nothing to remove. -/
def serves : Prog.Server (Disk String C) Request Answer
  | d, .upload _ e, .ok _, d' => s.Copies e d d'
  | d, .upload _ e, .error _, d' => d.MakesDirs d' ∨ s.Copies e d d'
  | d, .createDir _, _, d' => d.MakesDirs d'
  | d, .remove t path, _, d' => d' = d ∨
      ∃ front slot, d.Entry s.start (s.below (s.spec t) path) front slot ∧ d.Unlinks slot d'
  | d, _, _, d' => d' = d

/-- The sources and destinations of the plan do not meet on the disk. -/
structure Apart (plan : Plan) (d : Disk String C) : Prop where
  /-- Each path leads somewhere. -/
  leads : ∀ e ∈ plan.files, (∃ r, d.Goes s.start (s.path e .source) r) ∧
    ∃ front slot, d.Entry s.start (s.path e .destination) front slot
  /-- No entry that is written or removed is a link on the way to an entry. -/
  fronts : ∀ t t', ∀ e ∈ plan.files, ∀ e' ∈ plan.files, ∀ front slot front' slot',
    d.Entry s.start (s.path e t) front slot → d.Entry s.start (s.path e' t') front' slot' →
    slot ∉ front'
  /-- No entry that is written, and no entry that is removed for another file, is on the way of a
  source path. -/
  sources : ∀ t, ∀ e ∈ plan.files, ∀ e' ∈ plan.files, (t = .source → e ≠ e') →
    ∀ front slot r, d.Entry s.start (s.path e t) front slot →
    d.Goes s.start (s.path e' .source) r → slot ∉ r.way
  /-- No two files are written to one entry. -/
  goals : ∀ e ∈ plan.files, ∀ e' ∈ plan.files, e ≠ e' → ∀ front slot front' slot',
    d.Entry s.start (s.path e .destination) front slot →
    d.Entry s.start (s.path e' .destination) front' slot' → slot ≠ slot'

structure Laid (d : Disk String C) (e : Planned) (r : Disk.Route String) (c : C)
    (slot : List String) : Prop where
  goes : d.Goes s.start (s.path e .source) r
  file : d r.place = some (.file c)
  goal : ∃ front, d.Entry s.start (s.path e .destination) front slot

/-- How a run stands that started from the disk `d0`.  A token is a file that was uploaded. -/
structure Tracked (plan : Plan) (d0 d : Disk String C) (tokens : Multiset Planned) : Prop where
  links : d0.NoNewLinks d
  fronts : ∀ t, ∀ e ∈ plan.files, ∀ front slot, d0.Entry s.start (s.path e t) front slot →
    ∀ q ∈ front, d q = d0 q
  kept : ∀ e ∈ plan.files, ∀ r c slot, s.Laid d0 e r c slot →
    ((∀ q ∈ r.tail, d q = d0 q) ∧ d r.place = some (.file c)) ∨
      ((∀ node, d r.slot = some node → node = .dir) ∧ d slot = some (.file c))
  stored : ∀ e ∈ plan.files, e ∈ tokens → ∀ r c slot, s.Laid d0 e r c slot →
    d slot = some (.file c)

variable {s} {plan : Plan} {d0 d d' : Disk String C} {tokens : Multiset Planned} {e : Planned}

theorem tracked_start : s.Tracked plan d0 d0 0 where
  links := fun _ _ ht => ht
  fronts := fun _ _ _ _ _ _ _ _ => rfl
  kept := fun _ _ _ _ _ h => Or.inl ⟨fun _ _ => rfl, h.file⟩
  stored := fun _ _ h => absurd h (Multiset.notMem_zero _)

namespace Tracked

variable {slot : List String}

section

variable (h : s.Tracked plan d0 d tokens)
include h

theorem entry (he : e ∈ plan.files) {t : Target} {front : List (List String)}
    (hentry : d0.Entry s.start (s.path e t) front slot) : d.Entry s.start (s.path e t) front slot :=
  hentry.keep h.links (h.fronts t e he front slot hentry)

theorem makesDirs (hdirs : d.MakesDirs d') :
    s.Tracked plan d0 d' tokens where
  links := h.links.trans hdirs.noNewLinks
  fronts t e he front slot hentry q hq := by
    obtain ⟨_, hlink⟩ := hentry.link_of_mem hq
    have hd := h.fronts t e he front slot hentry q hq
    rw [hlink] at hd ⊢
    exact hdirs.eq hd
  kept e he r c slot hlaid := by
    rcases h.kept e he r c slot hlaid with ⟨htail, hfile⟩ | ⟨hgone, hfile⟩
    · left
      refine ⟨?_, hdirs.eq hfile⟩
      intro q hq
      obtain ⟨_, hlink⟩ := hlaid.goes.link_of_mem_tail hq
      have hd := htail q hq
      rw [hlink] at hd ⊢
      exact hdirs.eq hd
    · right
      refine ⟨?_, hdirs.eq hfile⟩
      intro node hnode
      rcases hdirs r.slot with hsame | ⟨-, hdir⟩
      · exact hgone node (hsame ▸ hnode)
      · rw [hdir] at hnode
        cases hnode
        rfl
  stored e he ht r c slot hlaid := hdirs.eq (h.stored e he ht r c slot hlaid)

theorem reads (he : e ∈ plan.files) {r : Disk.Route String} {c c' : C}
    (hlaid : s.Laid d0 e r c slot) (hreads : d.Reads s.start (s.path e .source) c') :
    c' = c ∧ (∀ q ∈ r.tail, d q = d0 q) ∧ d r.place = some (.file c) := by
  rcases h.kept e he r c slot hlaid with ⟨htail, hfile⟩ | ⟨hgone, -⟩
  · have hfront := h.fronts .source e he _ _ hlaid.goes.entry
    rw [(hlaid.goes.keep h.links hfront htail).reads_iff, hfile] at hreads
    cases hreads
    exact ⟨rfl, htail, hfile⟩
  · exact absurd hreads ((h.entry he hlaid.goes.entry).not_reads hgone)

theorem copies (hapart : s.Apart plan d0) (he : e ∈ plan.files) (hcopies : s.Copies e d d') :
    s.Tracked plan d0 d' (e ::ₘ tokens) := by
  obtain ⟨c, front, slot, hreads, hentry, hwrites⟩ := hcopies
  obtain ⟨-, front0, slot0, hentry0⟩ := hapart.leads e he
  obtain ⟨rfl, rfl⟩ := hentry.unique (h.entry he hentry0)
  -- The destination entry of a file is the one that is written exactly when the file is the one
  -- that
  -- is uploaded, and then it was its own content that was read.
  have hgoal : ∀ e' ∈ plan.files, ∀ r c' slot', s.Laid d0 e' r c' slot' →
      e' = e ∨ d slot' = some (.file c') → d' slot' = some (.file c') := by
    intro e' he' r c' slot' hlaid hor
    obtain ⟨front', hgoal'⟩ := hlaid.goal
    by_cases heq : e' = e
    · subst heq
      obtain ⟨-, rfl⟩ := hgoal'.unique hentry0
      obtain ⟨rfl, -⟩ := h.reads he hlaid hreads
      exact hwrites.1
    · have hne : slot' ≠ slot := hapart.goals e' he' e he heq _ _ _ _ hgoal' hentry0
      exact hwrites.eq_of_ne hne (hor.resolve_left heq)
  constructor
  · exact h.links.trans hwrites.noNewLinks
  · intro t e' he' front' slot' hentry' q hq
    obtain ⟨_, hlink⟩ := hentry'.link_of_mem hq
    have hd := h.fronts t e' he' front' slot' hentry' q hq
    rw [hlink] at hd ⊢
    apply hwrites.eq_of_ne _ hd
    rintro rfl
    exact hapart.fronts .destination t e he e' he' _ _ _ _ hentry0 hentry' hq
  · intro e' he' r c' slot' hlaid
    have hway : slot ∉ r.way :=
      hapart.sources .destination e he e' he' nofun _ _ _ hentry0 hlaid.goes
    rcases h.kept e' he' r c' slot' hlaid with ⟨htail, hfile⟩ | ⟨hgone, hfile⟩
    · left
      constructor
      · intro q hq
        obtain ⟨_, hlink⟩ := hlaid.goes.link_of_mem_tail hq
        have hd := htail q hq
        rw [hlink] at hd ⊢
        apply hwrites.eq_of_ne _ hd
        rintro rfl
        exact hway (Disk.Route.mem_way_of_tail hq)
      · apply hwrites.eq_of_ne _ hfile
        intro hplace
        exact hway (hplace ▸ Disk.Route.place_mem_way r)
    · right
      constructor
      · intro node hnode
        have hslot : r.slot ≠ slot := by
          intro hslot
          exact hway (hslot ▸ Disk.Route.slot_mem_way r)
        rcases hwrites.2 r.slot hslot with hsame | ⟨-, hdir⟩
        · exact hgone node (hsame ▸ hnode)
        · rw [hdir] at hnode
          cases hnode
          rfl
      · exact hgoal e' he' r c' slot' hlaid (Or.inr hfile)
  · intro e' he' ht r c' slot' hlaid
    apply hgoal e' he' r c' slot' hlaid
    rcases Multiset.mem_cons.mp ht with rfl | ht
    · exact Or.inl rfl
    · exact Or.inr (h.stored e' he' ht r c' slot' hlaid)

end

theorem of_cons (h : s.Tracked plan d0 d (e ::ₘ tokens)) : s.Tracked plan d0 d tokens :=
  { h with stored := fun e' he ht => h.stored e' he (Multiset.mem_cons_of_mem ht) }

theorem unlinks (h : s.Tracked plan d0 d tokens) (hapart : s.Apart plan d0) (he : e ∈ plan.files)
    (ht : e ∈ tokens) {front : List (List String)}
    (hentry : d.Entry s.start (s.path e .source) front slot) (hunlinks : d.Unlinks slot d') :
    s.Tracked plan d0 d' tokens := by
  obtain ⟨⟨r0, hgoes0⟩, -⟩ := hapart.leads e he
  obtain ⟨rfl, rfl⟩ := hentry.unique (h.entry he hgoes0.entry)
  have hgoal : ∀ e' ∈ plan.files, ∀ r c' slot', s.Laid d0 e' r c' slot' →
      d slot' = some (.file c') → d' slot' = some (.file c') := by
    intro e' he' r c' slot' hlaid hfile
    obtain ⟨front', hgoal'⟩ := hlaid.goal
    rw [hunlinks.2 slot' ?_, hfile]
    rintro rfl
    exact hapart.sources .destination e' he' e he nofun _ _ _ hgoal' hgoes0 r0.slot_mem_way
  constructor
  · exact h.links.trans hunlinks.noNewLinks
  · intro t e' he' front' slot' hentry' q hq
    rw [← h.fronts t e' he' front' slot' hentry' q hq]
    apply hunlinks.2
    rintro rfl
    exact hapart.fronts .source t e he e' he' _ _ _ _ hgoes0.entry hentry' hq
  · intro e' he' r c' slot' hlaid
    by_cases heq : e' = e
    · subst heq
      obtain rfl := hlaid.goes.unique hgoes0
      right
      refine ⟨?_, hgoal e' he' r c' slot' hlaid (h.stored e' he' ht r c' slot' hlaid)⟩
      intro node hnode
      rw [hunlinks.1] at hnode
      cases hnode
    · have hway : r0.slot ∉ r.way :=
        hapart.sources .source e he e' he' (fun _ hne => heq hne.symm) _ _ _ hgoes0.entry hlaid.goes
      rcases h.kept e' he' r c' slot' hlaid with ⟨htail, hfile⟩ | ⟨hgone, hfile⟩
      · left
        constructor
        · intro q hq
          rw [← htail q hq]
          apply hunlinks.2
          rintro rfl
          exact hway (Disk.Route.mem_way_of_tail hq)
        · rw [hunlinks.2, hfile]
          intro hplace
          exact hway (hplace ▸ r.place_mem_way)
      · right
        refine ⟨?_, hgoal e' he' r c' slot' hlaid hfile⟩
        intro node hnode
        rw [hunlinks.2] at hnode
        · exact hgone node hnode
        · intro hslot
          exact hway (hslot ▸ r.slot_mem_way)
  · intro e' he' ht' r c' slot' hlaid
    exact hgoal e' he' r c' slot' hlaid (h.stored e' he' ht' r c' slot' hlaid)

end Tracked

theorem goes_below {root : List String} {via : List (List String)} {spec : String} {t : Target}
    (hspec : s.spec t = .local spec) (hroot : d.Leads s.start (hops spec) via root)
    (hno : ∀ q, root <+: q → ∀ u, d q ≠ some (.link u)) {dirs : List String} {n : String}
    (hpath : pushed (e.on t) = (dirs ++ [n]).map Hop.name) :
    d.Goes s.start (s.path e t) ⟨via, root ++ dirs ++ [n], [], root ++ dirs ++ [n]⟩ := by
  have hdirs : d.Leads s.start (hops spec ++ dirs.map Hop.name) (via ++ []) (root ++ dirs) :=
    hroot.append (Disk.leads_names hno)
  rw [append_nil] at hdirs
  have hunder : root <+: root ++ dirs ++ [n] := by
    rw [append_assoc]
    exact prefix_append root _
  refine ⟨hops spec ++ dirs.map Hop.name, n, root ++ dirs, ?_, hdirs, rfl,
    .name (hno _ hunder) (.done _)⟩
  rw [path, hspec, below, hpath]
  simp

/-- Two paths that the refusal of overlapping sides lets through, where they resolve and there is no
link below them, keep what is written and removed apart from the other paths of the plan. -/
theorem apart_of_rejectSelfTransfer {canonicalize : String → Option (List String)}
    {specs : Target → String} {roots : Target → List String} {vias : Target → List (List String)}
    (hself : Prepare.rejectSelfTransfer canonicalize (.local (specs .source))
      (.local (specs .destination)) = .ok ())
    (hspec : ∀ t, s.spec t = .local (specs t))
    (hcanonical : ∀ t, canonicalize (specs t) = some (OsPath.rootDir :: roots t))
    (hroot : ∀ t, d.Leads s.start (hops (specs t)) (vias t) (roots t))
    (hno : ∀ t q, roots t <+: q → ∀ u, d q ≠ some (.link u))
    (hpath : ∀ t, ∀ e ∈ plan.files, ∃ dirs n, pushed (e.on t) = (dirs ++ [n]).map Hop.name)
    (hdistinct : ∀ t, ∀ e ∈ plan.files, ∀ e' ∈ plan.files, e ≠ e' →
      pushed (e.on t) ≠ pushed (e'.on t)) :
    s.Apart plan d := by
  have hoverlap : ¬roots .source <+: roots .destination ∧
      ¬roots .destination <+: roots .source := by
    rw [Prepare.rejectSelfTransfer] at hself
    split at hself
    · cases hself
    · simp only [RemoteSpec.localPath, hcanonical, isPrefixOf_cons_cons_self] at hself
      split at hself
      · cases hself
      · split at hself
        · cases hself
        · rename_i hsource
          split at hself
          · cases hself
          · rename_i hdest
            exact ⟨fun h => hsource (List.isPrefixOf_iff_prefix.mpr h),
              fun h => hdest (List.isPrefixOf_iff_prefix.mpr h)⟩
  have hgoes : ∀ t, ∀ e ∈ plan.files, ∃ dirs n, pushed (e.on t) = (dirs ++ [n]).map Hop.name ∧
      d.Goes s.start (s.path e t) ⟨vias t, roots t ++ dirs ++ [n], [], roots t ++ dirs ++ [n]⟩ := by
    intro t e he
    obtain ⟨dirs, n, hpushed⟩ := hpath t e he
    exact ⟨dirs, n, hpushed, goes_below (hspec t) (hroot t) (hno t) hpushed⟩
  have hunder : ∀ t (dirs : List String) n, roots t <+: roots t ++ dirs ++ [n] := by
    intro t dirs n
    rw [append_assoc]
    exact prefix_append _ _
  -- The entries of two paths are one entry only for the same path of the same side.
  have hslot : ∀ t t', ∀ e ∈ plan.files, ∀ e' ∈ plan.files, (t = t' → e ≠ e') →
      ∀ front slot front' slot', d.Entry s.start (s.path e t) front slot →
      d.Entry s.start (s.path e' t') front' slot' → slot ≠ slot' := by
    intro t t' e he e' he' hne front slot front' slot' hentry hentry' hslot
    obtain ⟨dirs, n, hpushed, hgo⟩ := hgoes t e he
    obtain ⟨dirs', n', hpushed', hgo'⟩ := hgoes t' e' he'
    obtain ⟨rfl, rfl⟩ := hentry.unique hgo.entry
    obtain ⟨rfl, rfl⟩ := hentry'.unique hgo'.entry
    simp only at hslot
    by_cases ht : t = t'
    · subst ht
      rw [append_assoc, append_assoc] at hslot
      apply hdistinct t e he e' he' (hne rfl)
      rw [hpushed, hpushed', append_cancel_left hslot]
    · have h1 := hunder t dirs n
      have h2 := hslot ▸ hunder t' dirs' n'
      have hor := prefix_or_prefix_of_prefix h1 h2
      cases t <;> cases t'
      · exact ht rfl
      · exact hor.elim hoverlap.1 hoverlap.2
      · exact hor.elim hoverlap.2 hoverlap.1
      · exact ht rfl
  constructor
  · intro e he
    obtain ⟨_, _, -, hsource⟩ := hgoes .source e he
    obtain ⟨_, _, -, hdest⟩ := hgoes .destination e he
    exact ⟨⟨_, hsource⟩, _, _, hdest.entry⟩
  · intro t t' e he e' he' front slot front' slot' hentry hentry' hmem
    obtain ⟨dirs, n, -, hgo⟩ := hgoes t e he
    obtain ⟨-, rfl⟩ := hentry.unique hgo.entry
    obtain ⟨_, hlink⟩ := hentry'.link_of_mem hmem
    exact hno t _ (hunder t dirs n) _ hlink
  · intro t e he e' he' hne front slot r hentry hr hmem
    obtain ⟨dirs, n, -, hgo⟩ := hgoes t e he
    obtain ⟨dirs', n', -, hgo'⟩ := hgoes .source e' he'
    obtain rfl := hr.unique hgo'
    have hother := hslot t .source e he e' he' hne _ _ _ _ hentry hgo'.entry
    obtain ⟨-, rfl⟩ := hentry.unique hgo.entry
    have hfront : roots t ++ dirs ++ [n] ∉ vias .source := by
      intro hvia
      obtain ⟨_, hlink⟩ := hgo'.entry.link_of_mem hvia
      exact hno t _ (hunder t dirs n) _ hlink
    simp only [Disk.Route.way, nil_append, mem_append, mem_cons] at hmem
    rcases hmem with hvia | hplace | hplace | hnil
    · exact hfront hvia
    · exact hother hplace
    · exact hother hplace
    · cases hnil
  · intro e he e' he' hne front slot front' slot' hentry hentry'
    exact hslot .destination .destination e he e' he' (fun _ => hne) _ _ _ _ hentry hentry'

variable {α β : Type} {own : Multiset Planned}

variable {r : Request}

theorem Tracked.rest {x : Answer r} (h : s.Tracked plan d0 d tokens) (hserve : s.serves d r x d')
    (hr : r.spares = true) : s.Tracked plan d0 d' tokens := by
  cases r
  case upload => cases hr
  case remove => cases hr
  case createDir => exact h.makesDirs hserve
  all_goals
    obtain rfl := hserve
    exact h

variable (s plan d0) in
/-- A program of the run, with the files it uploaded. -/
abbrev Tracks (post : α → Multiset Planned → Prop) (p : Prog Request Answer α)
    (own : Multiset Planned) : Prop :=
  p.Upholds s.serves (s.Tracked plan d0) post own

variable {post : Except CliError β → Multiset Planned → Prop}

theorem tracks_query {f : Answer r → Job β} (hr : r.spares = true)
    (hf : ∀ x, Tracks s plan d0 post (f x).run own) :
    Tracks s plan d0 post (Prog.query r >>= f).run own := by
  intro d others x d' h hx
  exact ⟨own, h.rest hx hr, hf x⟩

theorem tracks_ensure {check : Answer r → Except CliError α} {f : α → Job β} (hr : r.spares = true)
    (hf : ∀ a, Tracks s plan d0 post (f a).run own) (herror : ∀ error, post (.error error) own) :
    Tracks s plan d0 post (ensure r check >>= f).run own := by
  intro d others x d' h hx
  refine ⟨own, h.rest hx hr, ?_⟩
  show Tracks s plan d0 post (Prog.ofExcept (check x) >>= f).run own
  cases check x with
  | error error => exact herror error
  | ok a => exact hf a

variable {attempt : Nat}

theorem tracks_upload {f : Nat → Job β} (hapart : s.Apart plan d0) (he : e ∈ plan.files)
    (hf : ∀ moved, Tracks s plan d0 post (f moved).run (e ::ₘ own))
    (herror : ∀ error, post (.error error) own) :
    Tracks s plan d0 post (ensure (.upload attempt e) id >>= f).run own := by
  intro d others x d' h hx
  cases x with
  | error error =>
    refine ⟨own, ?_, herror error⟩
    rcases hx with hdirs | hcopies
    · exact h.makesDirs hdirs
    · exact (h.copies hapart he hcopies).of_cons
  | ok moved =>
    refine ⟨e ::ₘ own, ?_, hf moved⟩
    rw [Multiset.cons_add]
    exact h.copies hapart he hx

variable {ctx : Ctx}

section

variable (hapart : s.Apart plan d0) (he : e ∈ plan.files)
include hapart he

theorem tracks_runStages :
    Tracks s plan d0 (fun x own' => x.isOk = true → e ∈ own')
      (runStages ctx e attempt).run own := by
  rw [runStages_eq]
  apply tracks_ensure rfl _ (fun _ => nofun)
  intro _
  apply tracks_ensure rfl _ (fun _ => nofun)
  intro _
  apply tracks_upload hapart he _ (fun _ => nofun)
  intro moved
  apply tracks_query rfl
  intro _
  apply tracks_ensure rfl _ (fun _ => nofun)
  intro _
  apply tracks_ensure rfl _ (fun _ => nofun)
  intro _
  apply tracks_query rfl
  intro _ _
  exact Multiset.mem_cons_self _ _

theorem tracks_retryLoop {left : Nat} {outcome : Except CliError Nat}
    (hown : outcome.isOk = true → e ∈ own) :
    Tracks s plan d0 (fun x own' => x.isOk = true → e ∈ own')
      (retryLoop ctx e left attempt outcome) own := by
  induction left generalizing attempt outcome own with
  | zero => exact hown
  | succ left ih =>
    cases outcome with
    | ok moved => exact hown
    | error error =>
      rw [retryLoop]
      split
      · exact (tracks_runStages hapart he).bind fun _ _ => ih
      · exact hown

theorem tracks_walk : Tracks s plan d0 (fun x own' => x.isOk = true → e ∈ own') (walk ctx e) own :=
  (tracks_runStages hapart he).bind fun _ _ => tracks_retryLoop hapart he

end

variable {op : String}

theorem tracks_record {moved : Nat} {outcome : Except CliError Unit} :
    Tracks s plan d0 (fun _ _ => True) (record ctx op e moved outcome).run own := by
  apply tracks_query rfl
  intro hash
  rw [auditRecord]
  split
  · exact tracks_ensure rfl (fun _ => trivial) fun _ => trivial
  · trivial

theorem tracks_moveFile (hapart : s.Apart plan d0) (he : e ∈ plan.files) :
    Tracks s plan d0 (fun _ _ => True) (moveFile ctx op e).run own := by
  apply tracks_ensure rfl _ (fun _ => trivial)
  intro _
  rw [ExceptT.run_bind_lift]
  apply (tracks_walk hapart he).bind
  intro walked own' hown
  cases walked with
  | error error => exact tracks_record
  | ok moved =>
    intro d others x d' h hx
    refine ⟨own', ?_, tracks_record⟩
    rcases hx with rfl | ⟨front, slot, hentry, hunlinks⟩
    · exact h
    · exact h.unlinks hapart he (Multiset.mem_add.mpr (Or.inl (hown rfl))) hentry hunlinks

theorem tracks_perform {subject : String} {outcome : Except CliError Unit} :
    Tracks s plan d0 (fun _ own' => own' = own) (perform subject outcome).run own := by
  cases outcome with
  | ok _ => rfl
  | error error =>
    rw [perform]
    split
    · rfl
    · exact tracks_query rfl fun _ => rfl

theorem tracks_performed (hapart : s.Apart plan d0) (he : e ∈ plan.files) :
    Tracks s plan d0 (fun _ _ => True) (performed (moveFile ctx op) e).run own := by
  rw [performed, ExceptT.run_bind_lift]
  apply (tracks_moveFile hapart he).bind
  intro outcome own' _
  exact tracks_perform.mono fun _ _ _ => trivial

theorem tracks_moves (hapart : s.Apart plan d0) :
    (moves ctx op plan).run.Upholds s.serves (s.Tracked plan d0) (fun _ _ => True) 0 := by
  rw [moves, ExceptT.run_bind]
  have hdirs : (plan.dirs.forM makeDir).run.Quiet s.serves (s.Tracked plan d0) := by
    apply Prog.quiet_forM
    intro e _
    exact tracks_query rfl fun _ => tracks_perform
  apply (Script.upholds_ofProg hdirs).bind
  rintro x own' rfl
  cases x with
  | error error => trivial
  | ok u =>
    apply Script.upholds_inLanes (plan.files.map fun _ _ => True)
    · rw [List.forall₂_map_left_iff, List.forall₂_map_right_iff, List.forall₂_same]
      intro e he
      exact (tracks_performed hapart he).mono fun _ _ _ _ => trivial
    · exact fun _ _ => trivial
    · exact fun _ _ => trivial

/-- In a run of a move whose paths are apart, whatever fails and in whatever order the files take
their turns, a source file is only gone once its destination path holds what it held. -/
theorem moved_file_is_kept {ctx : Ctx} {op : String} {c : C}
    {p : Script Request Answer CliError (Except CliError Unit)} (hapart : s.Apart plan d0)
    (hreach : Script.Reaches s.serves ctx.lanes (moves ctx op plan).run d0 p d)
    (he : e ∈ plan.files) (hreads : d0.Reads s.start (s.path e .source) c)
    (hgone : ∀ c', ¬d.Reads s.start (s.path e .source) c') :
    d.Reads s.start (s.path e .destination) c := by
  obtain ⟨tokens, htracked, -⟩ := (tracks_moves hapart).reaches tracked_start hreach
  obtain ⟨r, hgoes, hfile⟩ := hreads
  obtain ⟨-, front, slot, hentry⟩ := hapart.leads e he
  rcases htracked.kept e he r c slot ⟨hgoes, hfile, front, hentry⟩ with ⟨htail, hplace⟩ | ⟨-, hslot⟩
  · have hfront := htracked.fronts .source e he _ _ hgoes.entry
    exact absurd ⟨r, hgoes.keep htracked.links hfront htail, hplace⟩ (hgone c)
  · exact (htracked.entry he hentry).reads hslot

def dataDisk : Disk String String
  | [] => some .dir
  | ["data"] => some .dir
  | ["data", "a"] => some (.file "the only copy")
  | ["dst"] => some .dir
  | _ => none

def dataRequest (dest : RemoteSpec) : Prepare.Request :=
  ⟨.ok (.local "/data"), .ok dest, .ok (noLarger none), .ok {}, true, false, false, false⟩

def dataMachine : Prepare.Machine :=
  ⟨id, fun path => some (OsPath.components path), fun _ => .ok (), fun
    | .local _ => holding (lone 13 true)
    | .named .. => .named "" ⟨.ok [⟨"a", some 13, none, none, .ok none, false⟩], [], []⟩⟩

def dataPrepared (dest : RemoteSpec) : Prepare.Prepared :=
  ⟨.local "/data", dest, ⟨[fileEntry (Entry.ofFile "a" 13) "a" (.copy planReasonUntraversed)]⟩, 0⟩

def dataFile : Planned := ⟨0, fileEntry (Entry.ofFile "a" 13) "a" (.copy planReasonUntraversed)⟩

def dataSides (dest : RemoteSpec) : Sides := ⟨[], fun _ => "/data", .local "/data", dest⟩

def threeLanes : Ctx where
  retries := 3
  transfers := 3
  recording := false
  auditPath := "audit.log"
  verifyMode := .checksum
  direction := .into
  remote := "here"
  reaperRemote _ := "here"

theorem directoryTransfer_here :
    Prepare.directoryTransfer dataMachine (dataRequest (.named "here" "")) =
      .ok (dataPrepared (.named "here" "")) := by
  have hsource : Listing.source dataMachine.nfc (noLarger none) "/data"
      (dataMachine.stands (.local "/data")) = .ok (loneListing 13) :=
    source_of_enumerate (enumerate_holding rfl (Nat.le_refl 1)) rfl (collisions_loneListing 13)
  have hdiff : Prepare.diffDirectoryTransfer dataMachine (dataRequest (.named "here" "")) =
      .ok (dataPrepared (.named "here" "")) := by
    have hself : Prepare.rejectSelfTransfer dataMachine.canonicalize (.local "/data")
        (.named "here" "") = .ok () := rfl
    rw [Prepare.diffDirectoryTransfer, dataRequest]
    simp only [ok_bind, hself, RemoteSpec.display, hsource]
    rfl
  rw [Prepare.directoryTransfer, Prepare.gated, hdiff]
  rfl

def dataAnswers (goal : String) (d : Disk String String) :
    (r : Request) → Answer r × Disk String String
  | .deadline _ => (none, d)
  | .upload _ e =>
    if (d ["data"] = some .dir ∧ d [goal] = some .dir) ∧
        d ["data", "a"] = some (.file "the only copy") ∧ e = dataFile then
      (.ok 13, fun q => if q = [goal, "a"] then some (.file "the only copy") else d q)
    else (.error ⟨.fatalError, "", none⟩, d)
  | .takePlaintextHash _ => ("", d)
  | .remove t path =>
    if d ["data"] = some .dir ∧ t = .source ∧ path = "a" then
      (.ok (), fun q => if q = ["data", "a"] then none else d q)
    else (.ok (), d)
  | .settle .. | .fileDone _ | .recordFailure .. => ((), d)
  | .afford _ | .read .. | .encrypt .. | .verify .. | .commit .. | .createDir _ | .append _ =>
    (.ok (), d)

theorem entry_under {d : Disk String String} {dir : String} (hdir : d [dir] = some .dir)
    {path : List (Hop String)} (hpath : path = [.root, .name dir, .name "a"]) :
    d.Entry [] path [] [dir, "a"] := by
  refine ⟨[.root, .name dir], "a", [dir], hpath, .root (.name ?_ (.done _)), rfl⟩
  intro u hu
  rw [nil_append, hdir] at hu
  cases hu

variable {dest : RemoteSpec} {goal : String}

theorem serves_dataAnswers
    (hgoal : (dataSides dest).below dest "a" = [.root, .name goal, .name "a"])
    (d : Disk String String) (r : Request) :
    (dataSides dest).serves d r (dataAnswers goal d r).1 (dataAnswers goal d r).2 := by
  have hsource : (dataSides dest).below (.local "/data") "a" =
      [.root, .name "data", .name "a"] := (by decide : hops "/data" ++ pushed "a" = _)
  cases r
  case upload attempt e =>
    rw [dataAnswers]
    split
    · rename_i h
      obtain ⟨⟨hdata, hdir⟩, hfile, rfl⟩ := h
      refine ⟨_, _, _, (entry_under hdata hsource).reads hfile, entry_under hdir hgoal, ?_, ?_⟩
      · exact if_pos rfl
      · intro q hq
        exact Or.inl (if_neg hq)
    · exact Or.inl (Disk.MakesDirs.refl d)
  case remove t path =>
    rw [dataAnswers]
    split
    · rename_i h
      obtain ⟨hdata, rfl, rfl⟩ := h
      refine Or.inr ⟨_, _, entry_under hdata hsource, ?_, ?_⟩
      · show (if ["data", "a"] = ["data", "a"] then none else d ["data", "a"]) = none
        exact if_pos rfl
      · intro q hq
        exact if_neg hq
    · exact Or.inl rfl
  case createDir => exact Disk.MakesDirs.refl d
  all_goals exact rfl

def dataEnd (goal : String) : Disk String String :=
  ((performed (moveFile threeLanes "move") dataFile).run.eval (dataAnswers goal) dataDisk).2

theorem dataEnd_reached
    (hgoal : (dataSides dest).below dest "a" = [.root, .name goal, .name "a"])
    (hok : ((performed (moveFile threeLanes "move") dataFile).run.eval (dataAnswers goal)
      dataDisk).1 = .ok ()) :
    Script.Reaches (dataSides dest).serves threeLanes.lanes
      (moves threeLanes "move" (dataPrepared dest).plan).run dataDisk (.done (.ok ()))
      (dataEnd goal) := by
  have hrun : Prog.Run (dataSides dest).serves
      (performed (moveFile threeLanes "move") dataFile).run dataDisk _ (dataEnd goal) :=
    Prog.run_eval (serves_dataAnswers hgoal) _ _
  rw [hok] at hrun
  rw [← Script.bind_done (moves threeLanes "move" (dataPrepared dest).plan).run]
  exact reaches_moves (Prog.Run.done _ _) (.cons hrun rfl (.nil _))

/-- A move of a directory into a remote that is the same directory is accepted, and removes the file
that it copied onto itself. -/
theorem move_onto_itself :
    Prepare.directoryTransfer dataMachine (dataRequest (.named "here" "")) =
        .ok (dataPrepared (.named "here" "")) ∧
      dataFile ∈ (dataPrepared (.named "here" "")).plan.files ∧
      dataDisk.Reads [] ((dataSides (.named "here" "")).path dataFile .source) "the only copy" ∧
      ∃ p d, Script.Reaches (dataSides (.named "here" "")).serves threeLanes.lanes
        (moves threeLanes "move" (dataPrepared (.named "here" "")).plan).run dataDisk p d ∧
        (∀ c, ¬d.Reads [] ((dataSides (.named "here" "")).path dataFile .source) c) ∧
        ∀ c, ¬d.Reads [] ((dataSides (.named "here" "")).path dataFile .destination) c := by
  have hnone : dataEnd "data" ["data", "a"] = none := rfl
  have hgone :
      ∀ t c, ¬(dataEnd "data").Reads [] ((dataSides (.named "here" "")).path dataFile t) c := by
    intro t c
    have hentry : (dataEnd "data").Entry [] ((dataSides (.named "here" "")).path dataFile t) []
        ["data", "a"] := by
      cases t
      · exact entry_under rfl (by decide)
      · exact entry_under rfl (by decide)
    apply hentry.not_reads
    rw [hnone]
    exact nofun
  exact ⟨directoryTransfer_here, mem_singleton.mpr rfl, (@entry_under _ "data" rfl _
    (by decide)).reads rfl, _, _, dataEnd_reached (by decide) rfl, hgone .source,
      hgone .destination⟩

theorem apart_dst :
    (dataSides (.local "/dst")).Apart (dataPrepared (.local "/dst")).plan dataDisk := by
  have hno : ∀ q u, dataDisk q ≠ some (.link u) := by
    intro q u
    rw [dataDisk.eq_def]
    split <;> exact nofun
  have hfiles : ∀ e ∈ (dataPrepared (.local "/dst")).plan.files, e = dataFile :=
    fun e he => mem_singleton.mp he
  apply @apart_of_rejectSelfTransfer _ _ _ _ dataMachine.canonicalize
    (fun | .source => "/data" | .destination => "/dst")
    (fun | .source => ["data"] | .destination => ["dst"]) (fun _ => [])
  · decide
  · intro t
    cases t <;> rfl
  · intro t
    cases t <;> decide
  · intro t
    cases t <;> exact .root (.name (hno _) (.done _))
  · intro t q _
    exact hno q
  · intro t e he
    rw [hfiles e he]
    exact ⟨[], "a", by cases t <;> decide⟩
  · intro t e he e' he' hne
    exact absurd ((hfiles e he).trans (hfiles e' he').symm) hne

theorem moved_file_is_kept_dst : (dataEnd "dst").Reads [] ((dataSides (.local "/dst")).path dataFile
    .destination) "the only copy" := by
  have hgone : ∀ c', ¬(dataEnd "dst").Reads [] ((dataSides (.local "/dst")).path dataFile .source)
      c' := by
    intro c'
    have hentry : (dataEnd "dst").Entry [] ((dataSides (.local "/dst")).path dataFile .source) []
        ["data", "a"] := entry_under rfl (by decide)
    apply hentry.not_reads
    have hnone : dataEnd "dst" ["data", "a"] = none := rfl
    rw [hnone]
    exact nofun
  exact moved_file_is_kept apart_dst (dataEnd_reached (by decide) rfl) (mem_singleton.mpr rfl)
    ((@entry_under _ "data" rfl _ (by decide)).reads rfl) hgone

end Sides

end Dctl.Transfer
