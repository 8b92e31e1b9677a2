import Dctl.Store.LocalTree

/-! What the walk of a local tree does: what each visit gives, that every walk ends, and what is
found in the end. -/

namespace Dctl.Store.LocalFs

open ProofKit Transfer List Prog

variable {policy : LinkPolicy} {want : Want} {confine : Option (List Name)} {m : Machine}
  {p : Pending} {entry : DirEntry} {x : Given} {path place : List Name}

def Confined (policy : LinkPolicy) (confine : Option (List Name)) (place : List Name) : Prop :=
  policy = .inTree → ∀ base, confine = some base → base <+: place

/-- The chain of a subdirectory. -/
inductive Descends (m : Machine) (path : List Name) : Option (List Nat) → Option (List Nat) → Prop
  | none : Descends m path none none
  | kept (chain : List Nat) : Descends m path (some chain) (some chain)
  | longer {place : List Name} {node : DiskNode Name Leaf} (chain : List Nat) :
      m.At path place node → Descends m path (some chain) (some (m.ident place :: chain))

/-- What an entry may give. -/
inductive EntryGives (m : Machine) (policy : LinkPolicy) (want : Want)
    (confine : Option (List Name))
    (p : Pending) (entry : DirEntry) : Given → Prop
  | file : entry.fileType = .ok .file →
      EntryGives m policy want confine p entry
        (emit want (relativeKey (p.path ++ [entry.name])), [])
  | dir {a : Option (List Nat)} : entry.fileType = .ok .dir →
      Descends m (p.path ++ [entry.name]) p.ancestors a →
      EntryGives m policy want confine p entry ([], [⟨p.path ++ [entry.name], a⟩])
  | special (kind : SpecialKind) : entry.fileType = .ok .special →
      EntryGives m policy want confine p entry
        ([.special (relativeKey (p.path ++ [entry.name])) kind], [])
  | passed (verdict : LinkVerdict) : entry.fileType = .ok .symlink →
      EntryGives m policy want confine p entry
        ([.link (relativeKey (p.path ++ [entry.name])) verdict], [])
  | linkFile {place : List Name} {size : Nat} {modified : Option Int} :
      entry.fileType = .ok .symlink → policy.follows = true →
      m.At (p.path ++ [entry.name]) place (.file (.regular size modified)) →
      Confined policy confine place →
      EntryGives m policy want confine p entry
        (.link (relativeKey (p.path ++ [entry.name])) .followed ::
          emit want (relativeKey (p.path ++ [entry.name])), [])
  | linkDir {place : List Name} : entry.fileType = .ok .symlink → policy.follows = true →
      m.At (p.path ++ [entry.name]) place .dir → Confined policy confine place →
      (∀ chain, p.ancestors = some chain → m.ident place ∉ chain) →
      EntryGives m policy want confine p entry
        ([.link (relativeKey (p.path ++ [entry.name])) .followed],
          [⟨p.path ++ [entry.name], p.ancestors.map (m.ident place :: ·)⟩])

theorem Machine.At.unique {place' : List Name} {node node' : DiskNode Name Leaf}
    (h : m.At path place node) (h' : m.At path place' node') : place = place' ∧ node = node' := by
  obtain rfl := h.1.unique h'.1
  have hnode := h.2.symm.trans h'.2
  exact ⟨rfl, Option.some.inj hnode⟩

theorem run_land {landed : LinkTarget} {node : DiskNode Name Leaf} (hat : m.At path place node)
    (h : Prog.Run m.mayFail (land confine path).run () (.ok landed) ()) (hin : landed = .inside) :
    ∀ base, confine = some base → base <+: place := by
  subst hin
  rintro base rfl
  rw [land, run_query_bind] at h
  obtain ⟨x, ⟨⟩, hserve, hend⟩ := h
  cases x with
  | error e =>
    obtain ⟨hx, -⟩ := run_pure.mp hend
    cases hx
  | ok resolved =>
    obtain ⟨hx, -⟩ := run_pure.mp hend
    obtain ⟨node', hat'⟩ := hserve
    obtain ⟨rfl, -⟩ := hat.unique hat'
    split at hx
    next hprefix => exact isPrefixOf_iff_prefix.mp hprefix
    next => cases hx

theorem run_descend {a : Option (List Nat)}
    (h : Prog.Run m.mayFail (descend p.ancestors path).run () (.ok a) ()) :
    Descends m path p.ancestors a := by
  cases hchain : p.ancestors with
  | none =>
    rw [hchain] at h
    obtain ⟨hx, -⟩ := run_pure.mp h
    cases hx
    exact .none
  | some chain =>
    rw [hchain, descend, run_query_bind] at h
    obtain ⟨x, ⟨⟩, hserve, hend⟩ := h
    cases x with
    | error e =>
      obtain ⟨hx, -⟩ := run_pure.mp hend
      cases hx
      exact .kept chain
    | ok found =>
      obtain ⟨hx, -⟩ := run_pure.mp hend
      cases hx
      obtain ⟨place, node, hat, rfl⟩ := hserve
      exact .longer chain hat

theorem enter_gives {node : DiskNode Name Leaf} (htype : entry.fileType = .ok .symlink)
    (hfollows : policy.follows = true) (hat : m.At (p.path ++ [entry.name]) place node)
    (hconfined : Confined policy confine place) :
    EntryGives m policy want confine p entry (enter want p.ancestors (p.path ++ [entry.name])
      (relativeKey (p.path ++ [entry.name])) ⟨m.ident place, entryType node⟩) := by
  rw [enter]
  cases node with
  | dir =>
    simp only [entryType]
    split
    next => exact .passed .cycle htype
    next hcycle =>
      refine .linkDir htype hfollows hat hconfined ?_
      intro chain hchain hmem
      rw [hchain] at hcycle
      exact hcycle (by simpa using hmem)
  | file leaf =>
    cases leaf with
    | regular size modified => exact .linkFile htype hfollows hat hconfined
    | special kind => exact .passed .notStorable htype
  | link target => exact .passed .notStorable htype

theorem run_follow (htype : entry.fileType = .ok .symlink)
    (h : Prog.Run m.mayFail (follow policy want confine p.ancestors (p.path ++ [entry.name])
      (relativeKey (p.path ++ [entry.name]))).run () (.ok x) ()) :
    EntryGives m policy want confine p entry x := by
  rw [follow] at h
  split at h
  next =>
    obtain ⟨hx, -⟩ := run_pure.mp h
    cases hx
    exact .passed _ htype
  next hfollows =>
    rw [run_query_bind] at h
    obtain ⟨y, ⟨⟩, hserve, hrest⟩ := h
    cases y with
    | error e =>
      obtain ⟨hx, -⟩ := run_pure.mp hrest
      cases hx
      exact .passed _ htype
    | ok target =>
      obtain ⟨place, node, hat, rfl⟩ := hserve
      obtain ⟨landed, ⟨⟩, hland, hend⟩ := run_bind_ok.mp hrest
      simp only at hend
      split at hend
      next =>
        obtain ⟨hx, -⟩ := run_pure.mp hend
        cases hx
        exact .passed _ htype
      next hverdict =>
        obtain ⟨hx, -⟩ := run_pure.mp hend
        cases hx
        refine enter_gives htype (by simpa using hfollows) hat ?_
        rintro rfl
        refine run_land hat hland ?_
        -- Under `inTree` only what landed inside is followed.
        cases landed <;> simp_all [LinkPolicy.decide]

theorem run_visitEntry
    (h : Prog.Run m.mayFail (visitEntry policy want confine p entry).run () (.ok x) ()) :
    EntryGives m policy want confine p entry x := by
  rw [visitEntry] at h
  split at h
  next e _ => exact absurd (run_throw.mp h).1 nofun
  next htype => exact run_follow htype h
  next htype =>
    obtain ⟨a, ⟨⟩, hdescend, hend⟩ := run_bind_ok.mp h
    obtain ⟨hx, -⟩ := run_pure.mp hend
    cases hx
    exact .dir htype (run_descend hdescend)
  next htype =>
    obtain ⟨hx, -⟩ := run_pure.mp h
    cases hx
    exact .file htype
  next htype =>
    obtain ⟨kind, ⟨⟩, -, hend⟩ := run_bind_ok.mp h
    obtain ⟨hx, -⟩ := run_pure.mp hend
    cases hx
    exact .special kind htype

/-- What a visit may give: nothing where the directory is missing, else what its entries give. -/
inductive VisitGives (m : Machine) (policy : LinkPolicy) (want : Want)
    (confine : Option (List Name))
    (gone : Prop) (p : Pending) : Given → Prop
  | missing : gone → VisitGives m policy want confine gone p ([], [])
  | read {place : List Name} {entries : List DirEntry} {xs : List Given} :
      m.At p.path place .dir → m.Lists place entries none →
      List.Forall₂ (EntryGives m policy want confine p) entries xs →
      VisitGives m policy want confine gone p (xs.flatMap (·.1), xs.reverse.flatMap (·.2))

theorem run_visit {serve : Prog.Server Unit FsRequest FsRequest.Answer} {gone : Prop} {s s' : Unit}
    (htruth : ∀ s r x s', serve s r x s' → m.Truthful r x)
    (hgone : ∀ s e s', serve s (.readDir p.path) (.error e) s' → e.kind = .notFound → gone)
    (h : Prog.Run serve (visit policy want confine p).run s (.ok x) s') :
    VisitGives m policy want confine gone p x := by
  rw [visit, run_query_bind] at h
  obtain ⟨answer, s₁, hserve, hrest⟩ := h
  cases answer with
  | error e =>
    simp only at hrest
    split at hrest
    next hkind =>
      obtain ⟨hx, -⟩ := run_pure.mp hrest
      cases hx
      exact .missing (hgone _ _ _ hserve hkind)
    next => exact absurd (run_throw.mp hrest).1 nofun
  | ok listed =>
    obtain ⟨entries, broke⟩ := listed
    obtain ⟨place, hat, hlists⟩ := htruth _ _ _ _ hserve
    obtain ⟨given, s₂, hgather, hend⟩ := run_bind_ok.mp hrest
    cases broke with
    | some e => exact absurd (run_throw.mp hend).1 nofun
    | none =>
      obtain ⟨hx, -⟩ := run_pure.mp hend
      cases hx
      obtain ⟨-, xs, hxs, hfound, hpushed⟩ := run_gather (fun _ => trivial)
        (fun _ _ => trivial) (fun _ _ _ _ _ => trivial)
        (hgather.mono fun s r y s' hy => htruth s r y s' hy)
      obtain ⟨found, pushed⟩ := x
      simp only at hfound hpushed
      rw [hfound, hpushed]
      refine .read hat hlists (hxs.imp ?_)
      rintro entry given ⟨⟨⟩, ⟨⟩, -, -, hrun⟩
      exact run_visitEntry hrun

/-- A path that a walk can take: over directories, and over links if it follows them. -/
inductive Walkable (m : Machine) (follows : Bool) : List Name → Prop
  | root : Walkable m follows []
  | step {path place : List Name} {n : Name} {node : DiskNode Name Leaf} :
      Walkable m follows path → m.At path place .dir → m.tree.disk (place ++ [n]) = some node →
      (follows = true ∨ ∀ target, node ≠ .link target) → Walkable m follows (path ++ [n])

/-- What holds of every path that the walk comes to. -/
structure Reached (m : Machine) (policy : LinkPolicy) (confine : Option (List Name))
    (path : List Name) : Prop where
  walkable : Walkable m policy.follows path
  valid : ∀ n ∈ path, ValidName n
  inside : policy = .inTree → confine = some m.root → ∀ place node, m.At path place node →
    m.root <+: place

theorem reached_root : Reached m policy confine [] where
  walkable := .root
  valid := nofun
  inside := by
    rintro - - place node ⟨hleads, -⟩
    rw [hleads.unique Tree.leads_nil]

theorem Machine.At.child {n : Name} {node node' : DiskNode Name Leaf} {place' : List Name}
    (hat : m.At path place .dir) (hnode : m.tree.disk (place ++ [n]) = some node)
    (hno : ∀ target, node ≠ .link target) (h : m.At (path ++ [n]) place' node') :
    place' = place ++ [n] ∧ node' = node := by
  have hthere : m.At (path ++ [n]) (place ++ [n]) node := by
    refine ⟨hat.1.concat fun target htarget => ?_, hnode⟩
    exact hno target (Option.some.inj (hnode.symm.trans htarget))
  exact h.unique hthere

theorem Machine.At.there {n : Name} {node : DiskNode Name Leaf} (hat : m.At path place .dir)
    (hnode : m.tree.disk (place ++ [n]) = some node) (hno : ∀ target, node ≠ .link target) :
    m.At (path ++ [n]) (place ++ [n]) node := by
  refine ⟨hat.1.concat fun target htarget => ?_, hnode⟩
  exact hno target (Option.some.inj (hnode.symm.trans htarget))

section Step

variable {n : Name} {node node' : DiskNode Name Leaf} {place' : List Name}

theorem Reached.valid_concat (h : Reached m policy confine path)
    (hnode : m.tree.disk (place ++ [n]) = some node) : ∀ a ∈ path ++ [n], ValidName a := by
  intro a ha
  rcases mem_append.mp ha with ha | ha
  · exact h.valid a ha
  · rw [mem_singleton.mp ha]
    apply m.tree.valid place n
    rw [hnode]
    exact Option.some_ne_none node

section

variable (h : Reached m policy confine path) (hat : m.At path place .dir)
  (hnode : m.tree.disk (place ++ [n]) = some node)
include h hat hnode

theorem Reached.child (hno : ∀ target, node ≠ .link target) :
    Reached m policy confine (path ++ [n]) where
  walkable := .step h.walkable hat hnode (.inr hno)
  valid := h.valid_concat hnode
  inside := by
    intro hpolicy hconfine place' node' hat'
    obtain ⟨rfl, -⟩ := hat.child hnode hno hat'
    exact (h.inside hpolicy hconfine place _ hat).trans (prefix_append _ _)

theorem Reached.link (hfollows : policy.follows = true) (hat' : m.At (path ++ [n]) place' node')
    (hconfined : Confined policy confine place') :
    Reached m policy confine (path ++ [n]) where
  walkable := .step h.walkable hat hnode (.inl hfollows)
  valid := h.valid_concat hnode
  inside := by
    intro hpolicy hconfine place'' node'' hat''
    obtain ⟨rfl, -⟩ := hat'.unique hat''
    exact hconfined hpolicy _ hconfine

end

end Step

/-- The path leads to a regular file. -/
def Machine.File (m : Machine) (path : List Name) : Prop :=
  ∃ place size modified, m.At path place (.file (.regular size modified))

structure EntryReached (m : Machine) (policy : LinkPolicy) (want : Want)
    (confine : Option (List Name)) (path : List Name) (x : Given) : Prop where
  objects : Finding.objects x.1 = [] ∨ Finding.objects x.1 = [relativeKey path] ∧
    want.keeps (relativeKey path) = true ∧ Reached m policy confine path ∧ m.File path
  pushed : x.2 = [] ∨ ∃ a, x.2 = [⟨path, a⟩] ∧ Reached m policy confine path

theorem objects_emit (want : Want) (key : String) :
    Finding.objects (emit want key) = [] ∨
      Finding.objects (emit want key) = [key] ∧ want.keeps key = true := by
  rw [emit]
  split
  next hkeeps => exact .inr ⟨rfl, hkeeps⟩
  next => exact .inl rfl

theorem EntryGives.reached (h : EntryGives m policy want confine p entry x)
    (hp : Reached m policy confine p.path) (hat : m.At p.path place .dir)
    (htruth : ∃ node, m.tree.disk (place ++ [entry.name]) = some node ∧
      ∀ type, entry.fileType = .ok type → type = entryType node) :
    EntryReached m policy want confine (p.path ++ [entry.name]) x := by
  obtain ⟨node, hnode, htype⟩ := htruth
  have hno : ∀ type, entry.fileType = .ok type → type ≠ .symlink →
      ∀ target, node ≠ .link target := by
    rintro type hfile hne target rfl
    exact hne (htype type hfile)
  cases h with
  | file hfile =>
    have hno := hno _ hfile nofun
    refine ⟨(objects_emit want _).imp_right fun h =>
      ⟨h.1, h.2, hp.child hat hnode hno, ?_⟩, .inl rfl⟩
    have hentry := htype _ hfile
    match node, hentry with
    | .file (.regular size modified), _ => exact ⟨_, size, modified, hat.there hnode hno⟩
  | dir hdir _ => exact ⟨.inl rfl, .inr ⟨_, rfl, hp.child hat hnode (hno _ hdir nofun)⟩⟩
  | special => exact ⟨.inl rfl, .inl rfl⟩
  | passed => exact ⟨.inl rfl, .inl rfl⟩
  | linkFile _ hfollows hat' hconfined =>
    refine ⟨(objects_emit want _).imp_right fun h => ⟨h.1, h.2, ?_, ⟨_, _, _, hat'⟩⟩, .inl rfl⟩
    exact hp.link hat hnode hfollows hat' hconfined
  | linkDir _ hfollows hat' hconfined _ =>
    exact ⟨.inl rfl, .inr ⟨_, rfl, hp.link hat hnode hfollows hat' hconfined⟩⟩

theorem EntryGives.pushed (h : EntryGives m policy want confine p entry x) :
    x.2.map (·.path) = [] ∨ x.2.map (·.path) = [p.path ++ [entry.name]] := by
  cases h with
  | file => exact .inl rfl
  | dir => exact .inr rfl
  | special => exact .inl rfl
  | passed => exact .inl rfl
  | linkFile => exact .inl rfl
  | linkDir => exact .inr rfl

section

variable {gone : Prop} (h : VisitGives m policy want confine gone p x)
include h

theorem VisitGives.pushed :
    ∃ names : List Name, names.Nodup ∧ x.2.map (·.path) = names.map (p.path ++ [·]) := by
  cases h with
  | missing => exact ⟨[], nodup_nil, rfl⟩
  | @read place entries xs _ hlists hgives =>
    have hone : List.Forall₂ (fun e (x : Given) => x.2.map (·.path) = [] ∨
        x.2.map (·.path) = [p.path ++ [e.name]] ∧ True) entries.reverse xs.reverse :=
      rel_reverse (hgives.imp fun e x hx => hx.pushed.imp_right fun h => ⟨h, trivial⟩)
    obtain ⟨names, hsub, hout, -⟩ :=
      flatMap_of_names DirEntry.name (fun x : Given => x.2.map (·.path))
      (fun n => p.path ++ [n]) (fun _ => True) hone
    refine ⟨names, hsub.nodup ?_, ?_⟩
    · rw [map_reverse]
      exact nodup_reverse.mpr hlists.nodup
    · rw [← hout, map_flatMap]

theorem VisitGives.reached (hp : Reached m policy confine p.path) :
    (∃ names : List Name, names.Nodup ∧
      Finding.objects x.1 = names.map (fun n => relativeKey (p.path ++ [n])) ∧
      ∀ n ∈ names, want.keeps (relativeKey (p.path ++ [n])) = true ∧
        Reached m policy confine (p.path ++ [n]) ∧ m.File (p.path ++ [n])) ∧
    ∀ q ∈ x.2, Reached m policy confine q.path := by
  cases h with
  | missing => exact ⟨⟨[], nodup_nil, rfl, nofun⟩, nofun⟩
  | @read place entries xs hat hlists hgives =>
    have hreached :
        List.Forall₂ (fun e x => EntryReached m policy want confine (p.path ++ [e.name]) x)
        entries xs := by
      have hall : ∀ e ∈ entries, ∃ node, m.tree.disk (place ++ [e.name]) = some node ∧
          ∀ type, e.fileType = .ok type → type = entryType node := hlists.truthful
      clear hlists
      induction hgives with
      | nil => exact .nil
      | cons hx _ ih =>
        obtain ⟨hfirst, hrest⟩ := forall_mem_cons.mp hall
        exact .cons (hx.reached hp hat hfirst) (ih hrest)
    constructor
    · have hobjects : List.Forall₂ (fun e (x : Given) => Finding.objects x.1 = [] ∨
          Finding.objects x.1 = [relativeKey (p.path ++ [e.name])] ∧
          want.keeps (relativeKey (p.path ++ [e.name])) = true ∧
          Reached m policy confine (p.path ++ [e.name]) ∧ m.File (p.path ++ [e.name])) entries xs :=
        hreached.imp fun e x hx => hx.objects
      obtain ⟨names, hsub, hout, hgood⟩ := flatMap_of_names DirEntry.name
        (fun x : Given => Finding.objects x.1) (fun n => relativeKey (p.path ++ [n]))
        (fun n => want.keeps (relativeKey (p.path ++ [n])) = true ∧
          Reached m policy confine (p.path ++ [n]) ∧ m.File (p.path ++ [n])) hobjects
      refine ⟨names, hsub.nodup hlists.nodup, ?_, hgood⟩
      rw [← hout, Finding.objects, filterMap_flatMap]
      rfl
    · intro q hq
      obtain ⟨x, hx, hqx⟩ := mem_flatMap.mp hq
      rw [mem_reverse] at hx
      obtain ⟨e, -, hx⟩ := forall₂_exists_left hreached hx
      rcases hx.pushed with hnone | ⟨a, hone, hq⟩
      · rw [hnone] at hqx
        cases hqx
      · rw [hone, mem_singleton] at hqx
        rwa [hqx]

end

end Dctl.Store.LocalFs
