import Dctl.Cli.RemoteSpec
import Dctl.ProofKit.Disk

/-! The place that a typed path names (`platform/resolve.rs`), against where the system takes the
path. -/

namespace Dctl.Cli

open ProofKit List

def hop (component : String) : Option (Hop String) :=
  if component = "" ∨ component = "." then none
  else if component = OsPath.rootDir then some .root
  else if component = ".." then some .up
  else some (.name component)

def hops (path : String) : List (Hop String) := (OsPath.components path).filterMap hop

def pushed (logical : String) : List (Hop String) :=
  ((logical.toList.splitOn pathSeparator).map String.ofList).filterMap hop

def pathSymlinkResolutionLimit : Nat := 40

/-- What a command finds on its machine: the disk, the resolved working directory, and how many
steps the system takes over a path before it gives up. -/
structure Ground (C : Type) where
  disk : Disk String C
  cwd : List String
  steps : Nat
  canonical : disk.Canonical cwd

/-- The path that a link at a place stands for, from the root. -/
def followed (place : List String) (target : List (Hop String)) : List (Hop String) :=
  if target.head? = some .root then target
  else .root :: (place.dropLast.map .name ++ target)

def walkWith (resolveInPlace : List String → List String) (real : List String)
    (path : List (Hop String)) : List String :=
  path.foldl (fun real hop =>
    match hop with
    | .root => []
    | .up => (resolveInPlace real).dropLast
    | .name n => resolveInPlace (real ++ [n])) real

namespace Ground

variable {C : Type} (g : Ground C)

def resolveInPlace : (budget : Nat) → (place : List String) → List String
  | 0, place => (g.disk.follow g.steps [] (place.map .name)).getD place
  | budget + 1, place =>
    match g.disk.follow g.steps [] (place.map .name), g.disk place with
    | some real, _ => real
    | none, some (.link target) =>
      walkWith (fun p => resolveInPlace budget p) g.cwd (followed place target)
    | none, _ => place

def walk (path : List (Hop String)) (budget : Nat) : List String :=
  walkWith (g.resolveInPlace budget) g.cwd path

def realPath (path : String) : Option (List String) :=
  if path = "" then none else some (g.walk (hops path) pathSymlinkResolutionLimit)

variable {g} {here place : List String} {path : List (Hop String)} {via : List (List String)}
  {budget : Nat} {n : String}

theorem resolveInPlace_of_canonical (h : g.disk.Canonical place) :
    g.resolveInPlace budget place = place := by
  have hfollow : ∀ real, g.disk.follow g.steps [] (place.map .name) = some real → real = place := by
    intro real hreal
    obtain ⟨via, hleads⟩ := Disk.leads_of_follow hreal
    exact (hleads.unique h.leads).2
  cases budget with
  | zero =>
    rw [resolveInPlace]
    cases hf : g.disk.follow g.steps [] (place.map .name) with
    | none => rfl
    | some real => exact hfollow real hf
  | succ budget =>
    rw [resolveInPlace]
    split
    · rename_i real hreal
      exact hfollow real hreal
    · rename_i t hnone hlink
      by_cases hplace : place = []
      · subst hplace
        simp at hnone
      · exact absurd hlink (h place hplace (prefix_refl _) t)
    · rfl

theorem walkWith_append {f : List String → List String} {rest : List (Hop String)} :
    walkWith f here (path ++ rest) = walkWith f (walkWith f here path) rest := by
  simp [walkWith]

theorem walkWith_eq (hname : ∀ here n via place, g.disk.Canonical here →
      g.disk.Leads here [.name n] via place → via.length ≤ budget →
      g.resolveInPlace budget (here ++ [n]) = place)
    (hhere : g.disk.Canonical here) (hleads : g.disk.Leads here path via place)
    (hlength : via.length ≤ budget) :
    walkWith (g.resolveInPlace budget) here path = place := by
  induction path generalizing here via with
  | nil =>
    cases hleads
    rfl
  | cons hop rest ih =>
    rw [← singleton_append] at hleads
    obtain ⟨first, mid, last, hfirst, hlast, rfl⟩ := hleads.split
    rw [length_append] at hlength
    have hmid : g.disk.Canonical mid := hfirst.canonical hhere
    have hstep : walkWith (g.resolveInPlace budget) here [hop] = mid := by
      cases hop with
      | root =>
        cases hfirst with
        | root h =>
          cases h
          rfl
      | up =>
        cases hfirst with
        | up h =>
          cases h
          exact congrArg List.dropLast (resolveInPlace_of_canonical hhere)
      | name n => exact hname here n first mid hhere hfirst (by omega)
    show walkWith (g.resolveInPlace budget) here ([hop] ++ rest) = place
    rw [walkWith_append, hstep]
    exact ih hmid hlast (by omega)

/-- A name is resolved to where it leads, however many dangling links are on the way. -/
theorem resolveInPlace_eq (hhere : g.disk.Canonical here)
    (hleads : g.disk.Leads here [.name n] via place) (hlength : via.length ≤ budget) :
    g.resolveInPlace budget (here ++ [n]) = place := by
  induction budget generalizing here n via place with
  | zero =>
    cases hleads with
    | name hno hrest =>
      cases hrest
      exact resolveInPlace_of_canonical (hhere.snoc hno)
    | link => simp at hlength
  | succ budget ih =>
    cases hleads with
    | name hno hrest =>
      cases hrest
      exact resolveInPlace_of_canonical (hhere.snoc hno)
    | @link _ _ _ _ target via hlink hrest =>
      rw [append_nil] at hrest
      have hshort : via.length ≤ budget := by
        rw [length_cons] at hlength
        omega
      rw [resolveInPlace, hlink]
      split
      · rename_i real hreal
        obtain ⟨via', hreal⟩ := Disk.leads_of_follow hreal
        have hroot := hhere.leads.append
          (Disk.Leads.link hlink (by rwa [append_nil]) : g.disk.Leads here [.name n] _ place)
        rw [map_append] at hreal
        exact (hreal.unique hroot).2
      · rename_i t hnone ht
        cases ht
        -- A dangling link: its target is walked again from the root.
        rw [followed, dropLast_concat]
        split
        · rename_i habsolute
          obtain ⟨rest, rfl⟩ := List.head?_eq_some_iff.mp habsolute
          cases hrest with
          | root hrest =>
            exact walkWith_eq (fun _ _ _ _ => ih) g.canonical (.root hrest) hshort
        · exact walkWith_eq (fun _ _ _ _ => ih) g.canonical
            (.root (hhere.leads.append hrest)) hshort
      · rename_i hno
        exact absurd rfl (hno target)

theorem realPath_eq {path : String} (hpath : path ≠ "")
    (hleads : g.disk.Leads g.cwd (hops path) via place)
    (hlength : via.length ≤ pathSymlinkResolutionLimit) : g.realPath path = some place := by
  rw [realPath, if_neg hpath, walk]
  exact congrArg some
    (walkWith_eq (fun _ _ _ _ => resolveInPlace_eq) g.canonical hleads hlength)

def systemLinkLimit : Nat := 40

/-- A write to the path, once directories are made where nothing was, makes or replaces the file at
`place`. -/
def WritesTo (g : Ground C) (path : String) (place : List String) : Prop :=
  ∃ d', g.disk.MakesDirs d' ∧ d'.Opens systemLinkLimit g.cwd (hops path) place

/-- The resolver says where a write makes or replaces a file, and two paths to one place have the
same answer. -/
theorem realPath_of_writesTo {g : Ground C} {path : String} (hpath : path ≠ "")
    (h : g.WritesTo path place) :
    g.realPath path = some place ∧ g.disk.Canonical place ∧
      ∀ path', path' ≠ "" → g.WritesTo path' place → g.realPath path' = g.realPath path := by
  have hreal : ∀ path', path' ≠ "" → g.WritesTo path' place →
      g.realPath path' = some place ∧ g.disk.Canonical place := by
    rintro path' hpath' ⟨d', hmade, hopens⟩
    obtain ⟨via, hleads, hlength⟩ := hopens.leads
    exact ⟨realPath_eq hpath' (hmade.leads hleads) hlength,
      (hmade.leads hleads).canonical g.canonical⟩
  obtain ⟨hplace, hcanonical⟩ := hreal path hpath h
  refine ⟨hplace, hcanonical, fun path' hpath' h' => ?_⟩
  rw [(hreal path' hpath' h').1, hplace]

end Ground

/-- The vault `/srv/vault`, a link to it, and a dangling link that goes over that link into it. -/
def linkedGround : Ground Unit where
  disk
    | [] => some .dir
    | ["srv"] => some .dir
    | ["srv", "vault"] => some .dir
    | ["home"] => some .dir
    | ["home", "v"] => some (.link [.up, .name "srv", .name "vault"])
    | ["home", "next"] => some (.link [.name "v", .name "new"])
    | _ => none
  cwd := ["home"]
  steps := 4096
  canonical := by
    intro q hq hpre t
    rcases prefix_cons_iff.mp hpre with rfl | ⟨rest, rfl, hrest⟩
    · exact absurd rfl hq
    · rw [prefix_nil.mp hrest]
      exact nofun

/-- A path over a missing directory and two links, the second of them dangling, and the plain path
to the same file. -/
theorem realPath_of_writesTo_next :
    linkedGround.realPath "missing/../next" = some ["srv", "vault", "new"] ∧
      linkedGround.realPath "/srv/vault/new" = linkedGround.realPath "missing/../next" := by
  have hnext : linkedGround.WritesTo "missing/../next" ["srv", "vault", "new"] := by
    refine ⟨fun q => if q = ["home", "missing"] then some .dir else linkedGround.disk q,
      fun q => ?_, ?_⟩
    · by_cases hq : q = ["home", "missing"]
      · subst hq
        exact Or.inr ⟨rfl, if_pos rfl⟩
      · exact Or.inl (if_neg hq)
    · have hhops : hops "missing/../next" = [.name "missing", .up, .name "next"] := by decide
      rw [hhops]
      exact .enter rfl (.up (.link rfl (.link rfl (.up (.enter rfl (.enter rfl (.create rfl)))))))
  have hsrv : linkedGround.WritesTo "/srv/vault/new" ["srv", "vault", "new"] := by
    refine ⟨_, .refl _, ?_⟩
    have hhops : hops "/srv/vault/new" = [.root, .name "srv", .name "vault", .name "new"] := by
      decide
    rw [hhops]
    exact .root (.enter rfl (.enter rfl (.create rfl)))
  obtain ⟨hplace, -, heq⟩ := Ground.realPath_of_writesTo (by decide) hnext
  exact ⟨hplace, heq _ (by decide) hsrv⟩

end Dctl.Cli
