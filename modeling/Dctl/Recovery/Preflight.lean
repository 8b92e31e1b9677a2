import Dctl.Recovery.Names

/-! Everything that could stop a name from being written, found before anything is
(`recovery/preflight.rs`). -/

namespace Dctl.Recovery

open ProofKit Index Cli.Paths

inductive Audience where
  | thisPlatform
  | anyPlatform
  deriving DecidableEq

inductive Severity where
  | blocking
  | portability
  deriving DecidableEq

inductive Problem where
  | illegalName
  | caseCollision
  | typeConflict
  | pathTooLong
  deriving DecidableEq

def Problem.slug : Problem → String
  | illegalName => "illegal-name"
  | caseCollision => "case-collision"
  | typeConflict => "directory-file-conflict"
  | pathTooLong => "path-too-long"

structure Finding where
  path : Path
  problem : Problem
  severity : Severity
  detail : String
  deriving DecidableEq

def Finding.isBlocking (f : Finding) : Bool := f.severity = .blocking

/-- What the inspection depends on: the platform it runs on, and `str::to_lowercase`. -/
structure Host where
  os : Os
  lowercase : Path → Path

namespace Host

variable (host : Host)

def nameSeverity (audience : Audience) (issue : NameIssue) : Severity :=
  match audience, issue with
  -- No file system anywhere accepts a control character.
  | .anyPlatform, .controlCharacter _ => .blocking
  | .anyPlatform, _ => .portability
  | .thisPlatform, issue => if issueBlocksHere host.os issue then .blocking else .portability

def collectNameIssues (audience : Audience) (path : Path) : List Finding :=
  (checkLogicalPath path).map fun (component, issue) =>
    ⟨path, .illegalName, host.nameSeverity audience issue,
      "'" ++ String.ofList component ++ "': " ++ issue.display⟩

def windowsMaxPathLen : Nat := 260

def collectLength (root : Option Path) (audience : Audience) (path : Path) : List Finding :=
  let nativeLen :=
    match root with
    | some root => (fromLogical host.os root path).length host.os
    | none => (utf8 (String.ofList path)).length
  if nativeLen ≤ windowsMaxPathLen then []
  else
    [⟨path, .pathTooLong, if audience = .thisPlatform ∧ host.os = .windows then .blocking
      else .portability,
      "the destination path is " ++ toString nativeLen ++ " characters, past the " ++
        toString windowsMaxPathLen ++ "-character Windows limit"⟩]

def caseSeverity (audience : Audience) : Severity :=
  if audience = .thisPlatform ∧ host.os.caseInsensitive then .blocking else .portability

def caseFinding (audience : Audience) (path first : Path) : Finding :=
  let severity := host.caseSeverity audience
  ⟨path, .caseCollision, severity,
    "differs from '" ++ String.ofList first ++ "' only in case, which " ++
      (if severity = .blocking then host.os.name else "a case-insensitive filesystem") ++
        " cannot represent"⟩

def collectCaseCollisions (audience : Audience) (seen : List (Path × Path)) :
    List Path → List Finding
  | [] => []
  | path :: rest =>
    match seen.lookup (host.lowercase path) with
    | some first =>
      if first ≠ path then
        host.caseFinding audience path first :: collectCaseCollisions audience seen rest
      else collectCaseCollisions audience seen rest
    | none => collectCaseCollisions audience ((host.lowercase path, path) :: seen) rest

def typeFinding (path ancestor : Path) : Finding :=
  ⟨path, .typeConflict, .blocking,
    "needs '" ++ String.ofList ancestor ++ "' to be a directory, but '" ++ String.ofList ancestor ++
      "' is itself a file in this set"⟩

def collectTypeConflicts (paths : List Path) : List Finding :=
  paths.flatMap fun path =>
    ((prefixesAt separator path).filter (· ∈ paths)).map (typeFinding path)

def findingLE (a b : Finding) : Bool :=
  a.path < b.path || (a.path = b.path && (a.problem.slug < b.problem.slug ||
    (a.problem.slug = b.problem.slug && a.detail ≤ b.detail)))

def dedup : List Finding → List Finding
  | a :: b :: rest => if a = b then dedup (b :: rest) else a :: dedup (b :: rest)
  | findings => findings

def order (findings : List Finding) : List Finding := dedup (findings.mergeSort findingLE)

/-- Inspect a set of logical paths for everything that could stop them being written. -/
def inspect (paths : List Path) (root : Option Path) (audience : Audience) : List Finding :=
  order (paths.flatMap (fun path =>
      host.collectNameIssues audience path ++ host.collectLength root audience path) ++
    host.collectCaseCollisions audience [] paths ++ collectTypeConflicts paths)

end Host

def blocking (findings : List Finding) : List Finding := findings.filter Finding.isBlocking

section Clean

open Host

variable {host : Host} {paths : List Path} {path other : Path} {root : Option Path}
  {audience : Audience}
  {seen : List (Path × Path)} {f : Finding}

theorem mem_dedup {findings : List Finding} : f ∈ dedup findings ↔ f ∈ findings := by
  induction findings using dedup.induct with
  | case1 b rest ih =>
    rw [dedup, if_pos rfl, ih]
    simp
  | case2 a b rest hne ih =>
    rw [dedup, if_neg hne, List.mem_cons, ih, ← List.mem_cons]
  | case3 findings hfindings => rw [dedup]; exact hfindings

theorem mem_inspect : f ∈ host.inspect paths root audience ↔
    (∃ path ∈ paths, f ∈ host.collectNameIssues audience path ∨
      f ∈ host.collectLength root audience path) ∨
      f ∈ host.collectCaseCollisions audience [] paths ∨ f ∈ collectTypeConflicts paths := by
  simp only [inspect, order, mem_dedup, List.mem_mergeSort, List.mem_append,
    List.mem_flatMap, or_assoc]

theorem mem_collectTypeConflicts :
    f ∈ collectTypeConflicts paths ↔
      ∃ path ∈ paths, ∃ ancestor ∈ paths, ancestor ∈ prefixesAt separator path ∧
        f = typeFinding path ancestor := by
  simp only [collectTypeConflicts, List.mem_flatMap, List.mem_map, List.mem_filter,
    decide_eq_true_eq]
  constructor
  · rintro ⟨path, hpath, ancestor, ⟨hmem, hin⟩, rfl⟩
    exact ⟨path, hpath, ancestor, hin, hmem, rfl⟩
  · rintro ⟨path, hpath, ancestor, hin, hmem, rfl⟩
    exact ⟨path, hpath, ancestor, ⟨hmem, hin⟩, rfl⟩

theorem of_mem_collectCaseCollisions (h : f ∈ host.collectCaseCollisions audience seen paths) :
    f.severity = host.caseSeverity audience := by
  induction paths generalizing seen with
  | nil => cases h
  | cons path rest ih =>
    unfold collectCaseCollisions at h
    split at h
    · split at h
      · rcases List.mem_cons.mp h with rfl | h
        · rfl
        · exact ih h
      · exact ih h
    · exact ih h

section

variable (h : host.collectCaseCollisions audience seen paths = []) (hpath : path ∈ paths)
include h hpath

theorem eq_first (hseen : seen.lookup (host.lowercase path) = some other) : path = other := by
  induction paths generalizing seen with
  | nil => cases hpath
  | cons a rest ih =>
    unfold collectCaseCollisions at h
    cases hlookup : seen.lookup (host.lowercase a) with
    | some first =>
      rw [hlookup] at h
      dsimp only at h
      have hfirst : first = a := by
        by_contra hne
        rw [if_pos hne] at h
        cases h
      rw [if_neg (not_not.mpr hfirst)] at h
      rcases List.mem_cons.mp hpath with rfl | hpath
      · rw [hseen, Option.some.injEq] at hlookup
        exact (hlookup.trans hfirst).symm
      · exact ih h hpath hseen
    | none =>
      rw [hlookup] at h
      rcases List.mem_cons.mp hpath with rfl | hpath
      · rw [hseen] at hlookup
        cases hlookup
      · refine ih h hpath ?_
        have hne : host.lowercase path ≠ host.lowercase a := by
          intro heq
          rw [heq, hlookup] at hseen
          cases hseen
        rw [List.lookup_cons, beq_false_of_ne hne]
        exact hseen

theorem eq_of_lowercase (hother : other ∈ paths)
    (heq : host.lowercase path = host.lowercase other) :
    path = other := by
  induction paths generalizing seen with
  | nil => cases hpath
  | cons a rest ih =>
    -- What has the spelling of the head is the head.
    have hhead : ∀ p ∈ a :: rest, host.lowercase p = host.lowercase a → p = a := by
      intro p hp hspelled
      cases hlookup : seen.lookup (host.lowercase a) with
      | some first =>
        have ha := eq_first h List.mem_cons_self hlookup
        rw [ha]
        exact eq_first h hp (hspelled ▸ hlookup)
      | none =>
        rcases List.mem_cons.mp hp with rfl | hp
        · rfl
        · unfold collectCaseCollisions at h
          rw [hlookup] at h
          refine eq_first h hp ?_
          rw [List.lookup_cons, hspelled, beq_self_eq_true]
    rcases List.mem_cons.mp hpath with rfl | hpath'
    · exact (hhead other hother heq.symm).symm
    rcases List.mem_cons.mp hother with rfl | hother'
    · exact hhead path hpath heq
    unfold collectCaseCollisions at h
    split at h
    · split at h
      · cases h
      · exact ih h hpath' hother'
    · exact ih h hpath' hother'

end

/-- What a report without a blocking finding says about the paths. -/
structure Clean (host : Host) (paths : List Path) : Prop where
  control : ∀ path ∈ paths, ∀ name ∈ segments separator path, ∀ c ∈ name, 0x20 ≤ c.toNat
  names : host.os = .windows → ∀ path ∈ paths, ∀ name ∈ segments separator path,
    checkComponent name = []
  spelled : host.os.caseInsensitive = true →
    ∀ path ∈ paths, ∀ other ∈ paths, host.lowercase path = host.lowercase other → path = other
  apart : ∀ path ∈ paths, ∀ ancestor ∈ paths, ancestor ∉ prefixesAt separator path

theorem mem_checkComponent_of_control {name : Path} {c : Char} (hc : c ∈ name)
    (hcontrol : c.toNat < 0x20) : NameIssue.controlCharacter c.toNat ∈ checkComponent name := by
  unfold checkComponent
  refine List.mem_append_left _ (List.mem_append_left _ ?_)
  rw [List.mem_filterMap]
  exact ⟨c, hc, if_pos hcontrol⟩

theorem clean_of_inspect (h : blocking (host.inspect paths root .thisPlatform) = []) :
    Clean host paths := by
  have hnone : ∀ f ∈ host.inspect paths root .thisPlatform, f.severity ≠ .blocking := by
    intro f hf
    have := List.filter_eq_nil_iff.mp h f hf
    simpa [Finding.isBlocking] using this
  have hissue : ∀ path ∈ paths, ∀ name ∈ segments separator path, ∀ issue ∈ checkComponent name,
      issueBlocksHere host.os issue = false := by
    intro path hpath name hname issue hissue
    have hfound : (name, issue) ∈ checkLogicalPath path := by
      simp only [checkLogicalPath, List.mem_flatMap, List.mem_map]
      exact ⟨name, hname, issue, hissue, rfl⟩
    have hseverity := hnone _ (mem_inspect.mpr (.inl ⟨path, hpath, .inl
      (List.mem_map.mpr ⟨(name, issue), hfound, rfl⟩)⟩))
    by_contra hblocks
    simp only [nameSeverity, Bool.not_eq_false] at hseverity hblocks
    rw [if_pos hblocks] at hseverity
    exact hseverity rfl
  constructor
  · intro path hpath name hname c hc
    by_contra hcontrol
    have := hissue path hpath name hname _ (mem_checkComponent_of_control hc (not_le.mp hcontrol))
    cases hos : host.os <;> simp [issueBlocksHere, hos] at this
  · intro hos path hpath name hname
    refine List.eq_nil_iff_forall_not_mem.mpr fun issue hmem => ?_
    have := hissue path hpath name hname issue hmem
    rw [hos] at this
    cases this
  · intro hos path hpath other hother heq
    refine @eq_of_lowercase host paths path other .thisPlatform [] ?_ hpath hother heq
    refine List.eq_nil_iff_forall_not_mem.mpr fun f hf => ?_
    refine hnone f (mem_inspect.mpr (.inr (.inl hf))) ?_
    rw [of_mem_collectCaseCollisions hf, caseSeverity, if_pos ⟨rfl, hos⟩]
  · intro path hpath ancestor hancestor hbefore
    exact hnone _ (mem_inspect.mpr (.inr (.inr (mem_collectTypeConflicts.mpr
      ⟨path, hpath, ancestor, hancestor, hbefore, rfl⟩)))) rfl

end Clean

end Dctl.Recovery
