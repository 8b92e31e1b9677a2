import Dctl.Filter.Rule

/-! The filters one run is subject to (`filter/mod.rs`, `depth.rs`, `size.rs`, `age.rs`). -/

namespace Dctl.Filter

open ProofKit Cli

structure DepthLimit where
  limit : Option Nat
  deriving DecidableEq, Repr

namespace DepthLimit

def unlimited : DepthLimit := ⟨none⟩

def admits (d : DepthLimit) (depth : Nat) : Bool := d.limit.all fun limit => depth ≤ limit

def mayDescend (d : DepthLimit) (depth : Nat) : Bool := d.limit.all fun limit => depth < limit

def isLimited (d : DepthLimit) : Bool := d.limit.isSome

end DepthLimit

structure SizeBounds where
  min : Option Nat
  max : Option Nat
  deriving DecidableEq, Repr

namespace SizeBounds

def unbounded : SizeBounds := ⟨none, none⟩

def isLimited (s : SizeBounds) : Bool := s.min.isSome || s.max.isSome

end SizeBounds

structure AgeBounds where
  earliest : Option Int
  latest : Option Int
  deriving DecidableEq, Repr

namespace AgeBounds

def unbounded : AgeBounds := ⟨none, none⟩

def isLimited (a : AgeBounds) : Bool := a.earliest.isSome || a.latest.isSome

end AgeBounds

inductive Reason where
  | unfiltered
  | notListed
  | tooDeep (depth limit : Nat)
  | tooSmall (size limit : Nat)
  | tooLarge (size limit : Nat)
  | tooOld (modified floor : Int)
  | tooNew (modified ceiling : Int)
  | matched (rule : Rule) (position : Nat)
  | unmatched
  deriving DecidableEq, Repr

structure Decision where
  action : Action
  reason : Reason
  deriving DecidableEq, Repr

def Decision.admits (d : Decision) : Bool := d.action.admits

abbrev PathSet := Std.ExtTreeSet String

def ancestors (path : String) : List String := "" :: LogicalPath.prefixes path

/-- Whether the set holds `path` itself or anything beneath it: the first path from `path/` on is
looked at. -/
def isUnderAny (paths : PathSet) (path : String) : Bool :=
  if path = "" then !paths.isEmpty
  else if paths.contains path then true
  else
    let below := path ++ pathSeparator.toString
    (paths.getGE? below).any fun first => below.toList.isPrefixOf first.toList

structure FilterSet where
  rules : List Rule
  defaultAction : Action
  sizes : SizeBounds
  ages : AgeBounds
  depth : DepthLimit
  only : Option PathSet

namespace FilterSet

def everything : FilterSet := ⟨[], .include, .unbounded, .unbounded, .unlimited, none⟩

variable (f : FilterSet)

def isRestricting : Bool :=
  !f.rules.isEmpty || f.only.isSome || f.sizes.isLimited || f.ages.isLimited || f.depth.isLimited

def refusedByList (c : Candidate) : Option Reason :=
  match f.only with
  | none => none
  | some only =>
    if (if c.isDir then isUnderAny only c.path else only.contains c.path) then none
    else some .notListed

def refusedByDepth (c : Candidate) : Option Reason :=
  match f.depth.limit with
  | none => none
  | some limit => if c.depth > limit then some (.tooDeep c.depth limit) else none

def refusedByAge (c : Candidate) : Option Reason :=
  match c.modified with
  | none => none
  | some modified =>
    match f.ages.earliest.filter (modified < ·), f.ages.latest.filter (modified > ·) with
    | some floor, _ => some (.tooOld modified floor)
    | none, some ceiling => some (.tooNew modified ceiling)
    | none, none => none

def refusedBySize (c : Candidate) : Option Reason :=
  match c.size with
  | none => none
  | some size =>
    match f.sizes.min.filter (size < ·), f.sizes.max.filter (size > ·) with
    | some limit, _ => some (.tooSmall size limit)
    | none, some limit => some (.tooLarge size limit)
    | none, none => none

def firstMatch (c : Candidate) : List Rule → Nat → Option (Rule × Nat)
  | [], _ => none
  | rule :: rules, position =>
    if rule.matches c then some (rule, position) else firstMatch c rules (position + 1)

def decide (c : Candidate) : Decision :=
  if !f.isRestricting then ⟨.include, .unfiltered⟩
  else match (f.refusedByList c).or <| (f.refusedByDepth c).or <|
      (f.refusedByAge c).or <| f.refusedBySize c with
    | some reason => ⟨.exclude, reason⟩
    | none => match firstMatch c f.rules 0 with
      | some (rule, position) => ⟨rule.action, .matched rule position⟩
      | none => ⟨f.defaultAction, .unmatched⟩

def admits (c : Candidate) : Bool := (f.decide c).admits

def admitsDir (path : String) : Bool := f.admits (.directory path)

def mayDescend (path : String) : Bool :=
  if !f.depth.mayDescend (depthOf path) then false
  else match f.only with
    | some only => isUnderAny only path
    -- Only an exclusion that names directories prunes.
    | none => !f.rules.any fun rule =>
        rule.action = .exclude && rule.directoriesOnly && rule.matches (.directory path)

/-- Whether a candidate is in scope for a caller that has no walk to prune. -/
def admitsEnumerated (c : Candidate) : Bool :=
  f.admits c && (ancestors c.path).all f.mayDescend

def inWindows (c : Candidate) : Bool := (f.refusedByAge c).isNone && (f.refusedBySize c).isNone

section Windows

variable {f} {path : String} {size size' : Option Nat} {modified modified' : Option Int}
  {isDir : Bool}

theorem firstMatch_eq (rules : List Rule) (position : Nat) :
    firstMatch ⟨path, size, modified, isDir⟩ rules position =
      firstMatch ⟨path, size', modified', isDir⟩ rules position := by
  induction rules generalizing position with
  | nil => rfl
  | cons rule rest ih =>
    rw [firstMatch, firstMatch, ih]
    rfl

theorem inWindows_of_not_restricting (h : f.isRestricting = false) (c : Candidate) :
    f.inWindows c = true := by
  simp only [isRestricting, Bool.or_eq_false_iff, SizeBounds.isLimited, AgeBounds.isLimited,
    Option.isSome_eq_false_iff, Option.isNone_iff_eq_none] at h
  obtain ⟨⟨⟨-, hmin, hmax⟩, hearliest, hlatest⟩, -⟩ := h
  rw [inWindows, Bool.and_eq_true]
  constructor
  · cases hm : c.modified <;> simp [refusedByAge, hm, hearliest, hlatest]
  · cases hs : c.size <;> simp [refusedBySize, hs, hmin, hmax]

def ruling (f : FilterSet) (c : Candidate) : Action :=
  match firstMatch c f.rules 0 with
  | some (rule, _) => rule.action
  | none => f.defaultAction

theorem admits_iff {c : Candidate} (hr : f.isRestricting = true) : f.admits c = true ↔
    (f.refusedByList c = none ∧ f.refusedByDepth c = none ∧ (f.ruling c).admits = true) ∧
      f.inWindows c = true := by
  simp only [admits, decide, hr, Bool.not_true, Bool.false_eq_true, if_false, inWindows,
    Bool.and_eq_true, Option.isNone_iff_eq_none]
  cases h : (f.refusedByList c).or ((f.refusedByDepth c).or
      ((f.refusedByAge c).or (f.refusedBySize c))) with
  | some reason =>
    have hsome : ¬(f.refusedByList c = none ∧ f.refusedByDepth c = none ∧
        f.refusedByAge c = none ∧ f.refusedBySize c = none) := by
      rintro ⟨hl, hd, ha, hs⟩
      simp [hl, hd, ha, hs] at h
    simp only [Decision.admits, Action.admits, Bool.false_eq_true, false_iff]
    rintro ⟨⟨hl, hd, -⟩, ha, hs⟩
    exact hsome ⟨hl, hd, ha, hs⟩
  | none =>
    obtain ⟨hl, hd, ha, hs⟩ : f.refusedByList c = none ∧ f.refusedByDepth c = none ∧
        f.refusedByAge c = none ∧ f.refusedBySize c = none := by
      simpa only [Option.or_eq_none_iff] using h
    simp only [hl, hd, ha, hs, ruling, true_and, and_true]
    cases firstMatch c f.rules 0 <;> rfl

theorem admits_iff_inWindows (h : f.admits ⟨path, size, modified, isDir⟩ = true) :
    f.admits ⟨path, size', modified', isDir⟩ = true ↔
      f.inWindows ⟨path, size', modified', isDir⟩ = true := by
  cases hr : f.isRestricting
  · rw [inWindows_of_not_restricting hr, admits, decide, hr]
    simp [Decision.admits, Action.admits]
  · rw [admits_iff hr] at h ⊢
    have hruling : f.ruling ⟨path, size', modified', isDir⟩ =
        f.ruling ⟨path, size, modified, isDir⟩ := by
      have hfirst : firstMatch ⟨path, size', modified', isDir⟩ f.rules 0 =
          firstMatch ⟨path, size, modified, isDir⟩ f.rules 0 := firstMatch_eq _ _
      rw [ruling, ruling, hfirst]
    rw [hruling]
    exact and_iff_right h.1

end Windows

end FilterSet

end Dctl.Filter
