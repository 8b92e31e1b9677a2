import Dctl.ProofKit.Pairing
import Dctl.Transfer.Compare

/-! The plan of a transfer, computed from two listings (`plan.rs`). -/

namespace Dctl.Transfer

open Cli ProofKit

inductive Op where
  | copy
  | update
  | delete
  | skip
  | createDir
  deriving DecidableEq, Repr

namespace Op

def transfers : Op → Bool
  | copy | update => true
  | _ => false

def destroys : Op → Bool
  | delete => true
  | _ => false

def replacesExisting : Op → Bool
  | update | delete => true
  | _ => false

def isAction : Op → Bool
  | skip => false
  | _ => true

end Op

def Action.op : Action → Op
  | .copy _ => .copy
  | .update _ => .update
  | .skip _ => .skip

structure PlanEntry where
  action : Op
  source : String
  dest : String
  size : Option Nat
  reason : String
  modified : Option SystemTime
  deriving DecidableEq, Repr

structure Policy where
  compare : ComparePolicy
  deleteExtras : Bool
  createEmptySrcDirs : Bool
  traversed : Bool
  deriving DecidableEq, Repr

namespace Policy

def copying (compare : ComparePolicy) : Policy := ⟨compare, false, false, true⟩

/-- A policy that removes destination extras. -/
def syncing (compare : ComparePolicy) : Policy := ⟨compare, true, false, true⟩

def withEmptySrcDirs (p : Policy) (enabled : Bool) : Policy :=
  { p with createEmptySrcDirs := enabled }

def withTraversal (p : Policy) (traversed : Bool) : Policy := { p with traversed := traversed }

end Policy

structure Plan where
  entries : List PlanEntry
  deriving DecidableEq, Repr

def emptyDirEntry (item : Entry) (existsAtDest : Bool) (policy : Policy) : PlanEntry :=
  let create := policy.createEmptySrcDirs && !existsAtDest
  { action := if create then .createDir else .skip
    source := item.path
    dest := item.path
    size := some 0
    reason :=
      if create then planReasonEmptySourceDir
      else if existsAtDest then planReasonIdentical
      else planReasonMissing
    modified := none }

def fileAction (item : Entry) (counterpart : Option Entry) (policy : Policy) :
    Except CliError Action :=
  if policy.traversed then decide item counterpart policy.compare
  else .ok (.copy planReasonUntraversed)

def fileEntry (item : Entry) (dest : String) (action : Action) : PlanEntry :=
  ⟨action.op, item.path, dest, item.size, action.reason, item.modified⟩

def extraEntry (item : Entry) : PlanEntry :=
  ⟨.delete, "", item.path, item.size, planReasonExtra, none⟩

namespace Plan

def sourceEntry (dest : List Entry) (policy : Policy) (item : Entry) :
    Except CliError PlanEntry := do
  let counterpart := lastWith Entry.path dest item.path
  if item.isFile then
    let action ← fileAction item counterpart policy
    pure (fileEntry item item.path action)
  else pure (emptyDirEntry item counterpart.isSome policy)

def pairOne (dest : List Entry) (policy : Policy) (state : List PlanEntry × List Bool)
    (item : Entry) : Except CliError (List PlanEntry × List Bool) := do
  let matched := mark state.2 (positions Entry.path dest item.path)
  let entry ← sourceEntry dest policy item
  pure (state.1 ++ [entry], matched)

def extras (dest : List Entry) (matched : List Bool) : List Entry :=
  (dest.zipIdx.filter fun x => !(matched[x.2]?.getD false) && x.1.isFile).map Prod.fst

def compute (source dest : List Entry) (policy : Policy) : Except CliError Plan := do
  let (entries, matched) ←
    source.foldlM (pairOne dest policy) ([], List.replicate dest.length false)
  pure ⟨entries ++ if policy.deleteExtras then (extras dest matched).map extraEntry else []⟩

def computeExact (source : Entry) (dest : Option Entry) (destName : String) (policy : Policy) :
    Except CliError Plan := do
  let action ← fileAction source dest policy
  pure ⟨[fileEntry source destName action]⟩

variable (p : Plan)

def transfers : List PlanEntry := p.entries.filter (·.action.transfers)

def deletions : List PlanEntry := p.entries.filter (·.action.destroys)

variable {source dest : List Entry} {policy : Policy} {plan : Plan}

theorem pairOne_eq_ok {state state' : List PlanEntry × List Bool} {item : Entry} :
    pairOne dest policy state item = .ok state' ↔
      ∃ entry, sourceEntry dest policy item = .ok entry ∧
        state' = (state.1 ++ [entry], mark state.2 (positions Entry.path dest item.path)) := by
  rw [pairOne]
  cases h : sourceEntry dest policy item with
  | error e => simp [bind, Except.bind]
  | ok entry =>
    simp only [bind, Except.bind, pure, Except.pure, Except.ok.injEq]
    constructor
    · intro h'
      exact ⟨entry, rfl, h'.symm⟩
    · rintro ⟨_, rfl, h'⟩
      exact h'.symm

def markAll (dest source : List Entry) (flags : List Bool) : List Bool :=
  source.foldl (fun flags item => mark flags (positions Entry.path dest item.path)) flags

theorem foldlM_pairOne_eq_ok {state state' : List PlanEntry × List Bool} :
    source.foldlM (pairOne dest policy) state = .ok state' ↔
      ∃ entries, List.Forall₂ (fun item entry => sourceEntry dest policy item = .ok entry)
          source entries ∧
        state' = (state.1 ++ entries, markAll dest source state.2) := by
  induction source generalizing state with
  | nil =>
    constructor
    · intro h
      cases h
      exact ⟨[], .nil, by simp [markAll]⟩
    · rintro ⟨entries, hall, rfl⟩
      cases hall
      simp [pure, Except.pure, markAll]
  | cons item rest ih =>
    rw [List.foldlM_cons]
    constructor
    · intro h
      cases h1 : pairOne dest policy state item with
      | error e =>
        rw [h1] at h
        cases h
      | ok mid =>
        rw [h1] at h
        obtain ⟨entry, hentry, rfl⟩ := pairOne_eq_ok.mp h1
        obtain ⟨entries, hall, rfl⟩ := ih.mp h
        exact ⟨entry :: entries, .cons hentry hall, by simp [markAll]⟩
    · rintro ⟨entries, hall, rfl⟩
      cases hall with
      | cons hentry hall =>
        rw [pairOne_eq_ok.mpr ⟨_, hentry, rfl⟩]
        exact ih.mpr ⟨_, hall, by simp [markAll]⟩

def Unmatched (source dest : List Entry) (i : Nat) : Prop :=
  ∀ item ∈ source, positions Entry.path dest item.path ≠ some i

instance (source dest : List Entry) (i : Nat) : Decidable (Unmatched source dest i) :=
  inferInstanceAs (Decidable (∀ _ ∈ _, _))

def extrasOf (source dest : List Entry) : List Entry :=
  (dest.zipIdx.filter fun x => Unmatched source dest x.2 ∧ x.1.isFile).map Prod.fst

theorem getElem?_markAll {i : Nat} (hi : i < dest.length) :
    (markAll dest source (List.replicate dest.length false))[i]? = some true ↔
      ¬Unmatched source dest i := by
  rw [markAll, getElem?_foldl_mark, List.length_replicate, List.getElem?_replicate_of_lt hi,
    Unmatched]
  push Not
  simp [hi]

theorem extras_eq_extrasOf :
    extras dest (markAll dest source (List.replicate dest.length false)) =
      extrasOf source dest := by
  rw [extras, extrasOf]
  congr 1
  apply List.filter_congr
  intro x hx
  have hlt : x.2 < dest.length := by
    have := (List.mem_zipIdx hx).2.1
    omega
  have hflag : _ ↔ ¬Unmatched source dest x.2 := getElem?_markAll hlt
  generalize (markAll dest source (List.replicate dest.length false))[x.2]? = flag at hflag ⊢
  by_cases hun : Unmatched source dest x.2
  · have hne : flag ≠ some true := fun h => hflag.mp h hun
    rcases flag with _ | _ | _
    · simp [hun]
    · simp [hun]
    · exact absurd rfl hne
  · rw [hflag.mpr hun]
    simp [hun]

theorem compute_eq_ok : compute source dest policy = .ok plan ↔
    ∃ entries, List.Forall₂ (fun item entry => sourceEntry dest policy item = .ok entry)
        source entries ∧
      plan = ⟨entries ++ if policy.deleteExtras then (extrasOf source dest).map extraEntry
        else []⟩ := by
  rw [compute]
  constructor
  · intro h
    cases h1 : source.foldlM (pairOne dest policy) ([], List.replicate dest.length false) with
    | error e =>
      rw [h1] at h
      cases h
    | ok state =>
      rw [h1] at h
      obtain ⟨entries, hall, rfl⟩ := foldlM_pairOne_eq_ok.mp h1
      refine ⟨entries, hall, ?_⟩
      rw [← extras_eq_extrasOf]
      exact (Except.ok.inj h).symm
  · rintro ⟨entries, hall, rfl⟩
    rw [foldlM_pairOne_eq_ok.mpr ⟨entries, hall, rfl⟩, ← extras_eq_extrasOf]
    rfl

end Plan

end Dctl.Transfer
