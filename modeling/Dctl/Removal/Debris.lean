import Dctl.Removal.Reclaim
import Dctl.Replicate.Plan

/-! The sweeps of what a write abandoned before its commit and of the multipart uploads that a
provider still holds open (`removal/reclaim.rs`), and where the loops that enumerate a backend end.
-/

namespace Dctl.Removal

open ProofKit Pager Cli.Paths
open Dctl.Store (StoreError isStagingKey)
open Dctl.Store.LocalFs (ObjectMeta)

/-- What a backend answers when it is asked for one class of debris: a page of it, or why it never
has any. -/
inductive ClassListing (ι : Type) where
  | page (items : List ι) (nextCursor : Option String)
  | absent (reason : String)

structure IncompleteUpload where
  key : String
  id : String
  startedUnix : Option Int

abbrev StagingListing : Type := ClassListing ObjectMeta

abbrev IncompleteUploads : Type := ClassListing IncompleteUpload

variable {ι : Type}

def ClassListing.next : ClassListing ι → Option String
  | page _ nextCursor => nextCursor
  | absent _ => none

/-- What a backend answers to the `n`-th request for the class, which asks with a cursor. -/
abbrev ClassPages (ι : Type) : Type := Nat → Option String → Except StoreError (ClassListing ι)

def removalKindStaging : String := "staging"
def removalKindMultipart : String := "multipart"

/-- A sweep of one class under way, with what it has said on the terminal, the classes that the
backend does not have and why, how many pages it has asked for, and the cursor. -/
structure ClassSweep where
  sweep : Sweep
  said : List String := []
  notStaged : List (String × String) := []
  requests : Nat := 0
  cursor : Option String := none

abbrev Swept : Type := Except (StoreError × ClassSweep) ClassSweep × Nat

def classTurn (className : String) (visit : ClassSweep → ι → ClassSweep) (pages : ClassPages ι)
    (s : ClassSweep) : Swept ⊕ ClassSweep :=
  match pages s.requests s.cursor with
  | .error e => .inl (.error (e, s), s.requests + 1)
  | .ok (.absent reason) =>
    .inl (.ok { s with notStaged := s.notStaged ++ [(className, reason)] }, s.requests + 1)
  | .ok (.page items nextCursor) =>
    let stalled := items.isEmpty && nextCursor = s.cursor
    let swept := items.foldl visit s
    if stalled || nextCursor.isNone then .inl (.ok swept, s.requests + 1)
    else .inr { swept with requests := s.requests + 1, cursor := nextCursor }

def notStagingKey (key : String) : String :=
  "'" ++ key ++ "' was offered as abandoned debris but is not a staging key; it has been left alone"

namespace Request

variable (q : Request)

def visitStaged (start : Path) (s : ClassSweep) (object : ObjectMeta) : ClassSweep :=
  if !isUnder start object.key.toList then s
  else if !isStagingKey object.key then
    { s with said := s.said ++ [notStagingKey object.key], sweep := s.sweep.error true }
  else
    let entry : Entry := ⟨object.key.toList, some object.size, object.modifiedUnix⟩
    { s with sweep := q.reclaim s.sweep entry removalKindStaging }

/-- Sweep the debris a write abandoned before its commit. -/
def staging (start : Path) (pages : ClassPages ObjectMeta) (sweep : Sweep) (fuel : Nat) :
    Option Swept :=
  passes (classTurn "staging" (q.visitStaged start) pages) fuel { sweep }

/-- Cancel one open upload, if it is old enough to be abandoned.  `abort` is what the backend
answers. -/
def reclaimUpload (abort : IncompleteUpload → Except String Unit) (sweep : Sweep)
    (upload : IncompleteUpload) : Sweep :=
  let item : Debris := ⟨upload.key, none, removalKindMultipart⟩
  match q.aging.verdict q.display upload.startedUnix with
  | .held reason => sweep.say (.held item reason)
  | .reclaim =>
    if q.dryRun then sweep.say (.wouldRemove item)
    else
      let record (ok : Bool) : Audited := ⟨q.op, q.remote, item.key, 0, 1, ok⟩
      match abort upload with
      | .ok () => (sweep.say (.removed item)).record (record true)
      | .error message => ((sweep.error true).say (.failed item message)).record (record false)

def visitUpload (start : Path) (abort : IncompleteUpload → Except String Unit) (s : ClassSweep)
    (upload : IncompleteUpload) : ClassSweep :=
  if !isUnder start upload.key.toList then s
  else { s with sweep := q.reclaimUpload abort s.sweep upload }

/-- Sweep the multipart uploads a provider is still holding open. -/
def multipart (start : Path) (abort : IncompleteUpload → Except String Unit)
    (pages : ClassPages IncompleteUpload) (sweep : Sweep) (fuel : Nat) : Option Swept :=
  passes (classTurn "multipart" (q.visitUpload start abort) pages) fuel { sweep }

end Request

/-- The listing ends with this page, or the page is empty and repeats the cursor. -/
def ClassListing.EndsOrStalls (cursor : Option String) : ClassListing ι → Prop
  | page items nextCursor => nextCursor = none ∨ items = [] ∧ nextCursor = cursor
  | absent _ => True

theorem classTurn_follows (className : String) (visit : ClassSweep → ι → ClassSweep)
    (pages : ClassPages ι) :
    Follows ClassListing.next pages ClassListing.EndsOrStalls (classTurn className visit pages)
      (fun n s => s.requests = n ∧ s.cursor = asked ClassListing.next pages n)
      (fun n r => r.2 = n + 1 ∧ ((∃ s, r.1 = .ok s) ↔
        ∃ page, answered ClassListing.next pages n = .ok page ∧ True)) where
  goes := by
    rintro n s ⟨rfl, hcursor⟩ hopen
    obtain ⟨page, hpage, hopen⟩ := exists_of_not_closes hopen
    have hasked := asked_succ hpage
    rw [answered, ← hcursor] at hpage
    rw [← hcursor] at hopen
    cases page with
    | absent reason => exact absurd trivial hopen
    | page items nextCursor =>
      have hgoes : ¬(items.isEmpty && nextCursor = s.cursor || nextCursor.isNone) = true := by
        simpa [ClassListing.EndsOrStalls, or_comm] using hopen
      have hturn : classTurn className visit pages s =
          .inr { items.foldl visit s with requests := s.requests + 1, cursor := nextCursor } := by
        rw [classTurn, hpage]
        simp only [if_neg hgoes]
      exact ⟨_, ⟨rfl, hasked.symm⟩, Leads.of_turn hturn⟩
  ends := by
    rintro n s ⟨rfl, hcursor⟩ hclosed
    rw [Closes, answered, ← hcursor] at hclosed
    rw [answered, ← hcursor]
    cases hpage : pages s.requests s.cursor with
    | error e =>
      refine ⟨1, (.error (e, s), s.requests + 1), passes_inl ?_, rfl, by simp⟩
      rw [classTurn, hpage]
    | ok page =>
      have hends := hclosed page hpage
      cases page with
      | absent reason =>
        have hturn : classTurn className visit pages s =
            .inl (.ok { s with notStaged := s.notStaged ++ [(className, reason)] },
              s.requests + 1) := by
          rw [classTurn, hpage]
        exact ⟨1, _, passes_inl hturn, rfl, iff_of_true ⟨_, rfl⟩ ⟨_, rfl, trivial⟩⟩
      | page items nextCursor =>
        have hlast : (items.isEmpty && nextCursor = s.cursor || nextCursor.isNone) = true := by
          simpa [ClassListing.EndsOrStalls, or_comm] using hends
        have hturn : classTurn className visit pages s =
            .inl (.ok (items.foldl visit s), s.requests + 1) := by
          rw [classTurn, hpage]
          simp only [if_pos hlast]
        exact ⟨1, _, passes_inl hturn, rfl, iff_of_true ⟨_, rfl⟩ ⟨_, rfl, trivial⟩⟩

end Dctl.Removal

namespace Dctl.Removal

open ProofKit Pager Cli.Paths Cli.PlainSource
open Dctl.Replicate (EndsOrRepeats listAll)

def stallingPages : Pages Unit := fun _ cursor =>
  match cursor with
  | none => .ok ⟨[⟨"a", 1, none⟩], some "c", ()⟩
  | some _ => .ok ⟨[], some "c", ()⟩

def circlingPages : Pages Unit := fun _ cursor =>
  .ok ⟨[], if cursor = some "a" then some "b" else some "a", ()⟩

theorem drawn_stallingPages : Drawn Page.nextCursor stallingPages {"c"} := by
  refine ⟨stallingPages 0, fun _ _ => rfl, fun cursor page c hpage hnext => ?_⟩
  cases cursor <;> cases hpage <;> cases hnext <;> exact Finset.mem_singleton_self _

theorem drawn_circlingPages : Drawn Page.nextCursor circlingPages {"a", "b"} := by
  refine ⟨circlingPages 0, fun _ _ => rfl, fun cursor page c hpage hnext => ?_⟩
  cases hpage
  simp only at hnext
  split at hnext <;> cases hnext <;> simp

theorem listAll_circling (fuel : Nat) : listAll circlingPages fuel = none := by
  have hgoes : ∀ s : Replicate.ListAll, True → ∃ s', True ∧
      Leads (Replicate.ListAll.turn circlingPages) s s' := by
    intro s _
    by_cases hcursor : s.cursor = some "a"
    · refine ⟨⟨s.requests + 1, some "b", s.objects⟩, trivial, Leads.of_turn ?_⟩
      simp [Replicate.ListAll.turn, circlingPages, hcursor, Replicate.insertAll]
    · refine ⟨⟨s.requests + 1, some "a", s.objects⟩, trivial, Leads.of_turn ?_⟩
      simp [Replicate.ListAll.turn, circlingPages, hcursor, Replicate.insertAll, eq_comm]
  exact passes_eq_none hgoes trivial fuel

end Dctl.Removal
