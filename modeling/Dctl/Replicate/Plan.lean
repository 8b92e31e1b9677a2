import Dctl.ProofKit.Table
import Dctl.Transfer.Pipeline
import Dctl.Cli.PlainSource

/-! What a replication would do, decided from the two listings before it does anything
(`replicate/plan.rs`), and those two listings. -/

namespace Dctl.Replicate

open ProofKit Transfer List

/-- What is to become of an object.  Only an execution fails one. -/
inductive Action where
  | replicate
  | reverify
  | skip
  | failed
  deriving DecidableEq, Repr

def Action.readsBytes : Action → Bool
  | replicate | reverify => true
  | skip | failed => false

def planReasonMissing : String := "missing-at-destination"
def planReasonSize : String := "size-differs"
def planReasonChecksum : String := "checksum-differs"
def planReasonIdentical : String := "identical"
def planReasonExists : String := "exists"

structure Item where
  action : Action
  key : String
  size : UInt64
  reason : String
  deriving DecidableEq

structure Summary where
  objects : Nat := 0
  replicated : Nat := 0
  reverified : Nat := 0
  skipped : Nat := 0
  failed : Nat := 0
  bytes : UInt64 := 0
  extra : Nat := 0
  deriving DecidableEq

def Summary.add (summary : Summary) (item : Item) : Summary :=
  match item.action with
  | .replicate =>
    { summary with replicated := summary.replicated + 1, bytes := summary.bytes + item.size }
  | .reverify => { summary with reverified := summary.reverified + 1 }
  | .skip => { summary with skipped := summary.skipped + 1 }
  | .failed => { summary with failed := summary.failed + 1 }

structure Plan where
  items : List Item
  summary : Summary

abbrev Listing := Table String UInt64

def classify (size : UInt64) (atDestination : Option UInt64) (verify : VerifyMode) :
    Action × String :=
  match atDestination with
  | none => (.replicate, planReasonMissing)
  | some stored =>
    if stored ≠ size then (.replicate, planReasonSize)
    else match verify with
      | .strict => (.reverify, planReasonExists)
      | .checksum | .sample => (.skip, planReasonExists)

def decideItem (atDestination : Listing) (verify : VerifyMode) (object : String × UInt64) : Item :=
  let decided := classify object.2 atDestination[object.1]? verify
  { action := decided.1, key := object.1, size := object.2, reason := decided.2 }

def Plan.decide (atSource atDestination : Listing) (verify : VerifyMode) : Plan :=
  let items := atSource.toList.map (decideItem atDestination verify)
  let summary := items.foldl Summary.add { objects := atSource.size }
  { items
    summary := { summary with extra := (atDestination.keys.filter (· ∉ atSource)).length } }

def Plan.egressBytes (plan : Plan) : UInt64 :=
  ((plan.items.filter (·.action.readsBytes)).map Item.size).foldl (· + ·) 0

/-- The summary counts the rows by their action, and the bytes that were copied. -/
structure Tallied (summary : Summary) (items : List Item) : Prop where
  replicated : summary.replicated = items.countP (·.action = .replicate)
  reverified : summary.reverified = items.countP (·.action = .reverify)
  skipped : summary.skipped = items.countP (·.action = .skip)
  failed : summary.failed = items.countP (·.action = .failed)
  bytes : summary.bytes = ((items.filter (·.action = .replicate)).map Item.size).foldl (· + ·) 0

/-- The summary counts all the rows. -/
structure Counts (summary : Summary) (items : List Item) : Prop extends Tallied summary items where
  objects : summary.objects = items.length

theorem Tallied.start (objects extra : Nat) : Tallied { objects, extra } [] :=
  ⟨rfl, rfl, rfl, rfl, rfl⟩

@[simp] theorem Summary.add_objects (summary : Summary) (item : Item) :
    (summary.add item).objects = summary.objects := by
  rw [add]
  split <;> rfl

theorem Tallied.add {summary : Summary} {items : List Item} (h : Tallied summary items)
    (item : Item) : Tallied (summary.add item) (items ++ [item]) := by
  obtain ⟨hreplicated, hreverified, hskipped, hfailed, hbytes⟩ := h
  rw [Summary.add]
  constructor <;> cases haction : item.action <;> simp [*]

theorem foldl_add_objects (summary : Summary) (items : List Item) :
    (items.foldl Summary.add summary).objects = summary.objects := by
  induction items generalizing summary with
  | nil => rfl
  | cons item rest ih => rw [foldl_cons, ih, Summary.add_objects]

theorem Tallied.foldl {summary : Summary} {items : List Item} (h : Tallied summary items)
    (rest : List Item) : Tallied (rest.foldl Summary.add summary) (items ++ rest) := by
  induction rest generalizing summary items with
  | nil => rwa [append_nil]
  | cons item rest ih =>
    rw [foldl_cons, append_cons]
    exact ih (h.add item)

theorem decide_counts (atSource atDestination : Listing) (verify : VerifyMode) :
    Counts (Plan.decide atSource atDestination verify).summary
      (Plan.decide atSource atDestination verify).items := by
  have htally := (Tallied.start atSource.size 0).foldl
    (atSource.toList.map (decideItem atDestination verify))
  obtain ⟨hreplicated, hreverified, hskipped, hfailed, hbytes⟩ := htally
  refine ⟨⟨hreplicated, hreverified, hskipped, hfailed, hbytes⟩, ?_⟩
  rw [Plan.decide, foldl_add_objects, length_map, Std.ExtTreeMap.length_toList]

theorem classify_action (size : UInt64) (atDestination : Option UInt64) (verify : VerifyMode) :
    ((classify size atDestination verify).1 = .reverify → verify = .strict) ∧
      (classify size atDestination verify).1 ≠ .failed := by
  unfold classify
  split
  · exact ⟨by simp, by simp⟩
  · split
    · exact ⟨by simp, by simp⟩
    · cases verify <;> exact ⟨by simp, by simp⟩

theorem decide_objects (atSource atDestination : Listing) (verify : VerifyMode) :
    (Plan.decide atSource atDestination verify).items.map (fun item => (item.key, item.size)) =
      atSource.toList := by
  rw [Plan.decide, map_map]
  exact map_id _

theorem decide_distinct (atSource atDestination : Listing) (verify : VerifyMode) :
    (Plan.decide atSource atDestination verify).items.Pairwise fun a b => a.key ≠ b.key := by
  have hdistinct := Table.pairwise_toList atSource
  rw [← decide_objects atSource atDestination verify, pairwise_map] at hdistinct
  exact hdistinct

end Dctl.Replicate

namespace Dctl.Replicate

open ProofKit Store Transfer Pager Cli.PlainSource
open Store.LocalFs (ObjectMeta)

variable {Found : Type}

def sameCursorTwice (next : String) : StoreError :=
  .backend ("the store returned the same listing cursor twice (" ++ next ++
    "), so its objects cannot be enumerated")

structure ListAll where
  requests : Nat := 0
  cursor : Option String := none
  objects : Listing := ∅

def insertAll (objects : Listing) (items : List ObjectMeta) : Listing :=
  items.foldl (fun objects object => objects.insert object.key (UInt64.ofNat object.size)) objects

/-- One pass of the loop.  It ends with its result and the number of pages that it has asked for. -/
def ListAll.turn (pages : Pages Found) (s : ListAll) :
    (Except StoreError Listing × Nat) ⊕ ListAll :=
  match pages s.requests s.cursor with
  | .error e => .inl (.error e, s.requests + 1)
  | .ok page =>
    let objects := insertAll s.objects page.items
    match page.nextCursor with
    | none => .inl (.ok objects, s.requests + 1)
    | some next =>
      if some next = s.cursor then .inl (.error (sameCursorTwice next), s.requests + 1)
      else .inr { requests := s.requests + 1, cursor := some next, objects }

def listAll (pages : Pages Found) (fuel : Nat) : Option (Except StoreError Listing × Nat) :=
  passes (ListAll.turn pages) fuel {}

/-- The page has no next cursor, or hands back the one that it was asked with. -/
def EndsOrRepeats (cursor : Option String) (page : Page Found) : Prop :=
  page.nextCursor = none ∨ page.nextCursor = cursor

theorem listAll_follows (pages : Pages Found) :
    Follows Page.nextCursor pages EndsOrRepeats (ListAll.turn pages)
      (fun n s => s.requests = n ∧ s.cursor = asked Page.nextCursor pages n)
      (fun n r => r.2 = n + 1 ∧ ((∃ objects, r.1 = .ok objects) ↔
        ∃ page, answered Page.nextCursor pages n = .ok page ∧ page.nextCursor = none)) where
  goes := by
    rintro n s ⟨rfl, hcursor⟩ hopen
    obtain ⟨page, hpage, hopen⟩ := exists_of_not_closes hopen
    have hasked := asked_succ hpage
    rw [answered, ← hcursor] at hpage
    rw [EndsOrRepeats, ← hcursor] at hopen
    cases hnext : page.nextCursor with
    | none => exact absurd (Or.inl hnext) hopen
    | some next =>
      have hmoves : ¬some next = s.cursor := fun hsame => hopen (Or.inr (by rw [hnext, hsame]))
      have hturn : ListAll.turn pages s = .inr ⟨s.requests + 1, some next,
          insertAll s.objects page.items⟩ := by
        rw [ListAll.turn, hpage]
        simp only [hnext, if_neg hmoves]
      exact ⟨_, ⟨rfl, by rw [hasked, hnext]⟩, Leads.of_turn hturn⟩
  ends := by
    rintro n s ⟨rfl, hcursor⟩ hclosed
    have hends := hclosed
    rw [Closes, answered, ← hcursor] at hends
    rw [answered, ← hcursor]
    cases hpage : pages s.requests s.cursor with
    | error e =>
      refine ⟨1, (.error e, s.requests + 1), passes_inl ?_, rfl, by simp⟩
      rw [ListAll.turn, hpage]
    | ok page =>
      cases hnext : page.nextCursor with
      | none =>
        refine ⟨1, (.ok (insertAll s.objects page.items), s.requests + 1), passes_inl ?_, rfl, ?_⟩
        · rw [ListAll.turn, hpage]
          simp only [hnext]
        · exact iff_of_true ⟨_, rfl⟩ ⟨page, rfl, hnext⟩
      | some next =>
        have hsame : some next = s.cursor := by
          rcases hends page hpage with hlast | hsame
          · rw [hnext] at hlast
            cases hlast
          · rw [← hnext, hsame]
        refine ⟨1, (.error (sameCursorTwice next), s.requests + 1), passes_inl ?_, rfl, ?_⟩
        · rw [ListAll.turn, hpage]
          simp only [hnext, if_pos hsame]
        · refine iff_of_false (by simp) ?_
          rintro ⟨other, hother, hlast⟩
          cases hother
          rw [hnext] at hlast
          cases hlast

end Dctl.Replicate
