import Mathlib.Data.List.Induction
import Mathlib.Data.List.Nodup

/-! A roster: a list of distinct members with a version.  An edit adds members or removes one, and
raises the version when it changes the roster.  Members that are barred are never added. -/

namespace Dctl.ProofKit

open List

variable {α β : Type}

/-- Something of the list adds, and nothing behind it removes. -/
def AddedLast (adds removes : β → Prop) (l : List β) : Prop :=
  ∃ before e after, l = before ++ e :: after ∧ adds e ∧ ∀ x ∈ after, ¬removes x

theorem not_addedLast_nil {adds removes : β → Prop} : ¬AddedLast adds removes [] := by
  intro h
  obtain ⟨before, e, after, hl, -⟩ := h
  cases before with
  | nil => cases hl
  | cons x rest => cases hl

theorem addedLast_append_singleton {adds removes : β → Prop} {l : List β} {x : β} :
    AddedLast adds removes (l ++ [x]) ↔ adds x ∨ (AddedLast adds removes l ∧ ¬removes x) := by
  constructor
  · intro h
    obtain ⟨before, e, after, hl, hadds, hafter⟩ := h
    rcases eq_nil_or_concat after with rfl | ⟨rest, y, rfl⟩
    · obtain ⟨rfl, hxe⟩ := append_inj' hl rfl
      cases hxe
      exact Or.inl hadds
    · have hl' : l ++ [x] = (before ++ e :: rest) ++ [y] := by
        rw [hl]
        simp
      obtain ⟨rfl, hxy⟩ := append_inj' hl' rfl
      cases hxy
      refine Or.inr ⟨⟨before, e, rest, rfl, hadds, ?_⟩, hafter x (by simp)⟩
      intro z hz
      exact hafter z (by simp [hz])
  · intro h
    rcases h with hadds | ⟨⟨before, e, after, rfl, hadds, hafter⟩, hx⟩
    · exact ⟨l, x, [], rfl, hadds, by simp⟩
    · refine ⟨before, e, after ++ [x], by simp, hadds, ?_⟩
      intro z hz
      rcases mem_append.mp hz with hz | hz
      · exact hafter z hz
      · rw [mem_singleton.mp hz]
        exact hx

variable [DecidableEq α]

def freshIn (present : List α) : List α → List α
  | [] => []
  | a :: rest =>
    if a ∈ present then freshIn present rest else a :: freshIn (present ++ [a]) rest

theorem mem_freshIn {present ids : List α} {a : α} :
    a ∈ freshIn present ids ↔ a ∈ ids ∧ a ∉ present := by
  induction ids generalizing present with
  | nil => simp [freshIn]
  | cons b rest ih =>
    unfold freshIn
    by_cases hb : b ∈ present
    · rw [if_pos hb, ih, mem_cons]
      constructor
      · intro h
        exact ⟨Or.inr h.1, h.2⟩
      · intro h
        rcases h.1 with rfl | hrest
        · exact absurd hb h.2
        · exact ⟨hrest, h.2⟩
    · rw [if_neg hb, mem_cons, ih, mem_cons, mem_append, mem_singleton]
      constructor
      · intro h
        rcases h with rfl | ⟨hrest, hnot⟩
        · exact ⟨Or.inl rfl, hb⟩
        · exact ⟨Or.inr hrest, fun hp => hnot (Or.inl hp)⟩
      · intro h
        by_cases hab : a = b
        · exact Or.inl hab
        · rcases h.1 with heq | hrest
          · exact absurd heq hab
          · refine Or.inr ⟨hrest, ?_⟩
            intro hor
            rcases hor with hp | heq
            · exact h.2 hp
            · exact hab heq

theorem nodup_freshIn (present ids : List α) : (freshIn present ids).Nodup := by
  induction ids generalizing present with
  | nil => exact nodup_nil
  | cons b rest ih =>
    unfold freshIn
    by_cases hb : b ∈ present
    · rw [if_pos hb]
      exact ih present
    · rw [if_neg hb, nodup_cons]
      refine ⟨?_, ih _⟩
      rw [mem_freshIn]
      intro h
      exact h.2 (by simp)

/-- The members, and how often they changed. -/
@[ext] structure Roster (α : Type) where
  version : Nat
  members : List α

inductive RosterEdit (α : Type) where
  | add (ids : List α)
  | remove (a : α)

namespace RosterEdit

/-- The edit asks for `a` to be added. -/
def Adds (a : α) : RosterEdit α → Prop
  | add ids => a ∈ ids
  | remove _ => False

/-- The edit asks for `a` to be removed. -/
def Removes (a : α) : RosterEdit α → Prop
  | add _ => False
  | remove b => b = a

end RosterEdit

namespace Roster

def empty : Roster α := ⟨0, []⟩

/-- The members are distinct, none of them is barred, and there are not too many. -/
structure Valid (barred : List α) (limit : Nat) (r : Roster α) : Prop where
  nodup : r.members.Nodup
  allowed : ∀ a ∈ r.members, a ∉ barred
  length_le : r.members.length ≤ limit

def append (r : Roster α) (ids : List α) : Roster α where
  version := r.version + 1
  members := r.members ++ ids

def without (r : Roster α) (a : α) : Roster α where
  version := r.version + 1
  members := r.members.filter fun b => b ≠ a

def edit (barred : List α) (r : Roster α) : RosterEdit α → Roster α
  | .add ids =>
    if freshIn (barred ++ r.members) ids = [] then r
    else r.append (freshIn (barred ++ r.members) ids)
  | .remove a => if a ∈ r.members then r.without a else r

variable {barred : List α} {limit : Nat} {r : Roster α}

theorem edit_add {ids : List α} : r.edit barred (.add ids) =
    if freshIn (barred ++ r.members) ids = [] then r
    else r.append (freshIn (barred ++ r.members) ids) := rfl

theorem edit_remove {a : α} : r.edit barred (.remove a) =
    if a ∈ r.members then r.without a else r := rfl

theorem mem_edit {e : RosterEdit α} {a : α} :
    a ∈ (r.edit barred e).members ↔ (e.Adds a ∧ a ∉ barred) ∨ (a ∈ r.members ∧ ¬e.Removes a) := by
  cases e with
  | add ids =>
    have hfresh : a ∈ (r.edit barred (.add ids)).members ↔
        a ∈ r.members ∨ a ∈ freshIn (barred ++ r.members) ids := by
      rw [edit_add]
      by_cases hnew : freshIn (barred ++ r.members) ids = []
      · rw [if_pos hnew, hnew]
        simp
      · rw [if_neg hnew]
        exact mem_append
    rw [hfresh, mem_freshIn, mem_append]
    simp only [RosterEdit.Adds, RosterEdit.Removes]
    tauto
  | remove b =>
    rw [edit_remove]
    simp only [RosterEdit.Adds, RosterEdit.Removes, false_and, false_or]
    by_cases hb : b ∈ r.members
    · rw [if_pos hb, without, mem_filter, decide_eq_true_eq, ne_eq, eq_comm]
    · rw [if_neg hb]
      constructor
      · intro ha
        refine ⟨ha, ?_⟩
        intro heq
        rw [heq] at hb
        exact hb ha
      · exact And.left

theorem Valid.edit (h : r.Valid barred limit) {e : RosterEdit α}
    (hlimit : (r.edit barred e).members.length ≤ limit) : (r.edit barred e).Valid barred limit where
  nodup := by
    cases e with
    | add ids =>
      rw [edit_add]
      by_cases hnew : freshIn (barred ++ r.members) ids = []
      · rw [if_pos hnew]
        exact h.nodup
      · rw [if_neg hnew, append, nodup_append]
        refine ⟨h.nodup, nodup_freshIn _ _, ?_⟩
        intro a ha b hb heq
        rw [heq] at ha
        exact (mem_freshIn.mp hb).2 (mem_append_right _ ha)
    | remove a =>
      rw [edit_remove]
      by_cases ha : a ∈ r.members
      · rw [if_pos ha, without]
        exact h.nodup.filter _
      · rw [if_neg ha]
        exact h.nodup
  allowed := by
    intro a ha
    rcases mem_edit.mp ha with hadds | hold
    · exact hadds.2
    · exact h.allowed a hold.1
  length_le := hlimit

omit [DecidableEq α] in
theorem valid_empty (barred : List α) (limit : Nat) : (empty : Roster α).Valid barred limit :=
  ⟨nodup_nil, fun _ ha => absurd ha not_mem_nil, Nat.zero_le _⟩

theorem mem_foldl_edit {edits : List (RosterEdit α)} {a : α} :
    a ∈ (edits.foldl (edit barred) empty).members ↔
      a ∉ barred ∧ AddedLast (RosterEdit.Adds a) (RosterEdit.Removes a) edits := by
  induction edits using List.reverseRecOn with
  | nil =>
    constructor
    · intro h
      cases h
    · intro h
      exact absurd h.2 not_addedLast_nil
  | append_singleton edits e ih =>
    rw [foldl_append, foldl_cons, foldl_nil, mem_edit, ih, addedLast_append_singleton]
    tauto

end Roster

end Dctl.ProofKit
