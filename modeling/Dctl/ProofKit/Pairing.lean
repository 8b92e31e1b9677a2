import Mathlib.Data.List.Forall2
import Mathlib.Data.List.Induction

/-! Pairing two lists by a key: a map from each key to the last position that holds it, and a flag
for each position that some key has reached. -/

namespace Dctl.ProofKit

open List

variable {α β κ : Type} [DecidableEq κ]

def positions (key : β → κ) (l : List β) : κ → Option Nat :=
  l.zipIdx.foldl (fun map x => fun k => if key x.1 = k then some x.2 else map k) fun _ => none

theorem positions_append_singleton (key : β → κ) (l : List β) (x : β) (k : κ) :
    positions key (l ++ [x]) k = if key x = k then some l.length else positions key l k := by
  simp [positions, zipIdx_append, foldl_append]

variable {l : List β} {i : Nat} {x : β}

theorem getElem?_append_singleton {y : β} :
    (l ++ [x])[i]? = some y ↔ l[i]? = some y ∨ (i = l.length ∧ x = y) := by
  rcases Nat.lt_trichotomy i l.length with h | h | h
  · rw [List.getElem?_append_left h]
    simp [Nat.ne_of_lt h]
  · subst h
    simp
  · have hnone : l[i]? = none := List.getElem?_eq_none (Nat.le_of_lt h)
    have hbeyond : (l ++ [x])[i]? = none := by
      rw [List.getElem?_eq_none_iff, length_append, length_singleton]
      exact h
    simp [hnone, hbeyond, Nat.ne_of_gt h]

variable {key : β → κ} {k : κ}

theorem positions_eq_some :
    positions key l k = some i ↔
      (∃ x, l[i]? = some x ∧ key x = k) ∧ ∀ j y, i < j → l[j]? = some y → key y ≠ k := by
  induction l using List.reverseRecOn with
  | nil => simp [positions]
  | append_singleton l x ih =>
    simp only [positions_append_singleton, getElem?_append_singleton]
    by_cases hx : key x = k
    · rw [if_pos hx]
      constructor
      · intro h
        cases h
        refine ⟨⟨x, Or.inr ⟨rfl, rfl⟩, hx⟩, ?_⟩
        rintro j y hj (hy | ⟨rfl, -⟩)
        · exact absurd (List.getElem?_eq_some_iff.mp hy).1 (by omega)
        · exact absurd hj (Nat.lt_irrefl _)
      · rintro ⟨⟨y, hy | ⟨rfl, -⟩, -⟩, hlast⟩
        · have hlt := (List.getElem?_eq_some_iff.mp hy).1
          exact absurd hx (hlast l.length x hlt (Or.inr ⟨rfl, rfl⟩))
        · rfl
    · rw [if_neg hx, ih]
      constructor
      · rintro ⟨⟨y, hy, hky⟩, hlast⟩
        refine ⟨⟨y, Or.inl hy, hky⟩, ?_⟩
        rintro j z hj (hz | ⟨-, rfl⟩)
        · exact hlast j z hj hz
        · exact hx
      · rintro ⟨⟨y, hy | ⟨-, rfl⟩, hky⟩, hlast⟩
        · exact ⟨⟨y, hy, hky⟩, fun j z hj hz => hlast j z hj (Or.inl hz)⟩
        · exact absurd hky hx

theorem positions_eq_none : positions key l k = none ↔ ∀ x ∈ l, key x ≠ k := by
  induction l using List.reverseRecOn with
  | nil => simp [positions]
  | append_singleton l x ih =>
    rw [positions_append_singleton]
    by_cases hx : key x = k
    · rw [if_pos hx]
      constructor
      · intro h
        cases h
      · intro h
        exact absurd hx (h x (by simp))
    · rw [if_neg hx, ih]
      constructor
      · intro h y hy
        rcases mem_append.mp hy with hy | hy
        · exact h y hy
        · rw [mem_singleton.mp hy]
          exact hx
      · intro h y hy
        exact h y (by simp [hy])

def lastWith (key : β → κ) (l : List β) (k : κ) : Option β := (positions key l k).bind (l[·]?)

theorem lastWith_eq_some (h : lastWith key l k = some x) : x ∈ l ∧ key x = k := by
  obtain ⟨i, hi, hx⟩ := Option.bind_eq_some_iff.mp h
  obtain ⟨⟨y, hy, hky⟩, -⟩ := positions_eq_some.mp hi
  obtain rfl : y = x := Option.some.inj (hy.symm.trans hx)
  exact ⟨mem_of_getElem? hy, hky⟩

theorem lastWith_eq_none : lastWith key l k = none ↔ ∀ x ∈ l, key x ≠ k := by
  rw [← positions_eq_none, lastWith]
  constructor
  · intro h
    cases hp : positions key l k with
    | none => rfl
    | some i =>
      obtain ⟨⟨y, hy, -⟩, -⟩ := positions_eq_some.mp hp
      rw [hp, Option.bind_some, hy] at h
      cases h
  · intro h
    rw [h]
    rfl

theorem lastWith_isSome (hx : x ∈ l) : ∃ y, lastWith key l (key x) = some y := by
  cases h : lastWith key l (key x) with
  | none => exact absurd rfl (lastWith_eq_none.mp h x hx)
  | some y => exact ⟨y, rfl⟩

theorem lastWith_eq_getLast? (key : β → κ) (l : List β) (k : κ) :
    lastWith key l k = (l.filter fun x => key x = k).getLast? := by
  induction l using List.reverseRecOn with
  | nil => rfl
  | append_singleton l x ih =>
    rw [lastWith, positions_append_singleton, filter_append]
    by_cases hx : key x = k
    · simp [hx]
    · rw [if_neg hx]
      simp only [hx, decide_false, Bool.false_eq_true, not_false_eq_true, filter_cons_of_neg,
        filter_nil, append_nil, ← ih, lastWith]
      cases hp : positions key l k with
      | none => rfl
      | some i =>
        obtain ⟨⟨y, hy, -⟩, -⟩ := positions_eq_some.mp hp
        have hlt := (List.getElem?_eq_some_iff.mp hy).1
        simp [List.getElem?_append_left hlt]

theorem filter_mergeSort {le : κ → κ → Bool} (trans : ∀ a b c, le a b → le b c → le a c)
    (total : ∀ a b, le a b || le b a) (l : List β) (k : κ) :
    ((l.mergeSort fun a b => le (key a) (key b)).filter fun x => key x = k) =
      l.filter fun x => key x = k := by
  have hrefl : le k k = true := by simpa using total k k
  have hsorted : (l.filter fun x => key x = k).Pairwise fun a b => le (key a) (key b) := by
    refine pairwise_of_forall_mem_list fun a ha b hb => ?_
    rw [of_decide_eq_true (mem_filter.mp ha).2, of_decide_eq_true (mem_filter.mp hb).2]
    exact hrefl
  have hsub : (l.filter fun x => key x = k).Sublist
      (l.mergeSort fun a b => le (key a) (key b)) :=
    sublist_mergeSort (fun a b c => trans (key a) (key b) (key c))
      (fun a b => total (key a) (key b)) hsorted filter_sublist
  have hfilter := hsub.filter fun x => decide (key x = k)
  rw [filter_filter, filter_congr fun x _ => Bool.and_self _] at hfilter
  refine (hfilter.eq_of_length ?_).symm
  exact ((mergeSort_perm l _).filter _).length_eq.symm

theorem lastWith_mergeSort {key : β → κ} {le : κ → κ → Bool}
    (trans : ∀ a b c, le a b → le b c → le a c) (total : ∀ a b, le a b || le b a) (l : List β)
    (k : κ) : lastWith key (l.mergeSort fun a b => le (key a) (key b)) k = lastWith key l k := by
  rw [lastWith_eq_getLast?, lastWith_eq_getLast?, filter_mergeSort trans total]

variable {xs : List α} {ys : List β} {R : α → β → Prop}

theorem forall₂_exists_left {y : β} (h : List.Forall₂ R xs ys) (hy : y ∈ ys) : ∃ x ∈ xs, R x y := by
  induction h with
  | nil => cases hy
  | cons hxy _ ih =>
    rcases mem_cons.mp hy with rfl | hy
    · exact ⟨_, by simp, hxy⟩
    · obtain ⟨x, hx, hr⟩ := ih hy
      exact ⟨x, by simp [hx], hr⟩

theorem forall₂_exists_right {x : α} (h : List.Forall₂ R xs ys) (hx : x ∈ xs) : ∃ y ∈ ys, R x y :=
  forall₂_exists_left h.flip hx

theorem forall₂_of_map_eq {γ : Type} {f : α → γ} {g : β → γ} (h : xs.map f = ys.map g) :
    List.Forall₂ (fun x y => x ∈ xs ∧ y ∈ ys ∧ f x = g y) xs ys := by
  have hpairs : List.Forall₂ (fun x y => f x = g y) xs ys := by
    rw [← List.forall₂_map_right_iff (R := fun x c => f x = c),
      ← List.forall₂_map_left_iff (R := fun c d => c = d), List.forall₂_eq_eq_eq]
    exact h
  have hright : List.Forall₂ (fun y x => y ∈ ys ∧ f x = g y) ys xs :=
    (List.forall₂_and_left ys xs).mpr ⟨fun y hy => hy, hpairs.flip⟩
  exact (List.forall₂_and_left xs ys).mpr ⟨fun x hx => hx, hright.flip⟩

theorem forall₂_getLast? (h : List.Forall₂ R xs ys) : Option.Rel R xs.getLast? ys.getLast? := by
  induction h with
  | nil => exact .none
  | @cons x y xs ys hxy _ ih =>
    rw [List.getLast?_cons, List.getLast?_cons]
    refine .some ?_
    revert ih
    generalize xs.getLast? = a
    generalize ys.getLast? = b
    rintro (hlast | -)
    · exact hlast
    · exact hxy

theorem forall₂_lastWith {key : α → κ} {key' : β → κ} (hkey : ∀ x y, R x y → key x = key' y)
    (h : List.Forall₂ R xs ys) (k : κ) : Option.Rel R (lastWith key xs k) (lastWith key' ys k) := by
  rw [lastWith_eq_getLast?, lastWith_eq_getLast?]
  apply forall₂_getLast?
  induction h with
  | nil => exact .nil
  | @cons x y _ _ hxy _ ih =>
    rw [filter_cons, filter_cons, hkey x y hxy]
    split
    · exact .cons hxy ih
    · exact ih

def mark (flags : List Bool) : Option Nat → List Bool
  | none => flags
  | some i => flags.set i true

@[simp] theorem length_mark (flags : List Bool) (o : Option Nat) :
    (mark flags o).length = flags.length := by
  cases o <;> simp [mark]

theorem getElem?_mark {flags : List Bool} {o : Option Nat} :
    (mark flags o)[i]? = some true ↔
      flags[i]? = some true ∨ (o = some i ∧ i < flags.length) := by
  cases o with
  | none => simp [mark]
  | some j =>
    rw [mark, List.getElem?_set]
    by_cases hj : j = i
    · subst hj
      by_cases hlt : j < flags.length
      · simp [hlt]
      · simp [hlt]
    · rw [if_neg hj]
      constructor
      · exact Or.inl
      · rintro (h | ⟨h, -⟩)
        · exact h
        · exact absurd (Option.some.inj h) hj

theorem getElem?_foldl_mark {reach : α → Option Nat} {l : List α} {flags : List Bool} :
    (l.foldl (fun flags a => mark flags (reach a)) flags)[i]? = some true ↔
      flags[i]? = some true ∨ ((∃ a ∈ l, reach a = some i) ∧ i < flags.length) := by
  induction l generalizing flags with
  | nil => simp
  | cons a rest ih =>
    rw [foldl_cons, ih, getElem?_mark, length_mark]
    constructor
    · rintro ((h | ⟨h, hlt⟩) | ⟨⟨b, hb, hr⟩, hlt⟩)
      · exact Or.inl h
      · exact Or.inr ⟨⟨a, by simp, h⟩, hlt⟩
      · exact Or.inr ⟨⟨b, by simp [hb], hr⟩, hlt⟩
    · rintro (h | ⟨⟨b, hb, hr⟩, hlt⟩)
      · exact Or.inl (Or.inl h)
      · rcases mem_cons.mp hb with rfl | hb
        · exact Or.inl (Or.inr ⟨hr, hlt⟩)
        · exact Or.inr ⟨⟨b, hb, hr⟩, hlt⟩

end Dctl.ProofKit
