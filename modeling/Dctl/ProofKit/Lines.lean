import Mathlib.Data.List.Basic

/-! Texts as lines.  A text is a list of terminated lines and the fragment after the last
terminator.  What is appended to a text, or cut off at its front, changes only the line it falls
into. -/

namespace Dctl.ProofKit

open List

variable {α : Type}

def unlines (nl : α) (lines : List (List α)) : List α := lines.flatMap fun line => line ++ [nl]

def continued (fragment : List α) : List (List α) → List (List α)
  | [] => []
  | line :: lines => (fragment ++ line) :: lines

section Unlines

variable {nl : α} {line : List α} {ls ms : List (List α)}

@[simp] theorem unlines_nil : unlines nl [] = [] := rfl

@[simp] theorem unlines_cons : unlines nl (line :: ls) = line ++ nl :: unlines nl ls := by
  simp [unlines]

@[simp] theorem unlines_append : unlines nl (ls ++ ms) = unlines nl ls ++ unlines nl ms :=
  flatMap_append

@[simp] theorem continued_nil : continued [] ls = ls := by
  cases ls <;> rfl

theorem length_le_length_unlines (nl : α) (ls : List (List α)) :
    ls.length ≤ (unlines nl ls).length := by
  induction ls with
  | nil => exact Nat.le_refl _
  | cons line ls ih =>
    rw [unlines_cons, length_cons, length_append, length_cons]
    omega

end Unlines

variable [DecidableEq α]

def rposition (nl : α) (xs : List α) : Option Nat :=
  (xs.reverse.findIdx? fun x => x = nl).map fun i => xs.length - 1 - i

def linesOf (nl : α) : List α → List (List α)
  | [] => []
  | x :: xs =>
    if x = nl then [] :: linesOf nl xs
    else match linesOf nl xs with
      | [] => []
      | line :: lines => (x :: line) :: lines

def fragmentOf (nl : α) : List α → List α
  | [] => []
  | x :: xs =>
    if x ≠ nl ∧ linesOf nl xs = [] then x :: fragmentOf nl xs else fragmentOf nl xs

variable {nl : α} {xs ys line : List α} {ls : List (List α)}

@[simp] theorem linesOf_nil : linesOf nl [] = [] := rfl

@[simp] theorem fragmentOf_nil : fragmentOf nl [] = [] := rfl

theorem linesOf_terminator : linesOf nl (nl :: xs) = [] :: linesOf nl xs := by
  rw [linesOf, if_pos rfl]

theorem linesOf_cons {x : α} (h : x ≠ nl) :
    linesOf nl (x :: xs) = continued [x] (linesOf nl xs) := by
  rw [linesOf, if_neg h]
  cases linesOf nl xs <;> rfl

theorem fragmentOf_terminator : fragmentOf nl (nl :: xs) = fragmentOf nl xs := by
  rw [fragmentOf, if_neg (by simp)]

theorem fragmentOf_cons {x : α} (h : x ≠ nl) :
    fragmentOf nl (x :: xs) = if linesOf nl xs = [] then x :: fragmentOf nl xs
      else fragmentOf nl xs := by
  rw [fragmentOf]
  simp only [ne_eq, h, not_false_eq_true, true_and]

theorem unlines_linesOf (nl : α) (xs : List α) :
    unlines nl (linesOf nl xs) ++ fragmentOf nl xs = xs := by
  induction xs with
  | nil => rfl
  | cons x xs ih =>
    by_cases hx : x = nl
    · subst hx
      rw [linesOf_terminator, fragmentOf_terminator, unlines_cons, nil_append, cons_append,
        ih]
    · rw [linesOf_cons hx, fragmentOf_cons hx]
      cases hlines : linesOf nl xs with
      | nil =>
        rw [hlines] at ih
        simp only [continued, ↓reduceIte, unlines_nil, nil_append] at ih ⊢
        rw [ih]
      | cons line ls =>
        rw [hlines] at ih
        simp only [continued, unlines_cons, reduceCtorEq, ↓reduceIte, cons_append,
          nil_append] at ih ⊢
        rw [ih]

theorem not_mem_of_mem_linesOf (h : line ∈ linesOf nl xs) : nl ∉ line := by
  induction xs generalizing line with
  | nil => cases h
  | cons x xs ih =>
    by_cases hx : x = nl
    · subst hx
      rw [linesOf_terminator] at h
      rcases mem_cons.mp h with rfl | h
      · exact not_mem_nil
      · exact ih h
    · rw [linesOf_cons hx] at h
      cases hlines : linesOf nl xs with
      | nil =>
        rw [hlines] at h
        cases h
      | cons first ls =>
        rw [hlines] at h ih
        rcases mem_cons.mp h with rfl | h
        · have hfirst := ih (mem_cons_self ..)
          simp only [singleton_append, mem_cons, not_or]
          exact ⟨Ne.symm hx, hfirst⟩
        · exact ih (mem_cons_of_mem _ h)

theorem not_mem_fragmentOf (nl : α) (xs : List α) : nl ∉ fragmentOf nl xs := by
  induction xs with
  | nil => exact not_mem_nil
  | cons x xs ih =>
    rw [fragmentOf]
    split
    next h =>
      simp only [mem_cons, not_or]
      exact ⟨Ne.symm h.1, ih⟩
    next => exact ih

theorem linesOf_append (nl : α) (xs ys : List α) :
    linesOf nl (xs ++ ys) = linesOf nl xs ++ continued (fragmentOf nl xs) (linesOf nl ys) := by
  induction xs with
  | nil => simp
  | cons x xs ih =>
    by_cases hx : x = nl
    · subst hx
      rw [cons_append, linesOf_terminator, linesOf_terminator, fragmentOf_terminator, ih,
        cons_append]
    · rw [cons_append, linesOf_cons hx, linesOf_cons hx, fragmentOf_cons hx, ih]
      cases hlines : linesOf nl xs with
      | nil => cases linesOf nl ys <;> simp [continued]
      | cons line ls => simp [continued]

theorem fragmentOf_append (nl : α) (xs ys : List α) :
    fragmentOf nl (xs ++ ys) =
      if linesOf nl ys = [] then fragmentOf nl xs ++ fragmentOf nl ys else fragmentOf nl ys := by
  induction xs with
  | nil => simp
  | cons x xs ih =>
    by_cases hx : x = nl
    · subst hx
      rw [cons_append, fragmentOf_terminator, fragmentOf_terminator, ih]
    · rw [cons_append, fragmentOf_cons hx, fragmentOf_cons hx, linesOf_append, ih]
      cases hlines : linesOf nl xs <;> cases linesOf nl ys <;> simp [continued]

theorem linesOf_of_not_mem (h : nl ∉ xs) : linesOf nl xs = [] := by
  induction xs with
  | nil => rfl
  | cons x xs ih =>
    simp only [mem_cons, not_or] at h
    rw [linesOf_cons (Ne.symm h.1), ih h.2, continued]

theorem fragmentOf_of_not_mem (h : nl ∉ xs) : fragmentOf nl xs = xs := by
  have hparts := unlines_linesOf nl xs
  rwa [linesOf_of_not_mem h, unlines_nil, nil_append] at hparts

theorem linesOf_line (h : nl ∉ line) : linesOf nl (line ++ [nl]) = [line] := by
  rw [linesOf_append, linesOf_of_not_mem h, fragmentOf_of_not_mem h, linesOf_terminator]
  simp [continued]

theorem fragmentOf_line (nl : α) (line : List α) : fragmentOf nl (line ++ [nl]) = [] := by
  rw [fragmentOf_append, linesOf_terminator, if_neg (by simp), fragmentOf_terminator,
    fragmentOf_nil]

theorem linesOf_unlines (h : ∀ line ∈ ls, nl ∉ line) :
    linesOf nl (unlines nl ls) = ls ∧ fragmentOf nl (unlines nl ls) = [] := by
  induction ls with
  | nil => exact ⟨rfl, rfl⟩
  | cons line ls ih =>
    obtain ⟨hlines, hfragment⟩ := ih fun l hl => h l (mem_cons_of_mem _ hl)
    have hline := h line (mem_cons_self ..)
    have hsplit : unlines nl (line :: ls) = (line ++ [nl]) ++ unlines nl ls := by simp
    rw [hsplit]
    constructor
    · rw [linesOf_append, linesOf_line hline, fragmentOf_line, hlines, continued_nil]
      rfl
    · rw [fragmentOf_append, fragmentOf_line, hfragment]
      simp

theorem linesOf_complete (nl : α) (xs : List α) :
    linesOf nl (unlines nl (linesOf nl xs)) = linesOf nl xs ∧
      fragmentOf nl (unlines nl (linesOf nl xs)) = [] :=
  linesOf_unlines fun _ h => not_mem_of_mem_linesOf h

theorem linesOf_unlines_append (h : ∀ line ∈ ls, nl ∉ line) (ys : List α) :
    linesOf nl (unlines nl ls ++ ys) = ls ++ linesOf nl ys ∧
      fragmentOf nl (unlines nl ls ++ ys) = fragmentOf nl ys := by
  obtain ⟨hlines, hfragment⟩ := linesOf_unlines h
  rw [linesOf_append, fragmentOf_append, hlines, hfragment]
  simp

theorem linesOf_prefix (h : xs <+: ys) : linesOf nl xs <+: linesOf nl ys := by
  obtain ⟨zs, rfl⟩ := h
  rw [linesOf_append]
  exact prefix_append ..

theorem length_unlines_linesOf (nl : α) (xs : List α) :
    (unlines nl (linesOf nl xs)).length = xs.length - (fragmentOf nl xs).length := by
  have hparts := congrArg List.length (unlines_linesOf nl xs)
  rw [length_append] at hparts
  omega

theorem take_complete (nl : α) (xs : List α) :
    xs.take (xs.length - (fragmentOf nl xs).length) = unlines nl (linesOf nl xs) := by
  rw [← length_unlines_linesOf]
  have htake : (unlines nl (linesOf nl xs) ++ fragmentOf nl xs).take
      (unlines nl (linesOf nl xs)).length = unlines nl (linesOf nl xs) := take_left
  rwa [unlines_linesOf] at htake

theorem unlines_prefix_iff (hls : ∀ line ∈ ls, nl ∉ line) :
    unlines nl ls <+: xs ↔ ls <+: linesOf nl xs := by
  constructor
  · intro h
    have hpre : linesOf nl (unlines nl ls) <+: linesOf nl xs := linesOf_prefix h
    rwa [(linesOf_unlines hls).1] at hpre
  · intro h
    obtain ⟨rest, hrest⟩ := h
    rw [← unlines_linesOf nl xs, ← hrest, unlines_append, append_assoc]
    exact prefix_append ..

theorem rposition_of_not_mem (h : nl ∉ xs) : rposition nl xs = none := by
  rw [rposition, Option.map_eq_none_iff, List.findIdx?_eq_none_iff]
  intro x hx
  rw [decide_eq_false_iff_not]
  rintro rfl
  exact h (mem_reverse.mp hx)

theorem rposition_append (h : nl ∉ ys) : rposition nl (xs ++ nl :: ys) = some xs.length := by
  have hnone : (ys.reverse.findIdx? fun x => x = nl) = none := by
    rw [List.findIdx?_eq_none_iff]
    intro x hx
    rw [decide_eq_false_iff_not]
    rintro rfl
    exact h (mem_reverse.mp hx)
  rw [rposition, reverse_append, reverse_cons, append_assoc, List.findIdx?_append,
    hnone, singleton_append, List.findIdx?_cons]
  simp

theorem after_rposition (nl : α) (xs : List α) :
    (match rposition nl xs with | some i => i + 1 | none => 0) =
      (unlines nl (linesOf nl xs)).length := by
  have hparts := unlines_linesOf nl xs
  rcases eq_nil_or_concat (linesOf nl xs) with hnil | ⟨ls, line, hls⟩
  · rw [hnil, unlines_nil, nil_append] at hparts
    have hclean := not_mem_fragmentOf nl xs
    rw [hparts] at hclean
    rw [rposition_of_not_mem hclean, hnil, unlines_nil, length_nil]
  · have hposition : rposition nl xs = some (unlines nl ls ++ line).length := by
      conv_lhs => rw [← hparts]
      rw [hls, concat_eq_append, unlines_append, unlines_cons, unlines_nil, ← append_assoc,
        append_assoc, cons_append]
      exact rposition_append (not_mem_fragmentOf nl xs)
    rw [hposition, hls, concat_eq_append, unlines_append, unlines_cons, unlines_nil]
    simp
    omega

end Dctl.ProofKit
