import Mathlib.Data.List.Basic

/-! Sequences cut at a separator: what stands before and behind each occurrence. -/

namespace Dctl.ProofKit

open List

variable {α : Type} [DecidableEq α]

def prefixesAt (sep : α) : List α → List (List α)
  | [] => []
  | a :: rest =>
    let longer := (prefixesAt sep rest).map (a :: ·)
    if a = sep then [] :: longer else longer

def suffixesAt (sep : α) : List α → List (List α)
  | [] => []
  | a :: rest => if a = sep then rest :: suffixesAt sep rest else suffixesAt sep rest

variable {sep : α} {l name : List α}

theorem prefixesAt_of_not_mem (h : sep ∉ l) : prefixesAt sep l = [] := by
  induction l with
  | nil => rfl
  | cons a rest ih =>
    rw [mem_cons, not_or] at h
    rw [prefixesAt, ih h.2, if_neg (Ne.symm h.1), map_nil]

theorem prefixesAt_append (h : sep ∉ name) :
    prefixesAt sep (l ++ sep :: name) = prefixesAt sep l ++ [l] := by
  induction l with
  | nil => simp [prefixesAt, prefixesAt_of_not_mem h]
  | cons a rest ih =>
    rw [cons_append, prefixesAt, ih, prefixesAt]
    split <;> simp

def segments (sep : α) (l : List α) : List (List α) := (l.splitOn sep).filter (· ≠ [])

@[simp] theorem segments_nil : segments sep [] = [] := by
  rw [segments, splitOn_nil]
  rfl

theorem segments_append (a b : List α) :
    segments sep (a ++ sep :: b) = segments sep a ++ segments sep b := by
  rw [segments, splitOn_append_cons_self, filter_append]
  rfl

theorem segments_cons (b : List α) : segments sep (sep :: b) = segments sep b := by
  have h := @segments_append α _ sep [] b
  rwa [nil_append, segments_nil, nil_append] at h

theorem segments_eq_singleton (hsep : sep ∉ name) (h : name ≠ []) : segments sep name = [name] := by
  rw [segments, splitOn_eq_singleton hsep, filter_eq_self]
  intro piece hpiece
  rw [mem_singleton.mp hpiece]
  exact decide_eq_true h

theorem not_mem_of_mem_splitOn (h : name ∈ l.splitOn sep) : sep ∉ name := by
  induction l generalizing name with
  | nil =>
    rw [splitOn_nil, mem_singleton] at h
    exact h ▸ not_mem_nil
  | cons a l ih =>
    rw [splitOn_cons_eq_if_modifyHead] at h
    by_cases ha : a = sep
    · rw [if_pos (beq_iff_eq.mpr ha), mem_cons] at h
      rcases h with rfl | h
      · exact not_mem_nil
      · exact ih h
    · rw [if_neg (by simpa using ha)] at h
      cases hl : l.splitOn sep with
      | nil => exact absurd hl (splitOn_ne_nil _ _)
      | cons first rest =>
        rw [hl, modifyHead_cons, mem_cons] at h
        rcases h with rfl | h
        · rw [mem_cons, not_or]
          exact ⟨Ne.symm ha, ih (hl ▸ mem_cons_self)⟩
        · exact ih (hl ▸ mem_cons_of_mem _ h)

theorem exists_splitOn (h : l ≠ []) (hhead : l.head? ≠ some sep) :
    ∃ first rest, l.splitOn sep = first :: rest ∧ first ≠ [] := by
  obtain ⟨a, l, rfl⟩ := exists_cons_of_ne_nil h
  have ha : a ≠ sep := fun heq => hhead (congrArg some heq)
  rw [splitOn_cons_eq_if_modifyHead, if_neg (by simpa using ha)]
  obtain ⟨first, rest, hrest⟩ := exists_cons_of_ne_nil (splitOn_ne_nil sep l)
  rw [hrest]
  exact ⟨a :: first, rest, rfl, cons_ne_nil _ _⟩

theorem of_mem_segments (h : name ∈ segments sep l) : name ≠ [] ∧ sep ∉ name := by
  rw [segments, mem_filter, decide_eq_true_iff] at h
  exact ⟨h.2, not_mem_of_mem_splitOn h.1⟩

omit [DecidableEq α] in
theorem intercalate_concat {ls : List (List α)} (h : ls ≠ []) :
    [sep].intercalate (ls ++ [l]) = [sep].intercalate ls ++ sep :: l := by
  induction ls with
  | nil => exact absurd rfl h
  | cons a ls ih =>
    cases ls with
    | nil => simp [List.intercalate]
    | cons b ls =>
      have hrest := ih (cons_ne_nil b ls)
      simp only [List.intercalate, cons_append, intersperse_cons_cons, flatten_cons] at hrest ⊢
      rw [hrest]
      simp

theorem segments_intercalate {names : List (List α)} (h : ∀ name ∈ names, name ≠ [] ∧ sep ∉ name) :
    segments sep ([sep].intercalate names) = names := by
  by_cases hnames : names = []
  · subst hnames
    exact segments_nil
  · rw [segments, splitOn_intercalate sep (fun name hname => (h name hname).2) hnames,
      filter_eq_self]
    exact fun name hname => decide_eq_true (h name hname).1

end Dctl.ProofKit
