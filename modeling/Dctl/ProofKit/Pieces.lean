import Mathlib.Data.List.DropRight
import Mathlib.Data.List.Infix
import Mathlib.Data.List.Lex
import Mathlib.Order.Lattice
import Dctl.ProofKit.Components

/-! Pieces joined with a separator, the last piece of a sequence, and sequences that begin alike in
lexicographic order. -/

namespace Dctl.ProofKit

open List

section

variable {α : Type} {sep : α} {name : List α} {names more : List (List α)}

/-- Pieces that stand for themselves between separators. -/
def Pieces (sep : α) (names : List (List α)) : Prop := ∀ name ∈ names, name ≠ [] ∧ sep ∉ name

theorem Pieces.of_subset (h : Pieces sep names) (hsub : more ⊆ names) : Pieces sep more :=
  fun name hname => h name (hsub hname)

theorem Pieces.append (h : Pieces sep names) (h' : Pieces sep more) :
    Pieces sep (names ++ more) := by
  intro name hname
  rcases mem_append.mp hname with hname | hname
  · exact h name hname
  · exact h' name hname

theorem pieces_singleton (h : name ≠ []) (hsep : sep ∉ name) : Pieces sep [name] := by
  intro piece hpiece
  rw [mem_singleton.mp hpiece]
  exact ⟨h, hsep⟩

theorem intercalate_append (hnames : names ≠ []) (hmore : more ≠ []) :
    [sep].intercalate (names ++ more) = [sep].intercalate names ++ sep ::
      [sep].intercalate more := by
  induction names with
  | nil => exact absurd rfl hnames
  | cons first names ih =>
    cases names with
    | nil => rw [singleton_append, intercalate_cons_of_ne_nil hmore, intercalate_singleton,
        append_assoc, singleton_append]
    | cons second names =>
      have hrest := ih (cons_ne_nil second names)
      rw [cons_append, intercalate_cons_of_ne_nil (by simp), hrest,
        intercalate_cons_of_ne_nil (cons_ne_nil second names), append_assoc, append_assoc,
        append_assoc]

theorem getLast_intercalate (h : Pieces sep names) (hl : [sep].intercalate names ≠ []) :
    ([sep].intercalate names).getLast hl ≠ sep := by
  induction names using List.reverseRecOn with
  | nil => exact absurd rfl hl
  | append_singleton names name _ =>
    obtain ⟨hne, hsep⟩ := h name (by simp)
    have hends : ∃ front, [sep].intercalate (names ++ [name]) = front ++ name := by
      by_cases hnil : names = []
      · exact ⟨[], by rw [hnil, nil_append, intercalate_singleton, nil_append]⟩
      · exact ⟨[sep].intercalate names ++ [sep], by
          rw [intercalate_append hnil (by simp), intercalate_singleton, append_assoc,
            singleton_append]⟩
    obtain ⟨front, hfront⟩ := hends
    intro heq
    have hmem : ([sep].intercalate (names ++ [name])).getLast hl ∈ name := by
      simp only [hfront]
      rw [getLast_append_of_ne_nil (by simp [hne]) hne]
      exact getLast_mem hne
    exact hsep (heq ▸ hmem)

theorem intercalate_ne_nil (h : Pieces sep names) (hne : names ≠ []) :
    [sep].intercalate names ≠ [] := by
  obtain ⟨first, rest, rfl⟩ := exists_cons_of_ne_nil hne
  obtain ⟨hfirst, -⟩ := h first mem_cons_self
  cases rest with
  | nil => rwa [intercalate_singleton]
  | cons second rest =>
    rw [intercalate_cons_cons]
    simp [hfirst]

end

section

variable {α : Type} [DecidableEq α] {sep : α} {l name : List α} {names : List (List α)}

theorem pieces_segments (sep : α) (l : List α) :
    Pieces sep (segments sep l) := fun _ => of_mem_segments

theorem segments_eq_nil : segments sep l = [] ↔ ∀ a ∈ l, a = sep := by
  induction l with
  | nil => simp
  | cons a l ih =>
    by_cases ha : a = sep
    · rw [ha, segments_cons, ih]
      simp
    · constructor
      · intro hnil
        obtain ⟨first, rest, hsplit, hfirst⟩ :=
          exists_splitOn (cons_ne_nil a l) fun heq => ha (Option.some.inj heq)
        rw [segments, hsplit, filter_cons, if_pos (decide_eq_true hfirst)] at hnil
        cases hnil
      · intro hall
        exact absurd (hall a mem_cons_self) ha

theorem rdropWhile_intercalate (h : Pieces sep names) (k : Nat) :
    ([sep].intercalate names ++ List.replicate k sep).rdropWhile (· = sep) =
      [sep].intercalate names := by
  induction k with
  | zero =>
    rw [replicate_zero, append_nil, rdropWhile_eq_self_iff]
    intro hl
    simpa using getLast_intercalate h hl
  | succ k ih =>
    rw [replicate_succ', ← append_assoc, rdropWhile_concat_pos _ _ _ (by simp), ih]

theorem exists_replicate (sep : α) (l : List α) :
    ∃ k, l = l.rdropWhile (· = sep) ++ List.replicate k sep := by
  refine ⟨(l.rtakeWhile (· = sep)).length, ?_⟩
  have hall : ∀ a ∈ l.rtakeWhile (· = sep), a = sep := fun a ha => by
    simpa using mem_rtakeWhile_imp ha
  rw [← eq_replicate_of_mem hall, rdropWhile_append_rtakeWhile]

theorem not_mem_rtakeWhile (sep : α) (l : List α) : sep ∉ l.rtakeWhile (· ≠ sep) := fun h => by
  simpa using mem_rtakeWhile_imp h

theorem rtakeWhile_of_not_mem (h : sep ∉ l) : l.rtakeWhile (· ≠ sep) = l := by
  rw [rtakeWhile_eq_self_iff]
  intro a ha
  simpa using fun heq : a = sep => h (heq ▸ ha)

theorem rtakeWhile_append (h : sep ∉ name) : (l ++ sep :: name).rtakeWhile (· ≠ sep) = name := by
  induction name using List.reverseRecOn with
  | nil => rw [rtakeWhile_concat_neg _ _ _ (by simp)]
  | append_singleton name a ih =>
    rw [mem_append, not_or, mem_singleton] at h
    rw [← cons_append, ← append_assoc, rtakeWhile_concat_pos _ _ _ (by simpa using Ne.symm h.2),
      ih h.1]

end

theorem isPrefix_of_between {α : Type} [LinearOrder α] {s x y z : List α} (hx : s <+: x)
    (hz : s <+: z) (hxy : x < y) (hyz : y < z) : s <+: y := by
  induction s generalizing x y z with
  | nil => exact nil_prefix
  | cons c s ih =>
    obtain ⟨x, rfl⟩ := hx
    obtain ⟨z, rfl⟩ := hz
    cases y with
    | nil => cases hxy
    | cons d y =>
      rw [cons_append, cons_lt_cons_iff] at hxy hyz
      rcases hxy with hcd | ⟨rfl, hxy⟩
      · rcases hyz with hdc | ⟨rfl, -⟩
        · exact absurd hcd (lt_asymm hdc)
        · exact absurd hcd (lt_irrefl _)
      · rcases hyz with hdc | ⟨-, hyz⟩
        · exact absurd hdc (lt_irrefl _)
        · obtain ⟨t, ht⟩ := ih (prefix_append s x) (prefix_append s z) hxy hyz
          exact ⟨t, by rw [cons_append, ht]⟩

end Dctl.ProofKit
