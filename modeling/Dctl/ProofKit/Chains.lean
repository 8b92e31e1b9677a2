import Mathlib.Data.List.Infix

/-! Chains of names, each of which is left for the next: how much two of them share, which chains
are entered on the way, and sequences in which no chain is entered a second time. -/

namespace Dctl.ProofKit

open List

variable {α : Type} {a : α} {base c c' d d' names : List α} {cs : List (List α)}

section Common

variable [DecidableEq α]

/-- How many names two chains have in common, from the first on. -/
def common : List α → List α → Nat
  | a :: c, b :: c' => if a = b then common c c' + 1 else 0
  | _, _ => 0

theorem take_common (c c' : List α) : c.take (common c c') = c'.take (common c c') := by
  induction c generalizing c' with
  | nil => cases c' <;> rfl
  | cons a c ih =>
    cases c' with
    | nil => rfl
    | cons b c' =>
      rw [common]
      by_cases hsame : a = b
      · rw [if_pos hsame, take_succ_cons, take_succ_cons, ih, hsame]
      · rw [if_neg hsame]
        rfl

theorem common_le (c c' : List α) : common c c' ≤ c.length := by
  induction c generalizing c' with
  | nil => cases c' <;> exact Nat.le_refl _
  | cons a c ih =>
    cases c' with
    | nil => exact Nat.zero_le _
    | cons b c' =>
      rw [common]
      by_cases hsame : a = b
      · rw [if_pos hsame, length_cons]
        exact Nat.succ_le_succ (ih c')
      · rw [if_neg hsame]
        exact Nat.zero_le _

theorem length_le_common (h : d <+: c) (h' : d <+: c') : d.length ≤ common c c' := by
  induction d generalizing c c' with
  | nil => exact Nat.zero_le _
  | cons a d ih =>
    obtain ⟨c, rfl, hc⟩ := cons_prefix_iff.mp h
    obtain ⟨c', rfl, hc'⟩ := cons_prefix_iff.mp h'
    rw [common, if_pos rfl, length_cons]
    exact Nat.succ_le_succ (ih hc hc')

end Common

def entered (base : List α) : List α → List (List α)
  | [] => []
  | name :: names => (base ++ [name]) :: entered (base ++ [name]) names

theorem mem_entered : d ∈ entered base names ↔ d <+: base ++ names ∧ base.length < d.length := by
  induction names generalizing base with
  | nil =>
    rw [entered, append_nil]
    refine ⟨fun h => absurd h not_mem_nil, fun ⟨hbegin, hlen⟩ => ?_⟩
    exact absurd hbegin.length_le (Nat.not_le_of_lt hlen)
  | cons name names ih =>
    have hsplit : base ++ name :: names = base ++ [name] ++ names := by
      rw [append_assoc, singleton_append]
    rw [entered, mem_cons, ih, hsplit, length_append, length_singleton]
    constructor
    · rintro (rfl | ⟨hbegin, hlen⟩)
      · refine ⟨prefix_append _ _, ?_⟩
        rw [length_append, length_singleton]
        exact Nat.lt_succ_self _
      · exact ⟨hbegin, Nat.lt_of_succ_lt hlen⟩
    · rintro ⟨hbegin, hlen⟩
      rcases Nat.lt_or_ge (base.length + 1) d.length with hmore | hless
      · exact .inr ⟨hbegin, hmore⟩
      · left
        refine (prefix_of_prefix_length_le hbegin (prefix_append _ names) ?_).eq_of_length ?_
        · rw [length_append, length_singleton]
          exact hless
        · rw [length_append, length_singleton]
          exact Nat.le_antisymm hless hlen

theorem pairwise_entered (base names : List α) :
    (entered base names).Pairwise fun d d' => d.length < d'.length := by
  induction names generalizing base with
  | nil => exact .nil
  | cons name names ih =>
    refine pairwise_cons.mpr ⟨fun d hd => ?_, ih _⟩
    exact (mem_entered.mp hd).2

/-- What lies between two chains with the same beginning begins so as well. -/
def Contiguous (cs : List (List α)) : Prop :=
  ∀ a b c, [a, b, c].Sublist cs → ∀ d, d <+: a → d <+: c → d <+: b

theorem Contiguous.tail (h : Contiguous (c :: cs)) : Contiguous cs :=
  fun a b c' hsub => h a b c' (hsub.cons c)

theorem Contiguous.left (h : Contiguous (c :: c' :: cs)) (hd : d <+: c) (hleft : ¬d <+: c') :
    ∀ b ∈ cs, ¬d <+: b := by
  intro b hb hdb
  refine hleft (h c c' b ?_ d hd hdb)
  exact ((singleton_sublist.mpr hb).cons_cons c').cons_cons c

theorem contiguous_map {β : Type} {r : β → β → Prop} (f : β → List α) {l : List β}
    (hl : l.Pairwise r)
    (h : ∀ x ∈ l, ∀ y ∈ l, ∀ z ∈ l, r x y → r y z → ∀ d, d <+: f x → d <+: f z → d <+: f y) :
    Contiguous ([] :: l.map f) := by
  intro a b c hsub d hda hdc
  rcases sublist_cons_iff.mp hsub with hsub | ⟨rest, heq, -⟩
  · obtain ⟨l', hl', heq⟩ := sublist_map_iff.mp hsub
    have hlen := congrArg List.length heq
    rw [length_map] at hlen
    obtain ⟨x, y, z, rfl⟩ := length_eq_three.mp hlen.symm
    obtain ⟨rfl, rfl, rfl⟩ : a = f x ∧ b = f y ∧ c = f z := by simpa using heq
    have hpairs := hl.sublist hl'
    simp only [pairwise_cons, mem_cons, not_mem_nil, or_false, forall_eq_or_imp, forall_eq]
      at hpairs
    exact h x (hl'.subset (by simp)) y (hl'.subset (by simp)) z (hl'.subset (by simp)) hpairs.1.1
      hpairs.2.1 d hda hdc
  · obtain rfl : a = [] := (List.cons.inj heq).1
    rw [prefix_nil.mp hda]
    exact nil_prefix

variable [DecidableEq α]

/-- The chains that are entered on the way from a chain through others. -/
def entries : List α → List (List α) → List (List α)
  | _, [] => []
  | c, c' :: cs => entered (c'.take (common c c')) (c'.drop (common c c')) ++ entries c' cs

theorem mem_entered_common : d ∈ entered (c'.take (common c c')) (c'.drop (common c c')) ↔
    d <+: c' ∧ ¬d <+: c := by
  rw [mem_entered, take_append_drop]
  refine and_congr_right fun hd => ?_
  rw [← take_common, length_take, Nat.min_eq_left (common_le c c')]
  constructor
  · intro hlen hdc
    exact absurd (length_le_common hdc hd) (Nat.not_le_of_lt hlen)
  · intro hnot
    refine Nat.lt_of_not_le fun hle => hnot ?_
    have hshort : d <+: c'.take (common c c') := prefix_take_iff.mpr ⟨hd, hle⟩
    rw [← take_common] at hshort
    exact hshort.trans (List.take_prefix _ _)

/-- In a contiguous sequence a chain is entered if it begins one of the chains, unless it begins the
first. -/
theorem mem_entries (h : Contiguous (c :: cs)) :
    d ∈ entries c cs ↔ ¬d <+: c ∧ ∃ c' ∈ cs, d <+: c' := by
  induction cs generalizing c with
  | nil => exact ⟨fun hd => absurd hd not_mem_nil, fun ⟨_, _, hc', _⟩ => absurd hc' not_mem_nil⟩
  | cons c' cs ih =>
    rw [entries, mem_append, mem_entered_common, ih h.tail]
    constructor
    · rintro (⟨hd, hnot⟩ | ⟨hnot, b, hb, hdb⟩)
      · exact ⟨hnot, c', mem_cons_self, hd⟩
      · exact ⟨fun hd => h.left hd hnot b hb hdb, b, mem_cons_of_mem _ hb, hdb⟩
    · rintro ⟨hnot, b, hb, hdb⟩
      by_cases hd : d <+: c'
      · exact .inl ⟨hd, hnot⟩
      · rcases mem_cons.mp hb with rfl | hb
        · exact absurd hdb hd
        · exact .inr ⟨hd, b, hb, hdb⟩

theorem pairwise_entries (h : Contiguous (c :: cs)) :
    (entries c cs).Pairwise fun d d' => ¬d' <+: d := by
  induction cs generalizing c with
  | nil => exact .nil
  | cons c' cs ih =>
    rw [entries, pairwise_append]
    refine ⟨(pairwise_entered _ _).imp fun hlen hbegin => ?_, ih h.tail,
      fun d hd d' hd' hbegin => ?_⟩
    · exact absurd hbegin.length_le (Nat.not_le_of_lt hlen)
    · exact ((mem_entries h.tail).mp hd').1 (hbegin.trans (mem_entered_common.mp hd).1)

end Dctl.ProofKit
