import Mathlib.Data.List.TakeWhile
import Mathlib.Order.Interval.Finset.Nat

/-! A sorted list that is read in pages, each of them behind the last element of the page before.
Loops that run pass by pass until one of them ends, and loops over the pages of a server, each of
which is asked with the cursor that the one before has handed back. -/

namespace Dctl.ProofKit

open List

section

variable {α : Type} {l : List α} {size : Nat} {n : α}

def partitionPoint (p : α → Bool) (l : List α) : Nat := (l.takeWhile p).length

theorem drop_partitionPoint (p : α → Bool) (l : List α) :
    l.drop (partitionPoint p l) = l.dropWhile p := by
  induction l with
  | nil => rfl
  | cons a l ih =>
    rw [partitionPoint, takeWhile_cons, dropWhile_cons]
    split
    · rw [length_cons, drop_succ_cons]
      exact ih
    · rfl

theorem partitionPoint_le (p : α → Bool) (l : List α) : partitionPoint p l ≤ l.length :=
  (List.takeWhile_prefix p).length_le

def nextCursor (size : Nat) (rest : List α) : Option α :=
  if size < rest.length then rest[size - 1]? else none

theorem mem_of_nextCursor (h : nextCursor size l = some n) : n ∈ l := by
  rw [nextCursor] at h
  split at h
  · exact mem_of_getElem? h
  · cases h

end

section

variable {α : Type} [LE α] [Std.IsLinearOrder α] [DecidableEq α] {l : List α} {size : Nat} {a : α}

theorem count_page (hl : l.Pairwise (· ≤ ·)) (hsize : 0 < size) (ha : l.count a = 1) :
    (l.take size).count a = 1 ∧ (∀ n, nextCursor size l = some n → a ≤ n) ∨
      (l.take size).count a = 0 ∧ ∃ n, nextCursor size l = some n ∧ ¬a ≤ n := by
  rw [nextCursor]
  by_cases hlen : size < l.length
  · have hlast : size - 1 < l.length := by omega
    rw [if_pos hlen, List.getElem?_eq_getElem hlast]
    have hsplit : (l.take size).count a + (l.drop size).count a = 1 := by
      rw [← count_append, take_append_drop, ha]
    have hnth : l[size - 1] ∈ l.take size := by
      rw [mem_take_iff_getElem]
      exact ⟨size - 1, by omega, rfl⟩
    by_cases hpage : a ∈ l.take size
    · have hone := count_pos_iff.mpr hpage
      refine .inl ⟨by omega, ?_⟩
      rintro n ⟨⟩
      obtain ⟨i, hi, rfl⟩ := mem_take_iff_getElem.mp hpage
      rcases Nat.lt_or_ge i (size - 1) with hlt | hge
      · exact pairwise_iff_getElem.mp hl i (size - 1) (by omega) hlast hlt
      · have heq : i = size - 1 := by omega
        simp only [heq]
        exact Std.le_refl _
    · have hzero := count_eq_zero.mpr hpage
      refine .inr ⟨hzero, l[size - 1], rfl, ?_⟩
      have hrest : a ∈ l.drop size := count_pos_iff.mp (by omega)
      have hle : l[size - 1] ≤ a := by
        have happend : (l.take size ++ l.drop size).Pairwise (· ≤ ·) := by
          rwa [take_append_drop]
        exact (pairwise_append.mp happend).2.2 _ hnth a hrest
      exact fun hge => hpage (Std.le_antisymm hge hle ▸ hnth)
  · rw [if_neg hlen, take_of_length_le (by omega)]
    exact .inl ⟨ha, nofun⟩

end

section

variable {α : Type} [LE α] [DecidableLE α] {l : List α} {cursor : Option α} {a c : α}

def behind (l : List α) : Option α → List α
  | none => l
  | some c => l.dropWhile (· ≤ c)

theorem sorted_behind (hl : l.Pairwise (· ≤ ·)) : (behind l cursor).Pairwise (· ≤ ·) := by
  cases cursor with
  | none => exact hl
  | some c => exact hl.sublist (dropWhile_sublist _)

theorem not_le_of_mem_behind [Std.IsLinearOrder α] (hl : l.Pairwise (· ≤ ·))
    (h : a ∈ behind l (some c)) : ¬a ≤ c := by
  rw [behind] at h
  induction l with
  | nil => cases h
  | cons b l ih =>
    obtain ⟨hb, hl⟩ := pairwise_cons.mp hl
    rw [dropWhile_cons] at h
    split at h
    · exact ih hl h
    · rename_i hbc
      have hbc : ¬b ≤ c := by simpa using hbc
      rcases mem_cons.mp h with rfl | ha
      · exact hbc
      · exact fun hac => hbc (Std.le_trans (hb a ha) hac)

theorem count_behind [DecidableEq α] (h : ∀ c, cursor = some c → ¬a ≤ c) :
    (behind l cursor).count a = l.count a := by
  cases cursor with
  | none => rfl
  | some c =>
    have hfirst : (l.takeWhile (· ≤ c)).count a = 0 := by
      rw [count_eq_zero]
      intro hmem
      have hle := mem_takeWhile_imp hmem
      exact h c rfl (of_decide_eq_true hle)
    have happend := takeWhile_append_dropWhile (p := fun x => decide (x ≤ c)) (l := l)
    calc (behind l (some c)).count a
        = (l.takeWhile (· ≤ c)).count a + (l.dropWhile (· ≤ c)).count a := by
          rw [hfirst, Nat.zero_add, behind]
      _ = l.count a := by rw [← count_append, happend]

end

section Reread

variable {α : Type} {again : α → List α} {l l' before after : List α} {size : Nat} {a : α}

/-- Read a list in pages, where `again a` is what there is behind a page that ends with `a`.  There
is no result when it takes more pages than there is fuel. -/
def reread (size : Nat) (again : α → List α) : (fuel : Nat) → List α → Option (List α)
  | 0, _ => none
  | fuel + 1, l =>
    match nextCursor size l with
    | none => some (l.take size)
    | some a => (reread size again fuel (again a)).map (l.take size ++ ·)

/-- `a` ends a page that is not the last. -/
def EndsPage (size : Nat) (l : List α) (a : α) : Prop :=
  ∃ j, (j + 1) * size < l.length ∧ l[(j + 1) * size - 1]? = some a

/-- What comes behind an element is read after it, and maybe more from before. -/
def Resumes (again : α → List α) (l : List α) : Prop :=
  ∀ before a after, l = before ++ a :: after → after <:+ again a ∧ again a <:+ l

theorem split_of_nextCursor (hsize : 0 < size) (h : nextCursor size l = some a) :
    l.take size = l.take (size - 1) ++ [a] ∧ l = l.take (size - 1) ++ a :: l.drop size := by
  rw [nextCursor] at h
  split at h
  · rename_i hlong
    obtain ⟨hlt, rfl⟩ := List.getElem?_eq_some_iff.mp h
    have htake : l.take size = l.take (size - 1) ++ [l[size - 1]] := by
      rw [take_append_getElem, show size - 1 + 1 = size by omega]
    refine ⟨htake, ?_⟩
    conv_lhs => rw [← take_append_drop size l, htake, append_assoc, singleton_append]
  · cases h

theorem take_of_nextCursor (h : nextCursor size l = none) : l.take size = l := by
  rw [nextCursor] at h
  split at h
  · rename_i hlong
    rw [List.getElem?_eq_none_iff] at h
    exact take_of_length_le (by omega)
  · exact take_of_length_le (by omega)

theorem endsPage_iff (hsize : 0 < size) :
    EndsPage size l a ↔ nextCursor size l = some a ∨ EndsPage size (l.drop size) a := by
  unfold EndsPage nextCursor
  constructor
  · rintro ⟨j, hlong, hlast⟩
    cases j with
    | zero =>
      rw [Nat.zero_add, Nat.one_mul] at hlong hlast
      rw [if_pos hlong]
      exact .inl hlast
    | succ j =>
      refine .inr ⟨j, ?_, ?_⟩
      · rw [length_drop]
        rw [Nat.succ_mul] at hlong
        omega
      · have hpos : 0 < (j + 1) * size := Nat.mul_pos (Nat.succ_pos j) hsize
        rw [List.getElem?_drop, ← hlast, Nat.succ_mul (j + 1)]
        congr 1
        omega
  · rintro (hfirst | ⟨j, hlong, hlast⟩)
    · split at hfirst
      · exact ⟨0, by omega, by rwa [Nat.zero_add, Nat.one_mul]⟩
      · cases hfirst
    · have hpos : 0 < (j + 1) * size := Nat.mul_pos (Nat.succ_pos j) hsize
      rw [length_drop] at hlong
      rw [List.getElem?_drop] at hlast
      refine ⟨j + 1, ?_, ?_⟩
      · rw [Nat.succ_mul]
        omega
      · rw [← hlast, Nat.succ_mul (j + 1)]
        congr 1
        omega

theorem filter_suffix {R : α → α → Prop} {p : α → Bool} (hl : l.Pairwise R)
    (hup : ∀ a b, R a b → p a = true → p b = true) : l.filter p <:+ l := by
  induction l with
  | nil => exact suffix_refl []
  | cons a l ih =>
    obtain ⟨hfirst, hrest⟩ := pairwise_cons.mp hl
    cases ha : p a with
    | true =>
      rw [filter_eq_self.mpr (forall_mem_cons.mpr ⟨ha, fun b hb => hup a b (hfirst b hb) ha⟩)]
    | false =>
      rw [filter_cons_of_neg (by simp [ha])]
      exact (ih hrest).trans (suffix_cons a l)

theorem eq_of_resumed (h : l = before ++ a :: after) (hafter : after <:+ l') (hl' : l' <:+ l)
    (ha : a ∉ l') : l' = after := by
  rcases suffix_or_suffix_of_suffix hl' (⟨before, h.symm⟩ : (a :: after) <:+ l) with hshort | hlong
  · rcases suffix_cons_iff.mp hshort with rfl | hbehind
    · exact absurd mem_cons_self ha
    · exact hbehind.eq_of_length_le hafter.length_le
  · exact absurd (hlong.subset mem_cons_self) ha

section

variable (hsize : 0 < size) (hagain : Resumes again l) {fuel : Nat} {items : List α}
  (hl' : l' <:+ l)
include hsize hagain hl'

theorem Resumes.page (hnext : nextCursor size l' = some a) :
    ∃ before, l = before ++ a :: l'.drop size ∧ l'.drop size <:+ again a ∧ again a <:+ l := by
  obtain ⟨before, rfl⟩ := hl'
  obtain ⟨-, hsplit⟩ := split_of_nextCursor hsize hnext
  have hwhole : before ++ l' = before ++ l'.take (size - 1) ++ a :: l'.drop size := by
    rw [append_assoc, ← hsplit]
  exact ⟨_, hwhole, hagain _ a _ hwhole⟩

/-- A reread ends with its last page, or goes on behind a page from where the loop resumes. -/
theorem reread_succ (h : reread size again (fuel + 1) l' = some items) :
    (nextCursor size l' = none ∧ items = l') ∨
      ∃ a rest before, nextCursor size l' = some a ∧ items = l'.take size ++ rest ∧
        reread size again fuel (again a) = some rest ∧ l = before ++ a :: l'.drop size ∧
        l'.drop size <:+ again a ∧ again a <:+ l := by
  rw [reread] at h
  cases hnext : nextCursor size l' with
  | none =>
    rw [hnext, take_of_nextCursor hnext] at h
    cases h
    exact .inl ⟨rfl, rfl⟩
  | some a =>
    rw [hnext] at h
    obtain ⟨rest, hrest, rfl⟩ := Option.map_eq_some_iff.mp h
    obtain ⟨before, hpage⟩ := hagain.page hsize hl' hnext
    exact .inr ⟨a, rest, before, rfl, rfl, hrest, hpage⟩

variable (h : reread size again fuel l' = some items)
include h

/-- What is left is read, whatever is read twice. -/
theorem reread_covers : l'.Sublist items := by
  induction fuel generalizing l' items with
  | zero => cases h
  | succ fuel ih =>
    rcases reread_succ hsize hagain hl' h with
      ⟨-, rfl⟩ | ⟨a, rest, before, -, rfl, hrest, -, hafter, hback⟩
    · exact List.Sublist.refl _
    · have hcovered := hafter.sublist.trans (ih hback hrest)
      have hboth := hcovered.append_left (l'.take size)
      rwa [take_append_drop] at hboth

theorem reread_subset : items ⊆ l := by
  induction fuel generalizing l' items with
  | zero => cases h
  | succ fuel ih =>
    rcases reread_succ hsize hagain hl' h with
      ⟨-, rfl⟩ | ⟨a, rest, before, -, rfl, hrest, -, -, hback⟩
    · exact hl'.subset
    · have hpage : l'.take size ⊆ l := List.Subset.trans (take_subset size l') hl'.subset
      exact append_subset.mpr ⟨hpage, ih hback hrest⟩

end

theorem reread_exact (hsize : 0 < size) (hagain : Resumes again l) (hl' : l' <:+ l)
    (hends : ∀ a, EndsPage size l' a → a ∉ again a) :
    ∃ fuel, reread size again fuel l' = some l' := by
  induction hlen : l'.length using Nat.strongRecOn generalizing l' with
  | ind n ih =>
    subst hlen
    cases hnext : nextCursor size l' with
    | none => exact ⟨1, by rw [reread, hnext, take_of_nextCursor hnext]⟩
    | some a =>
      obtain ⟨htake, hsplit⟩ := split_of_nextCursor hsize hnext
      obtain ⟨before, hwhole, hafter, hback⟩ := hagain.page hsize hl' hnext
      have hsame :=
        eq_of_resumed hwhole hafter hback (hends a ((endsPage_iff hsize).mpr (.inl hnext)))
      have hshort : (l'.drop size).length < l'.length := by
        have hlength := congrArg List.length hsplit
        rw [length_append, length_cons] at hlength
        omega
      obtain ⟨fuel, hfuel⟩ := ih _ hshort (hsame ▸ hback)
        (fun b hb => hends b ((endsPage_iff hsize).mpr (.inr hb))) rfl
      refine ⟨fuel + 1, ?_⟩
      rw [reread, hnext]
      change Option.map _ (reread size again fuel (again a)) = _
      rw [hsame, hfuel, Option.map_some, take_append_drop]

variable [DecidableEq α]

theorem not_mem_again (hsize : 0 < size) (hagain : Resumes again l) (hl' : l' <:+ l) {fuel : Nat}
    {items : List α} (h : reread size again fuel l' = some items)
    (honce : ∀ a ∈ l', items.count a ≤ 1) (ha : EndsPage size l' a) : a ∉ again a := by
  induction fuel generalizing l' items with
  | zero => cases h
  | succ fuel ih =>
    rcases reread_succ hsize hagain hl' h with
      ⟨hnext, -⟩ | ⟨b, rest, before, hnext, rfl, hrest, hwhole, hafter, hback⟩
    · obtain ⟨j, hlong, -⟩ := ha
      have hlength := congrArg List.length (take_of_nextCursor hnext)
      have hle : size ≤ (j + 1) * size := Nat.le_mul_of_pos_left size (Nat.succ_pos j)
      rw [length_take] at hlength
      omega
    · obtain ⟨htake, hsplit⟩ := split_of_nextCursor hsize hnext
      -- An element that is read again is read twice: on its page, and in what follows.
      have hb : b ∉ again b := by
        intro hmem
        have hpage : 0 < (l'.take size).count b :=
          count_pos_iff.mpr (htake ▸ mem_append_right _ mem_cons_self)
        have hmore : 0 < rest.count b :=
          count_pos_iff.mpr ((reread_covers hsize hagain hback hrest).subset hmem)
        have htwice := honce b (hsplit ▸ mem_append_right _ mem_cons_self)
        rw [count_append] at htwice
        omega
      rcases (endsPage_iff hsize).mp ha with hfirst | hlater
      · rw [hnext] at hfirst
        cases hfirst
        exact hb
      · have hsame := eq_of_resumed hwhole hafter hback hb
        rw [hsame] at hback hrest
        refine ih hback hrest (fun c hc => ?_) hlater
        have hc' := honce c (mem_of_mem_drop hc)
        rw [count_append] at hc'
        omega

theorem reread_once_iff (hsize : 0 < size) (hagain : Resumes again l) (hl : l.Nodup) :
    (∃ fuel items, reread size again fuel l = some items ∧ ∀ a ∈ l, items.count a = 1) ↔
      ∀ a, EndsPage size l a → a ∉ again a := by
  constructor
  · rintro ⟨fuel, items, h, honce⟩ a ha
    exact not_mem_again hsize hagain (suffix_refl l) h (fun b hb => Nat.le_of_eq (honce b hb)) ha
  · intro hends
    obtain ⟨fuel, hfuel⟩ := reread_exact hsize hagain (suffix_refl l) hends
    exact ⟨fuel, l, hfuel, fun a ha => count_eq_one_of_mem hl ha⟩

end Reread

end Dctl.ProofKit

namespace Dctl.ProofKit

section Passes

variable {σ ρ : Type} {turn : σ → ρ ⊕ σ} {s s' s'' : σ} {r r' : ρ} {fuel fuel' : Nat}

/-- A loop of which one pass is `turn`: it ends, or goes on with a new state.  The whole loop has no
result when it takes more passes than there is fuel. -/
def passes (turn : σ → ρ ⊕ σ) : (fuel : Nat) → σ → Option ρ
  | 0, _ => none
  | fuel + 1, s =>
    match turn s with
    | .inl r => some r
    | .inr s' => passes turn fuel s'

theorem passes_inl (h : turn s = .inl r) : passes turn (fuel + 1) s = some r := by
  rw [passes, h]

theorem passes_inr (h : turn s = .inr s') : passes turn (fuel + 1) s = passes turn fuel s' := by
  rw [passes, h]

theorem passes_add (h : passes turn fuel s = some r) (more : Nat) :
    passes turn (fuel + more) s = some r := by
  induction fuel generalizing s with
  | zero => cases h
  | succ fuel ih =>
    rw [Nat.add_right_comm]
    cases hturn : turn s with
    | inl r' =>
      rw [passes_inl hturn] at h ⊢
      exact h
    | inr s' =>
      rw [passes_inr hturn] at h ⊢
      exact ih h

theorem passes_unique (h : passes turn fuel s = some r) (h' : passes turn fuel' s = some r') :
    r = r' := by
  have hmore := passes_add h fuel'
  rw [Nat.add_comm, passes_add h' fuel] at hmore
  exact (Option.some.inj hmore).symm

/-- From the one state the loop comes to the other, after one pass at least. -/
def Leads (turn : σ → ρ ⊕ σ) (s s' : σ) : Prop :=
  ∃ m, ∀ fuel, passes turn (m + 1 + fuel) s = passes turn fuel s'

theorem Leads.of_turn_then {m : Nat} (h : turn s = .inr s')
    (hm : ∀ fuel, passes turn (m + fuel) s' = passes turn fuel s'') : Leads turn s s'' :=
  ⟨m, fun fuel => by rw [Nat.add_right_comm, passes_inr h, hm]⟩

theorem Leads.of_turn (h : turn s = .inr s') : Leads turn s s' :=
  Leads.of_turn_then h fun fuel => by rw [Nat.zero_add]

theorem Leads.ends (h : Leads turn s s') (h' : passes turn fuel s' = some r) :
    ∃ fuel, passes turn fuel s = some r := by
  obtain ⟨m, hm⟩ := h
  exact ⟨m + 1 + fuel, by rw [hm, h']⟩

theorem passes_eq_none {I : σ → Prop} (h : ∀ s, I s → ∃ s', I s' ∧ Leads turn s s') (hs : I s)
    (fuel : Nat) : passes turn fuel s = none := by
  induction fuel using Nat.strongRecOn generalizing s with
  | ind fuel ih =>
    obtain ⟨s', hs', m, hm⟩ := h s hs
    rcases Nat.lt_or_ge m fuel with hlt | hle
    · have hsplit : fuel = m + 1 + (fuel - (m + 1)) := by omega
      rw [hsplit, hm]
      exact ih _ (by omega) hs'
    · by_contra hne
      obtain ⟨r, hr⟩ := Option.ne_none_iff_exists'.mp hne
      have hlong := passes_add hr (m + 1 - fuel)
      rw [show fuel + (m + 1 - fuel) = m + 1 + 0 by omega, hm] at hlong
      cases hlong

end Passes

namespace Pager

variable {ε κ P : Type} (next : P → Option κ) (answers : Nat → Option κ → Except ε P)

/-- The cursor that the `n`-th request is made with, where every request is made with the cursor
that the answer before has handed back.  `answers n` is what the server answers to the `n`-th
request. -/
def asked : Nat → Option κ
  | 0 => none
  | n + 1 =>
    match answers n (asked n) with
    | .error _ => none
    | .ok page => next page

/-- What the server answers to the `n`-th request. -/
def answered (n : Nat) : Except ε P := answers n (asked next answers n)

/-- The `n`-th answer ends the listing: it is an error, or a page that closes it. -/
def Closes (closes : Option κ → P → Prop) (n : Nat) : Prop :=
  ∀ page, answered next answers n = .ok page → closes (asked next answers n) page

/-- The `n`-th answer is the first that ends the listing. -/
def FirstCloses (closes : Option κ → P → Prop) (n : Nat) : Prop :=
  Closes next answers closes n ∧ ∀ k < n, ¬Closes next answers closes k

/-- The answers depend on the cursor alone, and the cursors are all of this set. -/
def Drawn (cursors : Finset κ) : Prop :=
  ∃ pages : Option κ → Except ε P, (∀ n cursor, answers n cursor = pages cursor) ∧
    ∀ cursor page c, pages cursor = .ok page → next page = some c → c ∈ cursors

variable {next answers} {closes : Option κ → P → Prop} {n k : Nat} {page : P}

theorem asked_succ (h : answered next answers n = .ok page) :
    asked next answers (n + 1) = next page := by
  rw [answered] at h
  rw [asked, h]

theorem exists_of_not_closes (h : ¬Closes next answers closes n) :
    ∃ page, answered next answers n = .ok page ∧ ¬closes (asked next answers n) page := by
  simpa [Closes] using h

theorem exists_firstCloses (h : ∃ n, Closes next answers closes n) :
    ∃ n, FirstCloses next answers closes n := by
  classical
  exact ⟨Nat.find h, Nat.find_spec h, fun k hk => Nat.find_min h hk⟩

theorem asked_periodic {pages : Option κ → Except ε P}
    (hpages : ∀ n cursor, answers n cursor = pages cursor) {i j : Nat}
    (h : asked next answers i = asked next answers j) (m : Nat) :
    asked next answers (i + m) = asked next answers (j + m) := by
  induction m with
  | zero => exact h
  | succ m ih => rw [← Nat.add_assoc, ← Nat.add_assoc, asked, asked, hpages, hpages, ih]

/-- Answers drawn from finitely many cursors end the listing after as many requests and one, if they
end it at all. -/
theorem Drawn.closes_within {cursors : Finset κ} (h : Drawn next answers cursors)
    (hfirst : FirstCloses next answers closes n) : n ≤ cursors.card := by
  classical
  obtain ⟨pages, hpages, hcursors⟩ := h
  have hdistinct : Set.InjOn (asked next answers) (Finset.range (n + 1)) := by
    have hlt {i j : Nat} (hij : i < j) (hj : j ≤ n) :
        asked next answers i ≠ asked next answers j := by
      intro heq
      have hback := asked_periodic hpages heq (n - j)
      rw [show j + (n - j) = n by omega] at hback
      refine hfirst.2 (i + (n - j)) (by omega) fun page hpage => ?_
      have hclosed := hfirst.1 page
      rw [answered, hpages] at hpage hclosed
      rw [hback] at hpage ⊢
      exact hclosed hpage
    intro i hi j hj heq
    simp only [Finset.coe_range, Set.mem_Iio] at hi hj
    rcases Nat.lt_trichotomy i j with h | h | h
    · exact absurd heq (hlt h (by omega))
    · exact h
    · exact absurd heq.symm (hlt h (by omega))
  have hmaps : ∀ i ∈ Finset.range (n + 1),
      asked next answers i ∈ insert none (cursors.image some) := by
    intro i hi
    cases hasked : asked next answers i with
    | none => exact Finset.mem_insert_self _ _
    | some c =>
      refine Finset.mem_insert_of_mem (Finset.mem_image_of_mem _ ?_)
      cases i with
      | zero => cases hasked
      | succ i =>
        rw [asked, hpages] at hasked
        split at hasked
        · cases hasked
        · exact hcursors _ _ _ (by assumption) hasked
  have hcard := Finset.card_le_card_of_injOn _ hmaps hdistinct
  have hinsert := Finset.card_insert_le none (cursors.image some)
  have himage := Finset.card_image_le (s := cursors) (f := some)
  rw [Finset.card_range] at hcard
  omega

section Follows

variable {σ ρ : Type} {turn : σ → ρ ⊕ σ} {At : Nat → σ → Prop} {Ends : Nat → ρ →
  Prop} {s : σ} {r : ρ}
  {fuel : Nat}

/-- A loop goes on past an answer that does not end the listing, and ends at one that does.  `At n`
are its states before the `n`-th request. -/
structure Follows (next : P → Option κ) (answers : Nat → Option κ → Except ε P)
    (closes : Option κ → P → Prop) (turn : σ → ρ ⊕ σ) (At : Nat → σ →
      Prop) (Ends : Nat → ρ → Prop) :
    Prop where
  goes : ∀ n s, At n s → ¬Closes next answers closes n → ∃ s', At (n + 1) s' ∧ Leads turn s s'
  ends : ∀ n s, At n s → Closes next answers closes n →
    ∃ fuel r, passes turn fuel s = some r ∧ Ends n r

theorem Follows.complete (h : Follows next answers closes turn At Ends) (hs : At 0 s)
    (hn : FirstCloses next answers closes n) :
    ∃ fuel r, passes turn fuel s = some r ∧ Ends n r := by
  have hreach : ∀ k ≤ n, ∃ s', At k s' ∧
      ∀ fuel r, passes turn fuel s' = some r → ∃ fuel', passes turn fuel' s = some r := by
    intro k
    induction k with
    | zero => exact fun _ => ⟨s, hs, fun fuel r hr => ⟨fuel, hr⟩⟩
    | succ k ih =>
      intro hk
      obtain ⟨s', hs', hback⟩ := ih (by omega)
      obtain ⟨s'', hs'', hleads⟩ := h.goes k s' hs' (hn.2 k (by omega))
      refine ⟨s'', hs'', fun fuel r hr => ?_⟩
      obtain ⟨fuel', hr'⟩ := hleads.ends hr
      exact hback fuel' r hr'
  obtain ⟨s', hs', hback⟩ := hreach n (Nat.le_refl n)
  obtain ⟨fuel, r, hr, hends⟩ := h.ends n s' hs' hn.1
  obtain ⟨fuel', hr'⟩ := hback fuel r hr
  exact ⟨fuel', r, hr', hends⟩

theorem Follows.sound (h : Follows next answers closes turn At Ends) (hs : At 0 s)
    (hr : passes turn fuel s = some r) : ∃ n, FirstCloses next answers closes n ∧ Ends n r := by
  by_cases hany : ∃ n, Closes next answers closes n
  · obtain ⟨n, hn⟩ := exists_firstCloses hany
    obtain ⟨fuel', r', hr', hends⟩ := h.complete hs hn
    rw [passes_unique hr hr']
    exact ⟨n, hn, hends⟩
  · have hgoes : ∀ s, (∃ n, At n s) → ∃ s', (∃ n, At n s') ∧ Leads turn s s' := by
      rintro s ⟨n, hs⟩
      obtain ⟨s', hs', hleads⟩ := h.goes n s hs fun hn => hany ⟨n, hn⟩
      exact ⟨s', ⟨n + 1, hs'⟩, hleads⟩
    rw [passes_eq_none hgoes ⟨0, hs⟩] at hr
    cases hr

/-- A loop with its result and the number of requests it has made: it ends at the first answer that
ends the listing and nowhere else, with a listing if that is a page as `whole` says; and it makes no
more requests than there are cursors, and one. -/
structure Enumerates {ε' α : Type} (next : P → Option κ) (answers : Nat → Option κ → Except ε P)
    (closes : Option κ → P → Prop) (whole : P → Prop) (loop : Nat →
      Option (Except ε' α × Nat)) : Prop where
  ends : ∀ n, FirstCloses next answers closes n → ∃ fuel r, loop fuel = some (r, n + 1)
  only : ∀ fuel r m, loop fuel = some (r, m) → ∃ n, m = n + 1 ∧ FirstCloses next answers closes n ∧
    ((∃ a, r = .ok a) ↔ ∃ page, answered next answers n = .ok page ∧ whole page)
  within : ∀ cursors, Drawn next answers cursors → ∀ fuel r m, loop fuel = some (r, m) →
    m ≤ cursors.card + 1

theorem Follows.enumerates {ε' α : Type} {turn : σ → (Except ε' α × Nat) ⊕ σ} {whole : P → Prop}
    (h : Follows next answers closes turn At fun n r => r.2 = n + 1 ∧
      ((∃ a, r.1 = .ok a) ↔ ∃ page, answered next answers n = .ok page ∧ whole page))
    (hs : At 0 s) : Enumerates next answers closes whole fun fuel => passes turn fuel s where
  ends := by
    intro n hn
    obtain ⟨fuel, ⟨r, m⟩, hr, rfl, -⟩ := h.complete hs hn
    exact ⟨fuel, r, hr⟩
  only := by
    intro fuel r m hr
    obtain ⟨n, hn, rfl, hwhole⟩ := h.sound hs hr
    exact ⟨n, rfl, hn, hwhole⟩
  within := by
    intro cursors hdrawn fuel r m hr
    obtain ⟨n, hn, rfl, -⟩ := h.sound hs hr
    exact Nat.succ_le_succ (hdrawn.closes_within hn)

end Follows

/-- The loop ends, and with a listing only if its last page had no next cursor. -/
def EndsComplete {ε' α : Type} (next : P → Option κ) (answers : Nat → Option κ → Except ε P)
    (loop : Nat → Option (Except ε' α × Nat)) : Prop :=
  ∃ fuel r n, loop fuel = some (r, n + 1) ∧
    ((∃ a, r = .ok a) → ∀ page, answered next answers n = .ok page → next page = none)

end Pager

end Dctl.ProofKit
