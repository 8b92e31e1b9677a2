import Mathlib.Algebra.Order.BigOperators.Group.List
import Mathlib.Data.List.Nodup
import Dctl.ProofKit.Bytes

/-! Tables: finite maps with ordered keys, sums over their rows, and tables whose keys are hashes of
the names that the rows are about. -/

namespace Dctl.ProofKit

open Std List Function

instance {n : Nat} : Ord (Block n) := ⟨compareOn Block.bytes⟩

instance {n : Nat} : TransOrd (Block n) := inferInstanceAs (TransCmp (compareOn Block.bytes))

instance {n : Nat} : LawfulEqOrd (Block n) where
  eq_of_compare h := Block.ext (LawfulEqOrd.eq_of_compare (α := List UInt8) h)

abbrev Table (κ ρ : Type) [Ord κ] := ExtTreeMap κ ρ

namespace Table

section Rows

variable {κ ρ : Type} [Ord κ] [TransOrd κ] (t : Table κ ρ)

theorem nodup_toList : t.toList.Nodup := by
  have h : (t.toList.map Prod.fst).Nodup := by
    rw [ExtTreeMap.map_fst_toList_eq_keys]
    exact ExtTreeMap.nodup_keys
  exact h.of_map _

theorem pairwise_toList [LawfulEqOrd κ] : t.toList.Pairwise fun e e' => e.1 ≠ e'.1 := by
  refine ExtTreeMap.distinct_keys_toList.imp fun hne heq => hne ?_
  rw [heq]
  exact ReflCmp.compare_self

variable {t} in
theorem mem_of_getElem? {k : κ} {row : ρ} (h : t[k]? = some row) : k ∈ t := by
  rw [ExtTreeMap.mem_iff_isSome_getElem?, h]
  rfl

variable {t} in
theorem not_mem_of_getElem? {k : κ} (h : t[k]? = none) : k ∉ t := by
  rw [ExtTreeMap.mem_iff_isSome_getElem?, h]
  exact Bool.false_ne_true

variable {t} in
theorem size_insert_of_none {k : κ} {row : ρ} (h : t[k]? = none) :
    (t.insert k row).size = t.size + 1 := by
  rw [ExtTreeMap.size_insert]
  exact if_neg (not_mem_of_getElem? h)

variable {t} in
theorem size_insert_of_some {k : κ} {row old : ρ} (h : t[k]? = some old) :
    (t.insert k row).size = t.size := by
  rw [ExtTreeMap.size_insert]
  exact if_pos (mem_of_getElem? h)

def first (t : Table κ ρ) : Option (κ × ρ) := t.minKey?.bind fun k => t[k]?.map fun row => (k, row)

variable {t} in
theorem first_eq_none (h : first t = none) : t = ∅ := by
  rw [first, Option.bind_eq_none_iff] at h
  rw [← ExtTreeMap.minKey?_eq_none_iff]
  cases hmin : t.minKey? with
  | none => rfl
  | some k =>
    have hrow := Option.map_eq_none_iff.mp (h k hmin)
    exact absurd (ExtTreeMap.minKey?_mem hmin) (not_mem_of_getElem? hrow)

def sum (f : κ → ρ → Nat) (t : Table κ ρ) : Nat := (t.toList.map fun e => f e.1 e.2).sum

variable {f : κ → ρ → Nat}

theorem sum_empty : sum f (∅ : Table κ ρ) = 0 := rfl

variable [LawfulEqOrd κ]

theorem sum_pos_iff {t : Table κ ρ} : 0 < sum f t ↔ ∃ k row, t[k]? = some row ∧ 0 < f k row := by
  unfold sum
  rw [Nat.pos_iff_ne_zero, ne_eq, sum_eq_zero_iff]
  simp only [mem_map, Prod.exists, ExtTreeMap.mem_toList_iff_getElem?_eq_some]
  push Not
  constructor
  · rintro ⟨_, ⟨k, row, h, rfl⟩, hne⟩
    exact ⟨k, row, h, Nat.pos_iff_ne_zero.mpr hne⟩
  · rintro ⟨k, row, h, hpos⟩
    exact ⟨_, ⟨k, row, h, rfl⟩, Nat.pos_iff_ne_zero.mp hpos⟩

theorem sum_mono {t : Table κ ρ} {g : κ → ρ → Nat}
    (h : ∀ k row, t[k]? = some row → f k row ≤ g k row) : sum f t ≤ sum g t := by
  unfold sum
  refine sum_le_sum fun e he => ?_
  exact h e.1 e.2 (ExtTreeMap.mem_toList_iff_getElem?_eq_some.mp he)

variable {t} in
theorem first_eq_some {k : κ} {row : ρ} (h : first t = some (k, row)) :
    t[k]? = some row ∧ ∀ (a : κ) (other : ρ), t[a]? = some other → (compare k a).isLE := by
  obtain ⟨k', hmin, hmap⟩ := Option.bind_eq_some_iff.mp h
  obtain ⟨row', hrow, hk⟩ := Option.map_eq_some_iff.mp hmap
  obtain ⟨rfl, rfl⟩ := Prod.mk.inj hk
  refine ⟨hrow, fun a other ha => ?_⟩
  exact (ExtTreeMap.minKey?_eq_some_iff_mem_and_forall.mp hmin).2 a (mem_of_getElem? ha)

variable [DecidableEq κ]

theorem getElem?_insert (k a : κ) (row : ρ) :
    (t.insert k row)[a]? = if a = k then some row else t[a]? := by
  rw [ExtTreeMap.getElem?_insert]
  simp only [Std.compare_eq_iff_eq, @eq_comm κ a]

theorem getElem?_erase (k a : κ) : (t.erase k)[a]? = if a = k then none else t[a]? := by
  rw [ExtTreeMap.getElem?_erase]
  simp only [Std.compare_eq_iff_eq, @eq_comm κ a]

variable {t}

theorem toList_insert_perm {k : κ} {row : ρ} (h : t[k]? = none) :
    (t.insert k row).toList.Perm ((k, row) :: t.toList) := by
  have hnew : (k, row) ∉ t.toList := by
    rw [ExtTreeMap.mem_toList_iff_getElem?_eq_some, h]
    exact Option.some_ne_none row |>.symm
  refine (perm_ext_iff_of_nodup (nodup_toList _) (nodup_cons.mpr ⟨hnew, nodup_toList t⟩)).mpr
    fun ⟨a, r⟩ => ?_
  rw [mem_cons, ExtTreeMap.mem_toList_iff_getElem?_eq_some,
    ExtTreeMap.mem_toList_iff_getElem?_eq_some, getElem?_insert, Prod.mk.injEq]
  by_cases ha : a = k
  · rw [if_pos ha, ha, h, Option.some.injEq]
    simp [eq_comm]
  · simp [ha]

theorem insert_erase {k : κ} {row : ρ} (h : t[k]? = some row) : (t.erase k).insert k row = t := by
  apply ExtTreeMap.ext_getElem?
  intro a
  rw [getElem?_insert, getElem?_erase]
  by_cases ha : a = k
  · rw [if_pos ha, ha, h]
  · rw [if_neg ha, if_neg ha]

theorem erase_of_none {k : κ} (h : t[k]? = none) : t.erase k = t := by
  apply ExtTreeMap.ext_getElem?
  intro a
  rw [getElem?_erase]
  split
  next ha => rw [ha, h]
  next => rfl

theorem insert_erase_eq (t : Table κ ρ) (k : κ) (row : ρ) :
    (t.erase k).insert k row = t.insert k row := by
  apply ExtTreeMap.ext_getElem?
  intro a
  simp only [getElem?_insert, getElem?_erase]
  split <;> rfl

theorem size_erase_of_some {k : κ} {row : ρ} (h : t[k]? = some row) :
    t.size = (t.erase k).size + 1 := by
  have hnone : (t.erase k)[k]? = none := by rw [getElem?_erase, if_pos rfl]
  rw [← size_insert_of_none hnone, insert_erase h]

theorem sum_insert {k : κ} {row : ρ} (h : t[k]? = none) :
    sum f (t.insert k row) = f k row + sum f t := by
  unfold sum
  rw [((toList_insert_perm h).map _).sum_eq, map_cons, sum_cons]

theorem sum_erase {k : κ} {row : ρ} (h : t[k]? = some row) :
    sum f t = f k row + sum f (t.erase k) := by
  have hnone : (t.erase k)[k]? = none := by rw [getElem?_erase, if_pos rfl]
  rw [← sum_insert hnone, insert_erase h]

theorem sum_insert_of_some {k : κ} {row old : ρ} (h : t[k]? = some old) :
    sum f (t.insert k row) + f k old = f k row + sum f t := by
  have hnone : (t.erase k)[k]? = none := by rw [getElem?_erase, if_pos rfl]
  rw [← insert_erase_eq, sum_insert hnone, sum_erase h]
  omega

end Rows

end Table

/-- The table has a row for each name of the map and for no other, under the hash of the name, and
`holds` relates the name, its row and its value.  The names are in `names`. -/
structure Keyed {κ ν ρ α : Type} [Ord κ] [TransOrd κ] (key : ν →
    κ) (names : Set ν) (holds : ν → ρ → α → Prop)
    (t : Table κ ρ) (m : ν → Option α) : Prop where
  mem : ∀ name a, m name = some a → name ∈ names
  sound : ∀ (k : κ) row, t[k]? = some row → ∃ name a, k = key name ∧ m name = some a ∧
    holds name row a
  complete : ∀ name a, m name = some a → ∃ row, t[key name]? = some row

namespace Keyed

variable {κ ν ρ α : Type} [Ord κ] [TransOrd κ] {key : ν → κ}
  {names : Set ν} {holds : ν → ρ → α → Prop} {t : Table κ ρ} {m : ν → Option α}

theorem empty : Keyed key names holds (∅ : Table κ ρ) fun _ => none where
  mem := by simp
  sound := by simp
  complete := by simp

variable (h : Keyed key names holds t m)
include h

theorem congr {m' : ν → Option α} (hm : ∀ name, m name = m' name) : Keyed key names holds t m' := by
  rwa [← funext hm]

variable {name : ν}

theorem get_some (hinj : Set.InjOn key names) {a : α} (hm : m name = some a) :
    ∃ row, t[key name]? = some row ∧ holds name row a := by
  obtain ⟨row, hrow⟩ := h.complete name a hm
  obtain ⟨name', a', hkey, hm', hholds⟩ := h.sound _ _ hrow
  obtain rfl := hinj (h.mem _ _ hm) (h.mem _ _ hm') hkey
  rw [hm, Option.some.injEq] at hm'
  exact ⟨row, hrow, hm' ▸ hholds⟩

theorem get_none (hinj : Set.InjOn key names) (hname : name ∈ names) (hm : m name = none) :
    t[key name]? = none := by
  cases hrow : t[key name]? with
  | none => rfl
  | some row =>
    obtain ⟨name', a', hkey, hm', -⟩ := h.sound _ _ hrow
    obtain rfl := hinj hname (h.mem _ _ hm') hkey
    rw [hm] at hm'
    cases hm'

theorem isSome_iff (hinj : Set.InjOn key names) (hname : name ∈ names) :
    (t[key name]?).isSome = (m name).isSome := by
  cases hm : m name with
  | none => rw [h.get_none hinj hname hm]; rfl
  | some a =>
    obtain ⟨row, hrow, -⟩ := h.get_some hinj hm
    rw [hrow]
    rfl

theorem map_eq {t' : Table κ ρ} (h' : Keyed key names holds t' m) (hinj : Set.InjOn key names)
    {γ : Type} {f : κ → ρ → γ} {g : ν → α → γ}
    (hfg : ∀ name row a, holds name row a → f (key name) row = g name a) (k : κ) :
    t[k]?.map (f k) = t'[k]?.map (f k) := by
  cases hrow : t[k]? with
  | some row =>
    obtain ⟨name, a, rfl, hm, hholds⟩ := h.sound k row hrow
    obtain ⟨row', hrow', hholds'⟩ := h'.get_some hinj hm
    rw [hrow', Option.map_some, Option.map_some, hfg _ _ _ hholds, hfg _ _ _ hholds']
  | none =>
    cases hrow' : t'[k]? with
    | none => rfl
    | some row' =>
      obtain ⟨name, a, rfl, hm, -⟩ := h'.sound k row' hrow'
      obtain ⟨row, hrow'', -⟩ := h.get_some hinj hm
      rw [hrow] at hrow''
      cases hrow''

variable [LawfulEqOrd κ] [DecidableEq κ] [DecidableEq ν]

theorem insert (hname : name ∈ names) {row : ρ} {a : α} (hholds : holds name row a) :
    Keyed key names holds (t.insert (key name) row) (update m name (some a)) where
  mem name' a' hm := by
    by_cases hn : name' = name
    · exact hn ▸ hname
    · rw [update_of_ne hn] at hm
      exact h.mem _ _ hm
  sound k row' hrow := by
    rw [Table.getElem?_insert] at hrow
    split at hrow
    next hk =>
      obtain rfl := Option.some.inj hrow
      exact ⟨name, a, hk, update_self .., hholds⟩
    next hk =>
      obtain ⟨name', a', rfl, hm, hholds'⟩ := h.sound _ _ hrow
      have hn : name' ≠ name := fun hn => hk (hn ▸ rfl)
      exact ⟨name', a', rfl, by rw [update_of_ne hn, hm], hholds'⟩
  complete name' a' hm := by
    rw [Table.getElem?_insert]
    split
    · exact ⟨row, rfl⟩
    next hk =>
      have hn : name' ≠ name := fun hn => hk (hn ▸ rfl)
      rw [update_of_ne hn] at hm
      exact h.complete _ _ hm

theorem erase (hinj : Set.InjOn key names) (hname : name ∈ names) :
    Keyed key names holds (t.erase (key name)) (update m name none) where
  mem name' a' hm := by
    by_cases hn : name' = name
    · exact hn ▸ hname
    · rw [update_of_ne hn] at hm
      exact h.mem _ _ hm
  sound k row' hrow := by
    rw [Table.getElem?_erase] at hrow
    split at hrow
    next => cases hrow
    next hk =>
      obtain ⟨name', a', rfl, hm, hholds'⟩ := h.sound _ _ hrow
      have hn : name' ≠ name := fun hn => hk (hn ▸ rfl)
      exact ⟨name', a', rfl, by rw [update_of_ne hn, hm], hholds'⟩
  complete name' a' hm := by
    have hn : name' ≠ name := by
      rintro rfl
      rw [update_self] at hm
      cases hm
    rw [update_of_ne hn] at hm
    rw [Table.getElem?_erase, if_neg fun hk => hn (hinj (h.mem _ _ hm) hname hk)]
    exact h.complete _ _ hm

omit [DecidableEq κ] [DecidableEq ν] in
theorem filterMap_perm [Ord ν] [TransOrd ν] [LawfulEqOrd ν] (hinj : Set.InjOn key names)
    {rows : Table ν α} (hm : ∀ name, m name = rows[name]?) {γ : Type} {g : κ × ρ → Option γ}
    {f : ν × α → Option γ}
    (hgf : ∀ name row a, m name = some a → holds name row a → g (key name, row) = f (name, a)) :
    (t.toList.filterMap g).Perm (rows.toList.filterMap f) := by
  have hmem : ∀ e ∈ rows.toList, m e.1 = some e.2 := fun e he => by
    rw [hm, ← ExtTreeMap.mem_toList_iff_getElem?_eq_some]
    exact he
  -- The rows of the table, in the order of the names.
  have hrows : t.toList.Perm
      (rows.toList.filterMap fun e => t[key e.1]?.map fun row => (key e.1, row)) := by
    refine (perm_ext_iff_of_nodup (Table.nodup_toList t) ?_).mpr fun ⟨k, row⟩ => ?_
    · refine List.Pairwise.filterMap _ ?_ (List.Pairwise.and_mem.mp (Table.nodup_toList rows))
      rintro a a' ⟨ha, ha', hne⟩ b hb b' hb' rfl
      obtain ⟨row, -, rfl⟩ := Option.map_eq_some_iff.mp hb
      obtain ⟨row', -, heq⟩ := Option.map_eq_some_iff.mp hb'
      have hname : a.1 = a'.1 :=
        hinj (h.mem _ _ (hmem a ha)) (h.mem _ _ (hmem a' ha')) (Prod.mk.inj heq).1.symm
      have hvalue := hmem a ha
      rw [hname, hmem a' ha', Option.some.injEq] at hvalue
      exact hne (Prod.ext hname hvalue.symm)
    · rw [ExtTreeMap.mem_toList_iff_getElem?_eq_some, mem_filterMap]
      constructor
      · intro hrow
        obtain ⟨name, a, rfl, hname, -⟩ := h.sound k row hrow
        refine ⟨(name, a), ExtTreeMap.mem_toList_iff_getElem?_eq_some.mpr (by rw [← hm, hname]), ?_⟩
        rw [hrow]
        rfl
      · rintro ⟨e, he, heq⟩
        obtain ⟨row', hrow, heq⟩ := Option.map_eq_some_iff.mp heq
        obtain ⟨rfl, rfl⟩ := Prod.mk.inj heq
        exact hrow
  refine (hrows.filterMap g).trans (List.Perm.of_eq ?_)
  rw [filterMap_filterMap]
  refine filterMap_congr fun e he => ?_
  obtain ⟨row, hrow, hholds⟩ := h.get_some hinj (hmem e he)
  rw [hrow]
  exact hgf _ _ _ (hmem e he) hholds

end Keyed

end Dctl.ProofKit
