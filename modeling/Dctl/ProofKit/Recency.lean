import Mathlib.Data.List.MinMax
import Dctl.ProofKit.Table

/-! Caches that forget what was used longest ago: the list of entries in the order of their last
use, and a table whose rows carry the tick of their last use, which stands for that list. -/

namespace Dctl.ProofKit

open Std List

namespace Recency

section Shed

variable {α : Type} (exceeds : List α → Bool) (l : List α)

/-- Drop the entry used longest ago for as long as `exceeds` holds. -/
def shed : List α → List α
  | [] => []
  | e :: l => if exceeds (e :: l) then shed l else e :: l

theorem shed_eq_drop :
    ∃ n, shed exceeds l = l.drop n ∧ ∀ m < n, exceeds (l.drop m) = true := by
  induction l with
  | nil => exact ⟨0, rfl, fun _ hm => absurd hm (by omega)⟩
  | cons e l ih =>
    by_cases h : exceeds (e :: l) = true
    · obtain ⟨n, hdrop, hover⟩ := ih
      refine ⟨n + 1, ?_, ?_⟩
      · rw [shed, if_pos h, drop_succ_cons, hdrop]
      · intro m hm
        cases m with
        | zero => exact h
        | succ m =>
          rw [drop_succ_cons]
          exact hover m (by omega)
    · refine ⟨0, ?_, fun _ hm => absurd hm (by omega)⟩
      rw [shed, if_neg h, drop_zero]

theorem not_exceeds_shed (hnil : exceeds [] = false) :
    exceeds (shed exceeds l) = false := by
  induction l with
  | nil => exact hnil
  | cons e l ih =>
    rw [shed]
    split
    next => exact ih
    next h => exact Bool.eq_false_iff.mpr h

end Shed

section Lists

variable {κ ν : Type} [DecidableEq κ]

def without (k : κ) (l : List (κ × ν)) : List (κ × ν) := l.filter fun e => e.1 ≠ k

/-- The entry of `k` becomes the one used last. -/
def put (k : κ) (v : ν) (l : List (κ × ν)) : List (κ × ν) := without k l ++ [(k, v)]

def get (k : κ) (l : List (κ × ν)) : Option ν := (l.find? fun e => e.1 = k).map Prod.snd

def touch (k : κ) (l : List (κ × ν)) : List (κ × ν) :=
  match get k l with
  | none => l
  | some v => put k v l

end Lists

end Recency

structure Held (ν : Type) where
  value : ν
  used : Nat

namespace Recency

variable {κ ν : Type}

def entries (rows : List (κ × Held ν)) : List (κ × ν) := rows.map fun e => (e.1, e.2.value)

theorem find?_entries [DecidableEq κ] (k : κ) (rows : List (κ × Held ν)) :
    (entries rows).find? (fun e => e.1 = k) =
      (rows.find? fun e => e.1 = k).map fun e => (e.1, e.2.value) := by
  rw [entries, List.find?_map]
  rfl

theorem without_entries [DecidableEq κ] (k : κ) (rows : List (κ × Held ν)) :
    without k (entries rows) = entries (rows.filter fun e => e.1 ≠ k) := by
  rw [without, entries, filter_map]
  rfl

theorem put_entries [DecidableEq κ] (k : κ) (v : ν) (now : Nat) (rows : List (κ × Held ν)) :
    put k v (entries rows) = entries ((rows.filter fun e => e.1 ≠ k) ++ [(k, ⟨v, now⟩)]) := by
  rw [put, without_entries]
  simp [entries]

variable [Ord κ] [TransOrd κ]

def oldestKey (t : Table κ (Held ν)) : Option κ :=
  (t.toList.argmin fun e => e.2.used).map Prod.fst

/-- `rows` are the rows of `t` in the order of their last use, and none was used after `tick`. -/
structure Ordered (t : Table κ (Held ν)) (tick : Nat) (rows : List (κ × Held ν)) : Prop where
  perm : t.toList.Perm rows
  sorted : rows.Pairwise fun a b => a.2.used < b.2.used
  used_le : ∀ e ∈ rows, e.2.used ≤ tick

theorem ordered_empty : Ordered (∅ : Table κ (Held ν)) 0 [] :=
  ⟨.nil, .nil, by simp⟩

namespace Ordered

variable {t : Table κ (Held ν)} {tick : Nat} {rows : List (κ × Held ν)}

section

variable (h : Ordered t tick rows)
include h

theorem mono {later : Nat} (hle : tick ≤ later) : Ordered t later rows :=
  ⟨h.perm, h.sorted, fun e he => (h.used_le e he).trans hle⟩

theorem size : t.size = rows.length := by
  rw [← ExtTreeMap.length_toList]
  exact h.perm.length_eq

theorem sum (f : κ → Held ν → Nat) : t.sum f = (rows.map fun e => f e.1 e.2).sum :=
  (h.perm.map _).sum_eq

theorem filter (p : κ → Held ν → Bool) :
    Ordered (t.filter p) tick (rows.filter fun e => p e.1 e.2) where
  perm := by
    rw [ExtTreeMap.toList_filter]
    exact h.perm.filter _
  sorted := h.sorted.filter _
  used_le e he := h.used_le e (mem_of_mem_filter he)

theorem oldestKey : oldestKey t = rows.head?.map Prod.fst := by
  cases hmin : t.toList.argmin fun e => e.2.used with
  | none =>
    rw [argmin_eq_none] at hmin
    have hrows : rows = [] := by
      have hperm := h.perm
      rw [hmin] at hperm
      exact hperm.nil_eq.symm
    rw [Recency.oldestKey, hmin, hrows]
    rfl
  | some e =>
    have hmem := h.perm.mem_iff.mp (argmin_mem hmin)
    cases hrows : rows with
    | nil =>
      rw [hrows] at hmem
      cases hmem
    | cons first rest =>
      have hfirst : first ∈ t.toList := by
        rw [h.perm.mem_iff, hrows]
        exact mem_cons_self ..
      have hle := le_of_mem_argmin hfirst hmin
      have hsorted := h.sorted
      rw [hrows] at hmem hsorted
      rcases mem_cons.mp hmem with heq | hrest
      · rw [Recency.oldestKey, hmin, heq]
        rfl
      · have := (pairwise_cons.mp hsorted).1 e hrest
        omega

end

variable [LawfulEqOrd κ]

theorem mem_iff (h : Ordered t tick rows) {k : κ} {row : Held ν} :
    (k, row) ∈ rows ↔ t[k]? = some row := by
  rw [← h.perm.mem_iff, ExtTreeMap.mem_toList_iff_getElem?_eq_some]

theorem pairwise (h : Ordered t tick rows) : rows.Pairwise fun a b => a.1 ≠ b.1 :=
  (h.perm.pairwise_iff fun hne => hne.symm).mp (Table.pairwise_toList t)

variable [DecidableEq κ]

section

variable (h : Ordered t tick rows) (k : κ)
include h

theorem find? : rows.find? (fun e => e.1 = k) = t[k]?.map fun row => (k, row) := by
  cases hrow : t[k]? with
  | none =>
    rw [Option.map_none, List.find?_eq_none]
    rintro ⟨k', row⟩ hmem hk
    have hk' : k' = k := of_decide_eq_true hk
    rw [h.mem_iff, hk', hrow] at hmem
    cases hmem
  | some row =>
    have hmem := h.mem_iff.mpr hrow
    cases hfind : rows.find? fun e => e.1 = k with
    | none => exact absurd (List.find?_eq_none.mp hfind _ hmem) (by simp)
    | some e =>
      obtain ⟨k', row'⟩ := e
      have hk : k' = k := by simpa using List.find?_some hfind
      have hrow' := h.mem_iff.mp (mem_of_find?_eq_some hfind)
      rw [hk, hrow] at hrow'
      cases hrow'
      rw [hk]
      rfl

theorem get : get k (entries rows) = t[k]?.map Held.value := by
  rw [Recency.get, find?_entries, h.find?]
  cases t[k]? <;> rfl

theorem erase :
    Ordered (t.erase k) tick (rows.filter fun e => e.1 ≠ k) where
  perm := by
    refine (perm_ext_iff_of_nodup (Table.nodup_toList _)
      ((h.perm.nodup_iff.mp (Table.nodup_toList t)).filter _)).mpr fun ⟨a, row⟩ => ?_
    rw [ExtTreeMap.mem_toList_iff_getElem?_eq_some, Table.getElem?_erase, mem_filter,
      h.mem_iff]
    by_cases ha : a = k <;> simp [ha]
  sorted := h.sorted.filter _
  used_le e he := h.used_le e (mem_of_mem_filter he)

theorem insert (v : ν) {now : Nat} (hnow : tick < now) :
    Ordered (t.insert k ⟨v, now⟩) now ((rows.filter fun e => e.1 ≠ k) ++ [(k, ⟨v, now⟩)]) where
  perm := by
    have hnone : (t.erase k)[k]? = none := by rw [Table.getElem?_erase, if_pos rfl]
    rw [← Table.insert_erase_eq]
    exact (Table.toList_insert_perm hnone).trans
      (((h.erase k).perm.cons _).trans (perm_append_singleton _ _).symm)
  sorted := by
    rw [pairwise_append]
    refine ⟨h.sorted.filter _, pairwise_singleton _ _, ?_⟩
    intro e he last hlast
    have hle := h.used_le e (mem_of_mem_filter he)
    rw [mem_singleton.mp hlast]
    exact Nat.lt_of_le_of_lt hle hnow
  used_le e he := by
    rcases mem_append.mp he with he | he
    · have := h.used_le e (mem_of_mem_filter he)
      omega
    · rw [mem_singleton.mp he]

end

theorem erase_head {first : κ × Held ν} {rest : List (κ × Held ν)}
    (h : Ordered t tick (first :: rest)) : Ordered (t.erase first.1) tick rest := by
  have herase := h.erase first.1
  have hfilter : (first :: rest).filter (fun e => e.1 ≠ first.1) = rest := by
    rw [filter_cons_of_neg (by simp), filter_eq_self]
    intro e he
    simpa using ((pairwise_cons.mp h.pairwise).1 e he).symm
  rwa [hfilter] at herase

end Ordered

section Evict

variable [DecidableEq κ] (size : ν → Nat) (exceeds : (total count : Nat) → Bool)

def total (l : List (κ × ν)) : Nat := (l.map fun e => size e.2).sum

/-- Remove the row used longest ago while the table is over, and count its size off `bytes`.  A
table of `fuel` rows is empty after as many rounds. -/
def evict : (fuel : Nat) → Table κ (Held ν) × Nat → Table κ (Held ν) × Nat
  | 0, cache => cache
  | fuel + 1, (t, bytes) =>
    if exceeds bytes t.size then
      match oldestKey t with
      | none => (t, bytes)
      | some oldest =>
        match t[oldest]? with
        | none => evict fuel (t, bytes)
        | some evicted => evict fuel (t.erase oldest, bytes - size evicted.value)
    else (t, bytes)

variable {size exceeds}

theorem evict_ordered [LawfulEqOrd κ] (fuel : Nat) {tick : Nat} {t : Table κ (Held ν)}
    {rows : List (κ × Held ν)} (h : Ordered t tick rows) (hfuel : rows.length ≤ fuel) :
    ∃ t' rows', evict size exceeds fuel (t, total size (entries rows)) =
        (t', total size (entries rows')) ∧ Ordered t' tick rows' ∧
      entries rows' = shed (fun l => exceeds (total size l) l.length) (entries rows) := by
  induction fuel generalizing t rows with
  | zero =>
    have hrows : rows = [] := length_eq_zero_iff.mp (by omega)
    subst hrows
    exact ⟨t, [], rfl, h, rfl⟩
  | succ fuel ih =>
    cases rows with
    | nil =>
      refine ⟨t, [], ?_, h, rfl⟩
      rw [evict, h.oldestKey]
      split <;> rfl
    | cons first rest =>
      have hcount : t.size = (entries (first :: rest)).length := by
        rw [h.size, entries, length_map]
      have hrow : t[first.1]? = some first.2 := h.mem_iff.mp (mem_cons_self ..)
      have hcons : entries (first :: rest) = (first.1, first.2.value) :: entries rest := rfl
      have htotal : total size (entries (first :: rest)) =
          size first.2.value + total size (entries rest) := by
        rw [hcons, total, map_cons, sum_cons, total]
      rw [evict, hcount, h.oldestKey]
      by_cases hover :
          exceeds (total size (entries (first :: rest))) (entries (first :: rest)).length
      · obtain ⟨t', rows', hevict, hordered, hshed⟩ :=
          ih h.erase_head (by simp only [length_cons] at hfuel; omega)
        refine ⟨t', rows', ?_, hordered, ?_⟩
        · rw [if_pos hover]
          simp only [List.head?_cons, Option.map_some, hrow]
          rw [htotal, Nat.add_sub_cancel_left, hevict]
        · rw [hshed, hcons, shed, ← hcons, if_pos hover]
      · refine ⟨t, first :: rest, by rw [if_neg hover], h, ?_⟩
        rw [hcons, shed, ← hcons, if_neg hover]

end Evict

/-- The rows of the table, by recency, are these entries. -/
def Stands (t : Table κ (Held ν)) (tick : Nat) (l : List (κ × ν)) : Prop :=
  ∃ rows, Ordered t tick rows ∧ entries rows = l

theorem stands_empty : Stands (∅ : Table κ (Held ν)) 0 [] := ⟨[], ordered_empty, rfl⟩

namespace Stands

variable {t : Table κ (Held ν)} {tick : Nat} {l : List (κ × ν)}

section

variable (h : Stands t tick l)
include h

theorem mono {later : Nat} (hle : tick ≤ later) : Stands t later l := by
  obtain ⟨rows, hrows, hl⟩ := h
  exact ⟨rows, hrows.mono hle, hl⟩

theorem size : t.size = l.length := by
  obtain ⟨rows, hrows, rfl⟩ := h
  rw [hrows.size, entries, length_map]

theorem sum (f : κ → ν → Nat) :
    t.sum (fun k held => f k held.value) = (l.map fun e => f e.1 e.2).sum := by
  obtain ⟨rows, hrows, rfl⟩ := h
  rw [hrows.sum, entries, map_map]
  rfl

theorem filter (p : κ → Bool) :
    Stands (t.filter fun k _ => p k) tick (l.filter fun e => p e.1) := by
  obtain ⟨rows, hrows, rfl⟩ := h
  refine ⟨_, hrows.filter fun k _ => p k, ?_⟩
  rw [entries, entries, filter_map]
  rfl

end

variable [LawfulEqOrd κ]

theorem nodup (h : Stands t tick l) : (l.map Prod.fst).Nodup := by
  obtain ⟨rows, hrows, rfl⟩ := h
  rw [entries, map_map, List.Nodup, pairwise_map]
  exact hrows.pairwise

variable [DecidableEq κ]

section

variable (h : Stands t tick l)
include h

theorem get (k : κ) : get k l = t[k]?.map Held.value := by
  obtain ⟨rows, hrows, rfl⟩ := h
  exact hrows.get k

theorem erase (k : κ) : Stands (t.erase k) tick (without k l) := by
  obtain ⟨rows, hrows, rfl⟩ := h
  exact ⟨_, hrows.erase k, (without_entries k rows).symm⟩

theorem put (k : κ) (v : ν) {now : Nat} (hnow : tick < now) :
    Stands (t.insert k ⟨v, now⟩) now (put k v l) := by
  obtain ⟨rows, hrows, rfl⟩ := h
  exact ⟨_, hrows.insert k v hnow, (put_entries k v now rows).symm⟩

theorem touch (k : κ) {now : Nat} (hnow : tick < now) :
    Stands (match t[k]? with
      | none => t
      | some held => t.insert k { held with used := now }) now (touch k l) := by
  rw [Recency.touch, h.get]
  cases t[k]? with
  | none => exact h.mono hnow.le
  | some held => exact h.put k held.value hnow

theorem total_put (size : ν → Nat) (k : κ) (v : ν) :
    total size (Recency.put k v l) + ((Recency.get k l).map size).getD 0 = total size l + size v ∧
      ((Recency.get k l).map size).getD 0 ≤ total size l := by
  have hput : Table.sum (fun _ held => size held.value) (t.insert k ⟨v, tick + 1⟩) =
      total size (Recency.put k v l) := (h.put k v (Nat.lt_succ_self tick)).sum fun _ => size
  have hsum : Table.sum (fun _ held => size held.value) t = total size l := h.sum fun _ => size
  rw [h.get, ← hput, ← hsum]
  cases hrow : t[k]? with
  | none =>
    rw [Table.sum_insert hrow]
    simp only [Option.map_none, Option.getD_none]
    omega
  | some held =>
    have hinsert : Table.sum (fun _ held => size held.value) (t.insert k ⟨v, tick + 1⟩) +
        size held.value = size v + Table.sum (fun _ held => size held.value) t :=
      Table.sum_insert_of_some hrow
    have herase : Table.sum (fun _ held => size held.value) t = size held.value +
        Table.sum (fun _ held => size held.value) (t.erase k) := Table.sum_erase hrow
    simp only [Option.map_some, Option.getD_some]
    omega

theorem evict (size : ν → Nat) (exceeds : Nat → Nat → Bool) :
    ∃ t', Recency.evict size exceeds t.size (t, total size l) =
        (t', total size (shed (fun l => exceeds (total size l) l.length) l)) ∧
      Stands t' tick (shed (fun l => exceeds (total size l) l.length) l) := by
  have hsize := h.size
  obtain ⟨rows, hrows, rfl⟩ := h
  obtain ⟨t', rows', hevict, hordered, hshed⟩ := evict_ordered t.size hrows hrows.size.ge
  rw [← hshed]
  exact ⟨t', hevict, rows', hordered, rfl⟩

end

end Stands

end Recency

end Dctl.ProofKit
