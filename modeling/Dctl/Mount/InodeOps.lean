import Dctl.Mount.InodeSound

/-! What each operation on the inode table does to it, and what it leaves alone. -/

namespace Dctl.Mount.InodeTable

open ProofKit

variable {root path : String} {kind : Kind} {max n m count : Nat} {r q : Record} {t t' : InodeTable}

theorem Agrees.intern_cases (h : Agrees root t) (max : Nat) (path : String) (kind : Kind) :
    (∃ r : Record, t.records[(t.intern max path kind).1]? = some r ∧ r.path = path ∧
      (t.intern max path kind).2 = t.stamp.replace (t.intern max path kind).1 r
        { r with used := t.stamp.tick, kind }) ∨
    (t.numbers path = none ∧
      t.intern max path kind = (t.next, (t.stamp.add path kind).evict max)) := by
  unfold InodeTable.intern
  cases hnumber : t.numbers path with
  | none =>
    have hnumber' : t.stamp.numbers path = none := hnumber
    simp only [hnumber', allocate]
    exact .inr ⟨trivial, rfl⟩
  | some n =>
    obtain ⟨r, hr, hpath⟩ := (h.numbers n path).mp hnumber
    refine .inl ⟨r, ?_⟩
    have hnumber' : t.stamp.numbers path = some n := hnumber
    have hr' : t.stamp.records[n]? = some r := hr
    simp only [hnumber', hr']
    refine ⟨hr, hpath, ?_⟩
    by_cases hzero : r.lookups = 0
    · rw [if_pos hzero]
      simp only [InodeTable.replace, requeue, touch, if_pos hzero]
    · rw [if_neg hzero]
      simp only [InodeTable.replace, requeue, if_neg hzero]

theorem Agrees.intern (h : Agrees root t) (hroom : Room t) :
    Agrees root (t.intern max path kind).2 := by
  have hstamped := h.stamp hroom
  have hback := h.unstamped hroom
  rcases h.intern_cases max path kind with
    ⟨r, hr, hpath, heq⟩ | ⟨hfree, heq⟩
  · rw [heq]
    refine hstamped.replace hr rfl (Nat.le_refl _) (fun _ => .inr hback) fun hn => ?_
    obtain ⟨q, hq, -, hne⟩ := h.root
    rw [hn] at hr
    exact Option.some.inj (hq.symm.trans hr) ▸ hne
  · rw [heq]
    have hnext := h.next_le
    unfold Room at hroom
    refine ((hstamped.add hback ?_ ?_ hfree).evict max).1
    · show t.next + 1 < 2 ^ 64
      omega
    · rw [tick_stamp hroom]
      show t.next + 1 ≤ t.tick + 1 + 2
      omega

theorem saturatingSucc_ne_zero : saturatingSucc n ≠ 0 := by
  unfold saturatingSucc
  omega

theorem remember_of_none (hr : t.records[n]? = none) : t.remember n = t := by
  simp only [remember, hr]

theorem remember_of_some (hr : t.records[n]? = some r) :
    t.remember n = t.replace n r { r with lookups := saturatingSucc r.lookups } := by
  simp only [remember, hr, InodeTable.replace, requeue, if_neg saturatingSucc_ne_zero]

theorem Agrees.remember (h : Agrees root t) : Agrees root (t.remember n) := by
  cases hr : t.records[n]? with
  | none =>
    rw [remember_of_none hr]
    exact h
  | some r =>
    rw [remember_of_some hr]
    exact h.replace hr rfl (h.used n r hr) (fun hzero => absurd hzero saturatingSucc_ne_zero)
      fun _ => saturatingSucc_ne_zero

def released (now count : Nat) (r : Record) : Record :=
  { r with
    lookups := r.lookups - count
    used := if r.lookups - count = 0 ∧ r.lookups ≠ 0 then now else r.used }

theorem Agrees.forget_cases (h : Agrees root t) (max count : Nat) (hn : n ≠ rootIno) :
    (t.records[n]? = none ∧ t.forget max n count = t.stamp.evict max) ∨
    (∃ r : Record, t.records[n]? = some r ∧
      t.forget max n count = (t.stamp.replace n r (released t.stamp.tick count r)).evict max) := by
  unfold InodeTable.forget
  rw [if_neg hn]
  have hrecords : t.stamp.records[n]? = t.records[n]? := rfl
  simp only [hrecords]
  cases hr : t.records[n]? with
  | none => exact .inl ⟨rfl, rfl⟩
  | some r =>
    refine .inr ⟨r, rfl, congrArg (fun x : InodeTable => x.evict max) ?_⟩
    simp only [InodeTable.replace, requeue, released]
    by_cases hzero : r.lookups = 0
    · have hqueued : t.stamp.evictable[r.used]? = some n := h.queued hr hzero
      have hsame := Table.insert_erase hqueued
      simp [hzero, hsame]
    · by_cases hgone : r.lookups - count = 0
      · simp [hzero, hgone]
      · simp [hzero, hgone]

section

variable (h : Agrees root t) (hroom : Room t)
include h hroom

theorem Agrees.released_used (hr : t.records[n]? = some r) :
    (released t.stamp.tick count r).used ≤ t.stamp.tick := by
  unfold released
  dsimp only
  split
  · exact Nat.le_refl _
  · exact (h.stamp hroom).used n r hr

theorem Agrees.released_queues : Queues t.stamp r (released t.stamp.tick count r) := by
  intro hzero
  unfold released at hzero ⊢
  dsimp only at hzero ⊢
  by_cases hfree : r.lookups = 0
  · exact .inl ⟨hfree, if_neg fun hboth => hboth.2 hfree⟩
  · rw [if_pos ⟨hzero, hfree⟩]
    exact .inr (h.unstamped hroom)

theorem Agrees.forget : Agrees root (t.forget max n count) := by
  by_cases hn : n = rootIno
  · rw [InodeTable.forget, if_pos hn]
    exact h
  · have hstamped := h.stamp hroom
    rcases h.forget_cases max count hn with ⟨-, heq⟩ | ⟨r, hr, heq⟩
    · rw [heq]
      exact (hstamped.evict max).1
    · rw [heq]
      have hpath : (released t.stamp.tick count r).path = r.path := rfl
      exact ((hstamped.replace hr hpath (h.released_used hroom hr) (h.released_queues hroom)
        fun hroot => absurd hroot hn).evict max).1

end

theorem resolve_of_none (hr : t.records[n]? = none) : t.resolve n = (none, t.stamp) := by
  have hr' : t.stamp.records[n]? = none := hr
  simp only [resolve, hr']

theorem resolve_of_some (hr : t.records[n]? = some r) : t.resolve n =
    (some (r.path, r.kind), t.stamp.replace n r { r with used := t.stamp.tick }) := by
  have hr' : t.stamp.records[n]? = some r := hr
  simp only [resolve, hr']
  by_cases hzero : r.lookups = 0
  · simp only [InodeTable.replace, requeue, touch, if_pos hzero]
  · simp only [InodeTable.replace, requeue, if_neg hzero]

theorem Agrees.resolve (h : Agrees root t) (hroom : Room t) : Agrees root (t.resolve n).2 := by
  have hstamped := h.stamp hroom
  cases hr : t.records[n]? with
  | none =>
    rw [resolve_of_none hr]
    exact hstamped
  | some r =>
    rw [resolve_of_some hr]
    refine hstamped.replace hr rfl (Nat.le_refl _) (fun _ => .inr (h.unstamped hroom)) fun hn => ?_
    obtain ⟨q, hq, -, hne⟩ := h.root
    rw [hn] at hr
    exact Option.some.inj (hq.symm.trans hr) ▸ hne

/-- A number that was given out stands for the path that it stood for. -/
structure Follows (t t' : InodeTable) : Prop where
  next_le : t.next ≤ t'.next
  path : ∀ (n : Nat) (r' : Record), t'.records[n]? = some r' → n < t.next →
    ∃ r : Record, t.records[n]? = some r ∧ r'.path = r.path

theorem Follows.refl (t : InodeTable) : Follows t t := ⟨Nat.le_refl _, fun _ r hr _ => ⟨r, hr, rfl⟩⟩

theorem Follows.trans {t₁ t₂ t₃ : InodeTable} (h : Follows t₁ t₂) (h' : Follows t₂ t₃) :
    Follows t₁ t₃ where
  next_le := h.next_le.trans h'.next_le
  path n r hr hn := by
    obtain ⟨q, hq, hpath⟩ := h'.path n r hr (Nat.lt_of_lt_of_le hn h.next_le)
    obtain ⟨p, hp, hpath'⟩ := h.path n q hq hn
    exact ⟨p, hp, hpath.trans hpath'⟩

/-- A referenced record keeps its references. -/
def Holds (t t' : InodeTable) : Prop :=
  ∀ (n : Nat) (r : Record), t.records[n]? = some r → r.lookups ≠ 0 →
    ∃ r' : Record, t'.records[n]? = some r' ∧ r'.lookups = r.lookups

theorem Holds.trans {t₁ t₂ t₃ : InodeTable} (h : Holds t₁ t₂) (h' : Holds t₂ t₃) : Holds t₁ t₃ := by
  intro n r hr hne
  obtain ⟨q, hq, hlookups⟩ := h n r hr hne
  obtain ⟨p, hp, hlookups'⟩ := h' n q hq (by omega)
  exact ⟨p, hp, hlookups'.trans hlookups⟩

theorem getElem?_replace {r' : Record} : (t.replace n r r').records[m]? =
    if m = n then some r' else t.records[m]? := Table.getElem?_insert ..

theorem follows_replace {r' : Record} (hr : t.records[n]? = some r) (hpath : r'.path = r.path) :
    Follows t (t.replace n r r') where
  next_le := Nat.le_refl _
  path m q hq _ := by
    rw [getElem?_replace] at hq
    split at hq
    next hm => exact ⟨r, hm ▸ hr, Option.some.inj hq ▸ hpath⟩
    next => exact ⟨q, hq, rfl⟩

theorem holds_replace {r' : Record} (hr : t.records[n]? = some r)
    (hlookups : r'.lookups = r.lookups) : Holds t (t.replace n r r') := by
  intro m q hq _
  by_cases hm : m = n
  · rw [hm] at hq
    obtain rfl := Option.some.inj (hr.symm.trans hq)
    exact ⟨r', by rw [getElem?_replace, if_pos hm], hlookups⟩
  · exact ⟨q, by rw [getElem?_replace, if_neg hm, hq], rfl⟩

theorem follows_stamp : Follows t t.stamp := ⟨Nat.le_refl _, fun _ r hr _ => ⟨r, hr, rfl⟩⟩

theorem holds_stamp : Holds t t.stamp := fun _ r hr _ => ⟨r, hr, rfl⟩

theorem Evicted.follows (h : Evicted max t t') : Follows t t' :=
  ⟨h.next.ge, fun n r hr _ => ⟨r, h.was n r hr, rfl⟩⟩

theorem Evicted.holds (h : Evicted max t t') :
    Holds t t' := fun n r hr hne => ⟨r, h.kept n r hr hne, rfl⟩

theorem getElem?_add : (t.add path kind).records[m]? =
    if m = t.next then some ⟨path, kind, 0, t.tick⟩ else t.records[m]? := Table.getElem?_insert ..

theorem getElem?_added :
    (t.stamp.add path kind).records[t.next]? = some ⟨path, kind, 0, t.stamp.tick⟩ :=
  getElem?_add.trans (if_pos rfl)

theorem follows_add (hnext : t.next + 1 < 2 ^ 64) : Follows t (t.add path kind) where
  next_le := by
    show t.next ≤ saturatingSucc t.next
    unfold saturatingSucc
    omega
  path m q hq hm := by
    rw [getElem?_add, if_neg hm.ne] at hq
    exact ⟨q, hq, rfl⟩

section

variable (h : Agrees root t)
include h

theorem Agrees.holds_add : Holds t (t.add path kind) := by
  intro m q hq _
  refine ⟨q, ?_, rfl⟩
  rw [getElem?_add, if_neg (h.below m q hq).ne, hq]

theorem Agrees.next_lt (hroom : Room t) : t.next + 1 < 2 ^ 64 := by
  have hle := h.next_le
  unfold Room at hroom
  omega

theorem Agrees.added (hroom : Room t) (hfree : t.numbers path = none) :
    Agrees root (t.stamp.add path kind) := by
  refine (h.stamp hroom).add (h.unstamped hroom) (h.next_lt hroom) ?_ hfree
  rw [tick_stamp hroom]
  exact Nat.succ_le_succ h.next_le

theorem Agrees.intern_spec (hroom : Room t) (max : Nat) (path : String) (kind : Kind) :
    Follows t (t.intern max path kind).2 ∧ Holds t (t.intern max path kind).2 ∧
      (t.intern max path kind).2.tick = t.tick + 1 ∧
      (t.intern max path kind).1 < (t.intern max path kind).2.next ∧
      (∀ r : Record, (t.intern max path kind).2.records[(t.intern max path kind).1]? = some r →
        r.path = path) ∧
      (t.next ≤ (t.intern max path kind).1 ∨
        ∃ r : Record, t.records[(t.intern max path kind).1]? = some r ∧ r.path = path) := by
  rcases h.intern_cases max path kind with ⟨r, hr, hpath, heq⟩ | ⟨hfree, heq⟩
  · have hr' : t.stamp.records[(t.intern max path kind).1]? = some r := hr
    rw [heq]
    refine ⟨follows_stamp.trans (follows_replace hr' rfl), holds_stamp.trans (holds_replace hr'
      rfl), tick_stamp hroom, h.below _ r hr, fun q hq => ?_, .inr ⟨r, hr, hpath⟩⟩
    rw [getElem?_replace, if_pos rfl] at hq
    exact Option.some.inj hq ▸ hpath
  · have hadded : Agrees root (t.stamp.add path kind) := h.added hroom hfree
    obtain ⟨-, hevicted⟩ := hadded.evict max
    rw [heq]
    have hadd : Follows t.stamp (t.stamp.add path kind) := follows_add (h.next_lt hroom)
    refine ⟨follows_stamp.trans (hadd.trans hevicted.follows),
      holds_stamp.trans ((h.stamp hroom).holds_add.trans hevicted.holds),
      hevicted.tick.trans (tick_stamp hroom), ?_, fun q hq => ?_, .inl (Nat.le_refl _)⟩
    · rw [hevicted.next]
      show t.next < saturatingSucc t.next
      have hnext := h.next_lt hroom
      unfold saturatingSucc
      omega
    · have hwas : (t.stamp.add path kind).records[t.next]? = some q := hevicted.was _ q hq
      rw [← Option.some.inj (getElem?_added.symm.trans hwas)]

theorem Agrees.referenced_added : (t.stamp.add path kind).referenced = t.referenced := by
  have hsum : (t.stamp.add path kind).referenced =
      (⟨path, kind, 0, t.stamp.tick⟩ : Record).referenced.toNat + t.referenced :=
    Table.sum_insert h.fresh
  rw [Record.toNat_referenced_of_zero rfl, Nat.zero_add] at hsum
  exact hsum

theorem Agrees.intern_absent (hroom : Room t) (hfree : t.numbers path = none)
    (hfull : max ≤ t.referenced) :
    (t.intern max path kind).2.records[(t.intern max path kind).1]? = none := by
  rcases h.intern_cases max path kind with ⟨r, hr, hpath, -⟩ | ⟨-, heq⟩
  · rw [(h.numbers _ path).mpr ⟨r, hr, hpath⟩] at hfree
    cases hfree
  · have hadded : Agrees root (t.stamp.add path kind) := h.added hroom hfree
    obtain ⟨hagrees, hevicted⟩ := hadded.evict max
    rw [heq]
    show ((t.stamp.add path kind).evict max).records[t.next]? = none
    cases hr : ((t.stamp.add path kind).evict max).records[t.next]? with
    | none => rfl
    | some r =>
      obtain rfl := Option.some.inj (getElem?_added.symm.trans (hevicted.was _ r hr))
      have hqueued := Table.size_erase_of_some (hagrees.queued hr rfl)
      have hcount := hagrees.count
      have hsame := hevicted.referenced.trans h.referenced_added
      rcases hevicted.within with hwithin | hwithin
      · omega
      · omega

theorem Agrees.intern_present (hroom : Room t) (kind : Kind)
    (hplace : t.numbers path ≠ none ∨ t.referenced < max) :
    ∃ r : Record, (t.intern max path kind).2.records[(t.intern max path kind).1]? = some r := by
  rcases h.intern_cases max path kind with ⟨r, hr, hpath, heq⟩ | ⟨hfree, heq⟩
  · rw [heq]
    exact ⟨_, by rw [getElem?_replace, if_pos rfl]⟩
  · have hadded : Agrees root (t.stamp.add path kind) := h.added hroom hfree
    rw [heq]
    refine ⟨_, (hadded.evict max).2.newest ?_ t.next _ getElem?_added fun m q hq =>
      hadded.used m q hq⟩
    rw [h.referenced_added]
    exact hplace.resolve_left fun hne => hne hfree

theorem Agrees.forget_spec (hroom : Room t) (max count : Nat) (hn : n ≠ rootIno) :
    Follows t (t.forget max n count) ∧ (t.forget max n count).tick = t.tick + 1 ∧
      (∀ (m : Nat) (r : Record), m ≠ n → t.records[m]? = some r → r.lookups ≠ 0 →
        ∃ r' : Record, (t.forget max n count).records[m]? = some r' ∧ r'.lookups = r.lookups) ∧
      ∀ r : Record, t.records[n]? = some r → r.lookups - count ≠ 0 →
        ∃ r' : Record, (t.forget max n count).records[n]? = some r' ∧
          r'.lookups = r.lookups - count := by
  have hstamped := h.stamp hroom
  rcases h.forget_cases max count hn with ⟨hnone, heq⟩ | ⟨r, hr, heq⟩
  · obtain ⟨-, hevicted⟩ := hstamped.evict max
    rw [heq]
    refine ⟨follows_stamp.trans hevicted.follows, hevicted.tick.trans (tick_stamp hroom),
      fun m q _ hq hne => holds_stamp.trans hevicted.holds m q hq hne, fun q hq => ?_⟩
    rw [hnone] at hq
    cases hq
  · have hr' : t.stamp.records[n]? = some r := hr
    have hpath : (released t.stamp.tick count r).path = r.path := rfl
    have hagrees : Agrees root (t.stamp.replace n r (released t.stamp.tick count r)) := by
      refine hstamped.replace hr' hpath (h.released_used hroom hr) (h.released_queues hroom) ?_
      exact fun hroot => absurd hroot hn
    obtain ⟨-, hevicted⟩ := hagrees.evict max
    rw [heq]
    refine ⟨follows_stamp.trans ((follows_replace hr' hpath).trans hevicted.follows),
      hevicted.tick.trans (tick_stamp hroom), fun m q hm hq hne => ?_, fun q hq hne => ?_⟩
    · refine ⟨q, hevicted.kept m q ?_ hne, rfl⟩
      rw [getElem?_replace, if_neg hm]
      exact hq
    · obtain rfl := Option.some.inj (hr.symm.trans hq)
      refine ⟨_, hevicted.kept n (released t.stamp.tick count r) ?_ hne, rfl⟩
      rw [getElem?_replace, if_pos rfl]

end

end Dctl.Mount.InodeTable
