import Dctl.Mount.Inode

/-! The inode table's maps agree with each other, whatever is done with it: what one edit of a
record keeps, and from it what each operation keeps. -/

namespace Dctl.Mount.InodeTable

open ProofKit

/-- The maps agree, and the root is referenced. -/
structure Agrees (root : String) (t : InodeTable) : Prop where
  numbers : ∀ (n : Nat) p, t.numbers p = some n ↔ ∃ r : Record, t.records[n]? = some r ∧ r.path = p
  evictable : ∀ (u n : Nat), t.evictable[u]? = some n ↔
    ∃ r : Record, t.records[n]? = some r ∧ r.lookups = 0 ∧ r.used = u
  used : ∀ (n : Nat) (r : Record), t.records[n]? = some r → r.used ≤ t.tick
  below : ∀ (n : Nat) (r : Record), t.records[n]? = some r → n < t.next
  next_le : t.next ≤ t.tick + 2
  root : ∃ r : Record, t.records[rootIno]? = some r ∧ r.path = root ∧ r.lookups ≠ 0
  count : t.records.size = t.referenced + t.evictable.size

variable {root path : String} {kind : Kind} {max n m u : Nat} {r r' q : Record} {t t' : InodeTable}

def requeue (e : Table Nat Nat) (n : Nat) (r r' : Record) : Table Nat Nat :=
  let e := if r.lookups = 0 then e.erase r.used else e
  if r'.lookups = 0 then e.insert r'.used n else e

def replace (t : InodeTable) (n : Nat) (r r' : Record) : InodeTable :=
  { t with records := t.records.insert n r', evictable := requeue t.evictable n r r' }

/-- The new record keeps its place in the queue, or goes to the back of it. -/
def Queues (t : InodeTable) (r r' : Record) : Prop :=
  r'.lookups = 0 → r.lookups = 0 ∧ r'.used = r.used ∨
    ∀ (m : Nat) (q : Record), t.records[m]? = some q → q.used < r'.used

theorem Agrees.queued (h : Agrees root t) (hr : t.records[n]? = some r) (hzero : r.lookups = 0) :
    t.evictable[r.used]? = some n :=
  (h.evictable r.used n).mpr ⟨r, hr, hzero, rfl⟩

theorem Agrees.unqueued (h : Agrees root t) (hq : Queues t r r') (hzero : r'.lookups = 0) :
    (if r.lookups = 0 then t.evictable.erase r.used else t.evictable)[r'.used]? =
      none := by
  rcases hq hzero with ⟨hold, hused⟩ | hback
  · rw [if_pos hold, hused, Table.getElem?_erase, if_pos rfl]
  · have hnone : t.evictable[r'.used]? = none := by
      cases hu : t.evictable[r'.used]? with
      | none => rfl
      | some m =>
        obtain ⟨q, hq, -, hused⟩ := (h.evictable _ m).mp hu
        exact absurd (hback m q hq) (by omega)
    split
    · rw [Table.getElem?_erase, hnone, ite_self]
    · exact hnone

section

variable (h : Agrees root t) (hr : t.records[n]? = some r)
include h hr

theorem Agrees.getElem?_requeue (hq : Queues t r r') :
    (requeue t.evictable n r r')[u]? = some m ↔
      ∃ q : Record, (t.records.insert n r')[m]? = some q ∧ q.lookups = 0 ∧ q.used = u := by
  have herased : (if r.lookups = 0 then t.evictable.erase r.used else t.evictable)[u]? = some m ↔
      m ≠ n ∧ t.evictable[u]? = some m := by
    have hiff := h.evictable u m
    by_cases hzero : r.lookups = 0
    · rw [if_pos hzero, Table.getElem?_erase]
      have hn := h.queued hr hzero
      by_cases hu : u = r.used
      · rw [if_pos hu, hu, hn]
        simp only [reduceCtorEq, Option.some.injEq, false_iff, not_and]
        exact fun hne heq => hne heq.symm
      · rw [if_neg hu, iff_and_self]
        rintro hm rfl
        obtain ⟨q, hq, -, hused⟩ := hiff.mp hm
        exact hu (hused ▸ congrArg Record.used (Option.some.inj (hq.symm.trans hr)))
    · rw [if_neg hzero, iff_and_self]
      rintro hm rfl
      obtain ⟨q, hq, hlookups, -⟩ := hiff.mp hm
      exact hzero (Option.some.inj (hq.symm.trans hr) ▸ hlookups)
  have hfree := h.unqueued hq
  unfold requeue
  simp only [Table.getElem?_insert]
  by_cases hzero : r'.lookups = 0
  · rw [if_pos hzero, Table.getElem?_insert]
    by_cases hu : u = r'.used
    · rw [if_pos hu]
      constructor
      · rintro ⟨⟩
        exact ⟨r', if_pos rfl, hzero, hu.symm⟩
      · rintro ⟨q, hq, hlookups, hused⟩
        by_cases hm : m = n
        · rw [hm]
        · rw [if_neg hm] at hq
          have htaken := herased.mpr ⟨hm, (h.evictable u m).mpr ⟨q, hq, hlookups, hused⟩⟩
          rw [hu, hfree hzero] at htaken
          cases htaken
    · rw [if_neg hu, herased]
      constructor
      · rintro ⟨hm, hqueued⟩
        rw [if_neg hm]
        exact (h.evictable u m).mp hqueued
      · rintro ⟨q, hq, hlookups, hused⟩
        by_cases hm : m = n
        · rw [if_pos hm] at hq
          exact absurd (hused.symm.trans (Option.some.inj hq ▸ rfl)) hu
        · rw [if_neg hm] at hq
          exact ⟨hm, (h.evictable u m).mpr ⟨q, hq, hlookups, hused⟩⟩
  · rw [if_neg hzero, herased]
    constructor
    · rintro ⟨hm, hqueued⟩
      rw [if_neg hm]
      exact (h.evictable u m).mp hqueued
    · rintro ⟨q, hq, hlookups, hused⟩
      by_cases hm : m = n
      · rw [if_pos hm] at hq
        exact absurd (Option.some.inj hq ▸ hlookups) hzero
      · rw [if_neg hm] at hq
        exact ⟨hm, (h.evictable u m).mpr ⟨q, hq, hlookups, hused⟩⟩

theorem Agrees.size_requeue (hq : Queues t r r') :
    (requeue t.evictable n r r').size + r'.referenced.toNat =
      t.evictable.size + r.referenced.toNat := by
  have hfree := h.unqueued hq
  unfold requeue
  have hold : (if r.lookups = 0 then t.evictable.erase r.used else t.evictable).size + 1 =
      t.evictable.size + r.referenced.toNat := by
    by_cases hzero : r.lookups = 0
    · rw [if_pos hzero, Record.toNat_referenced_of_zero hzero]
      exact (Table.size_erase_of_some (h.queued hr hzero)).symm
    · rw [if_neg hzero, Record.toNat_referenced_of_ne hzero]
  by_cases hzero : r'.lookups = 0
  · simp only [if_pos hzero]
    rw [Table.size_insert_of_none (hfree hzero), Record.toNat_referenced_of_zero hzero]
    exact hold
  · simp only [if_neg hzero]
    rw [Record.toNat_referenced_of_ne hzero]
    exact hold

theorem Agrees.replace (hpath : r'.path = r.path) (hused : r'.used ≤ t.tick) (hq : Queues t r r')
    (hroot : n = rootIno → r'.lookups ≠ 0) :
    Agrees root (t.replace n r r') where
  numbers m p := by
    show t.numbers p = some m ↔ ∃ q : Record, (t.records.insert n r')[m]? = some q ∧ q.path = p
    rw [h.numbers, Table.getElem?_insert]
    by_cases hm : m = n
    · rw [hm, if_pos rfl, hr]
      simp only [Option.some.injEq, exists_eq_left', hpath]
    · rw [if_neg hm]
  evictable u m := h.getElem?_requeue hr hq
  used m q hm := by
    have hm : (t.records.insert n r')[m]? = some q := hm
    rw [Table.getElem?_insert] at hm
    split at hm
    · rw [← Option.some.inj hm]
      exact hused
    · exact h.used m q hm
  below m q hm := by
    have hm : (t.records.insert n r')[m]? = some q := hm
    rw [Table.getElem?_insert] at hm
    split at hm
    next heq => rw [heq]; exact h.below n r hr
    next => exact h.below m q hm
  next_le := h.next_le
  root := by
    obtain ⟨q, hget, hqpath, hlookups⟩ := h.root
    by_cases hn : rootIno = n
    · rw [hn, hr] at hget
      obtain rfl := Option.some.inj hget
      exact ⟨r', by rw [hn]; exact (Table.getElem?_insert ..).trans (if_pos rfl),
        hpath.trans hqpath, hroot hn.symm⟩
    · exact ⟨q, ((Table.getElem?_insert ..).trans (if_neg hn)).trans hget, hqpath, hlookups⟩
  count := by
    have hqueue := h.size_requeue hr hq
    have hsum : (t.replace n r r').referenced + r.referenced.toNat =
        r'.referenced.toNat + t.referenced := Table.sum_insert_of_some hr
    have hcount := h.count
    show (t.records.insert n r').size = (t.replace n r r').referenced +
      (requeue t.evictable n r r').size
    rw [Table.size_insert_of_some hr]
    omega

end

/-- The counters are far from their ends. -/
def Room (t : InodeTable) : Prop := t.tick + 3 < 2 ^ 64

theorem tick_stamp (h : Room t) : t.stamp.tick = t.tick + 1 := by
  unfold Room at h
  show wrappingSucc t.tick = t.tick + 1
  rw [wrappingSucc, Nat.mod_eq_of_lt (by omega)]

theorem Agrees.stamp (h : Agrees root t) (hroom : Room t) : Agrees root t.stamp where
  numbers := h.numbers
  evictable := h.evictable
  used n r hr := by
    rw [tick_stamp hroom]
    exact Nat.le_succ_of_le (h.used n r hr)
  below := h.below
  next_le := by
    rw [tick_stamp hroom]
    exact Nat.le_succ_of_le h.next_le
  root := h.root
  count := h.count

def Unstamped (t : InodeTable) : Prop :=
  ∀ (m : Nat) (q : Record), t.records[m]? = some q → q.used < t.tick

theorem Agrees.unstamped (h : Agrees root t) (hroom : Room t) : Unstamped t.stamp := by
  intro m q hq
  rw [tick_stamp hroom]
  exact Nat.lt_succ_of_le (h.used m q hq)

theorem Agrees.fresh (h : Agrees root t) : t.records[t.next]? = none := by
  cases hr : t.records[t.next]? with
  | none => rfl
  | some r => exact absurd (h.below _ r hr) (Nat.lt_irrefl _)

theorem Agrees.add (h : Agrees root t) (hstamp : Unstamped t) (hnext : t.next + 1 < 2 ^ 64)
    (hle : t.next + 1 ≤ t.tick + 2) (hfree : t.numbers path = none) :
    Agrees root (t.add path kind) := by
  have hsucc : saturatingSucc t.next = t.next + 1 := by
    rw [saturatingSucc, Nat.min_eq_left (by omega)]
  have hget : ∀ m : Nat, (t.add path kind).records[m]? =
      if m = t.next then some ⟨path, kind, 0, t.tick⟩ else t.records[m]? :=
    fun m => Table.getElem?_insert ..
  have hqueue : ∀ u : Nat, (t.add path kind).evictable[u]? =
      if u = t.tick then some t.next else t.evictable[u]? := fun u => Table.getElem?_insert ..
  have hunqueued : t.evictable[t.tick]? = none := by
    cases hu : t.evictable[t.tick]? with
    | none => rfl
    | some m =>
      obtain ⟨q, hq, -, hused⟩ := (h.evictable _ m).mp hu
      exact absurd (hstamp m q hq) (by omega)
  constructor
  · intro m p
    show Function.update t.numbers path (some t.next) p = some m ↔ _
    rw [hget, Function.update_apply]
    by_cases hp : p = path
    · rw [if_pos hp]
      constructor
      · rintro ⟨⟩
        exact ⟨_, if_pos rfl, hp.symm⟩
      · rintro ⟨q, hq, hqpath⟩
        by_cases hm : m = t.next
        · rw [hm]
        · rw [if_neg hm] at hq
          have hsome := (h.numbers m path).mpr ⟨q, hq, hqpath.trans hp⟩
          rw [hfree] at hsome
          cases hsome
    · rw [if_neg hp, h.numbers]
      by_cases hm : m = t.next
      · rw [if_pos hm, hm, h.fresh]
        simp only [reduceCtorEq, false_and, exists_false, Option.some.injEq,
          exists_eq_left', false_iff]
        exact fun heq => hp heq.symm
      · rw [if_neg hm]
  · intro u m
    rw [hqueue, hget]
    by_cases hm : m = t.next
    · rw [if_pos hm, hm]
      have hnone : t.evictable[u]? ≠ some t.next := by
        intro hsome
        obtain ⟨q, hq, -⟩ := (h.evictable u _).mp hsome
        rw [h.fresh] at hq
        cases hq
      by_cases hu : u = t.tick
      · simp [hu]
      · rw [if_neg hu]
        simp only [hnone, Option.some.injEq, exists_eq_left', true_and, false_iff]
        exact fun heq => hu heq.symm
    · rw [if_neg hm, ← h.evictable]
      by_cases hu : u = t.tick
      · rw [if_pos hu, hu, hunqueued]
        simp only [Option.some.injEq, reduceCtorEq, iff_false]
        exact fun heq => hm heq.symm
      · rw [if_neg hu]
  · intro m q hq
    rw [hget] at hq
    split at hq
    · rw [← Option.some.inj hq]
      exact Nat.le_refl _
    · exact h.used m q hq
  · intro m q hq
    show m < saturatingSucc t.next
    rw [hget] at hq
    rw [hsucc]
    split at hq
    next hm => omega
    next => exact Nat.lt_succ_of_lt (h.below m q hq)
  · show saturatingSucc t.next ≤ t.tick + 2
    rwa [hsucc]
  · obtain ⟨q, hq, hpath, hlookups⟩ := h.root
    refine ⟨q, ?_, hpath, hlookups⟩
    rw [hget, if_neg (h.below _ q hq).ne, hq]
  · show (t.records.insert t.next _).size = Table.sum _ (t.records.insert t.next _) +
      (t.evictable.insert t.tick t.next).size
    rw [Table.size_insert_of_none h.fresh, Table.sum_insert h.fresh,
      Table.size_insert_of_none hunqueued]
    have hcount := h.count
    unfold referenced at hcount
    rw [Record.toNat_referenced_of_zero rfl]
    omega

def without (t : InodeTable) (n : Nat) (r : Record) : InodeTable :=
  { t with
    records := t.records.erase n
    numbers := Function.update t.numbers r.path none
    evictable := t.evictable.erase r.used }

theorem Agrees.dropRecord_eq (h : Agrees root t) (hqueued : t.evictable[u]? = some n) :
    ∃ r : Record, t.records[n]? = some r ∧ r.lookups = 0 ∧ r.used = u ∧
      t.dropRecord u n = t.without n r := by
  obtain ⟨r, hr, hlookups, hused⟩ := (h.evictable u n).mp hqueued
  have hnumber : t.numbers r.path = some n := (h.numbers n _).mpr ⟨r, hr, rfl⟩
  refine ⟨r, hr, hlookups, hused, ?_⟩
  simp only [dropRecord, hr, hnumber, if_pos, without, hused]

theorem referenced_without (hr : t.records[n]? = some r) (hlookups : r.lookups = 0) :
    (t.without n r).referenced = t.referenced := by
  have hsum := Table.sum_erase (f := fun (_ : Nat) (r : Record) => r.referenced.toNat) hr
  simp only [Record.toNat_referenced_of_zero hlookups, Nat.zero_add] at hsum
  exact hsum.symm

theorem getElem?_without : (t.without n r).records[m]? = if m = n then none else t.records[m]? :=
  Table.getElem?_erase ..

theorem Agrees.without (h : Agrees root t) (hr : t.records[n]? = some r)
    (hlookups : r.lookups = 0) :
    Agrees root (t.without n r) := by
  have hqueued := h.queued hr hlookups
  have hqueue : ∀ u : Nat, (t.without n r).evictable[u]? =
      if u = r.used then none else t.evictable[u]? := fun u => Table.getElem?_erase ..
  constructor
  · intro m p
    show Function.update t.numbers r.path none p = some m ↔ _
    rw [getElem?_without, Function.update_apply]
    by_cases hp : p = r.path
    · rw [if_pos hp]
      simp only [reduceCtorEq, false_iff, not_exists, not_and]
      intro q hq hqpath
      split at hq
      next => cases hq
      next hm =>
        have hone := (h.numbers m p).mpr ⟨q, hq, hqpath⟩
        rw [hp, (h.numbers n r.path).mpr ⟨r, hr, rfl⟩] at hone
        exact hm (Option.some.inj hone).symm
    · rw [if_neg hp, h.numbers]
      by_cases hm : m = n
      · rw [if_pos hm, hm, hr]
        simp only [Option.some.injEq, exists_eq_left', reduceCtorEq, false_and,
          exists_false, iff_false]
        exact fun heq => hp heq.symm
      · rw [if_neg hm]
  · intro u m
    rw [hqueue, getElem?_without]
    by_cases hm : m = n
    · rw [if_pos hm, hm]
      simp only [reduceCtorEq, false_and, exists_false, iff_false]
      split
      · exact nofun
      next hu =>
        intro hsome
        obtain ⟨q, hq, -, hused⟩ := (h.evictable u n).mp hsome
        exact hu (hused ▸ congrArg Record.used (Option.some.inj (hq.symm.trans hr)))
    · rw [if_neg hm, ← h.evictable]
      split
      next hu =>
        rw [hu, hqueued]
        simp only [reduceCtorEq, Option.some.injEq, false_iff]
        exact fun heq => hm heq.symm
      next => rfl
  · intro m q hq
    rw [getElem?_without] at hq
    split at hq
    next => cases hq
    next => exact h.used m q hq
  · intro m q hq
    rw [getElem?_without] at hq
    split at hq
    next => cases hq
    next => exact h.below m q hq
  · exact h.next_le
  · obtain ⟨q, hq, hpath, hne⟩ := h.root
    refine ⟨q, ?_, hpath, hne⟩
    rw [getElem?_without, if_neg, hq]
    rintro rfl
    rw [hr] at hq
    exact hne (Option.some.inj hq ▸ hlookups)
  · rw [referenced_without hr hlookups]
    have hsize := Table.size_erase_of_some hr
    have hqsize := Table.size_erase_of_some hqueued
    have hcount := h.count
    show (t.records.erase n).size = t.referenced + (t.evictable.erase r.used).size
    omega

structure Evicted (max : Nat) (t t' : InodeTable) : Prop where
  was : ∀ (n : Nat) (r : Record), t'.records[n]? = some r → t.records[n]? = some r
  kept : ∀ (n : Nat) (r : Record), t.records[n]? = some r → r.lookups ≠ 0 → t'.records[n]? = some r
  newest : t.referenced < max → ∀ (n : Nat) (r : Record), t.records[n]? = some r →
    (∀ (m : Nat) (q : Record), t.records[m]? = some q → q.used ≤ r.used) → t'.records[n]? = some r
  tick : t'.tick = t.tick
  next : t'.next = t.next
  referenced : t'.referenced = t.referenced
  within : t'.records.size ≤ max ∨ t'.records.size = t'.referenced

theorem size_le_one_of_first {e : Table Nat Nat} (hfirst : e.first = some (u, n))
    (hlast : ∀ v m : Nat, e[v]? = some m → v ≤ u) : e.size = 1 := by
  obtain ⟨hget, hleast⟩ := Table.first_eq_some hfirst
  have hnone : e.erase u = ∅ := by
    apply Std.ExtTreeMap.ext_getElem?
    intro v
    rw [Table.getElem?_erase]
    split
    · rfl
    next hne =>
      cases hv : e[v]? with
      | none => rfl
      | some m =>
        have hle := Nat.isLE_compare.mp (hleast v m hv)
        exact absurd (Nat.le_antisymm (hlast v m hv) hle) hne
  rw [Table.size_erase_of_some hget, hnone]
  rfl

/-- Eviction keeps what the kernel references, and what was used last unless the kernel alone fills
the table. -/
theorem Agrees.evict (h : Agrees root t) (max : Nat) :
    Agrees root (t.evict max) ∧ Evicted max t (t.evict max) := by
  induction hsize : t.evictable.size using Nat.strong_induction_on generalizing t with
  | _ size ih =>
    rw [InodeTable.evict]
    split
    next hover =>
      split
      next hnone =>
        have hempty := Table.first_eq_none hnone
        have hcount := h.count
        rw [hempty] at hcount
        exact ⟨h, fun _ _ hr => hr, fun _ _ hr _ => hr, fun _ _ _ hr _ => hr, rfl, rfl,
          rfl, .inr hcount⟩
      next oldest victim hfirst =>
        obtain ⟨hqueued, hleast⟩ := Table.first_eq_some hfirst
        obtain ⟨r, hr, hlookups, hused, heq⟩ := h.dropRecord_eq hqueued
        have hless := Table.size_erase_of_some (h.queued hr hlookups)
        have hlater : (t.without victim r).evictable.size < size := by
          show (t.evictable.erase r.used).size < size
          omega
        rw [heq]
        obtain ⟨hagrees, hevicted⟩ := ih _ hlater (h.without hr hlookups) rfl
        refine ⟨hagrees, ⟨fun n q hq => ?_, fun n q hq hne => ?_, fun hroom n q hq hlast => ?_,
          hevicted.tick, hevicted.next, hevicted.referenced.trans (referenced_without hr hlookups),
          hevicted.within⟩⟩
        · have hwas := hevicted.was n q hq
          rw [getElem?_without] at hwas
          split at hwas
          · cases hwas
          · exact hwas
        · apply hevicted.kept n q _ hne
          rw [getElem?_without, if_neg, hq]
          rintro rfl
          exact hne (Option.some.inj (hr.symm.trans hq) ▸ hlookups)
        · have hother : n ≠ victim := by
            rintro rfl
            obtain rfl := Option.some.inj (hr.symm.trans hq)
            have hone := size_le_one_of_first hfirst fun v m hv => by
              obtain ⟨p, hp, -, hpused⟩ := (h.evictable v m).mp hv
              have hle := hlast m p hp
              omega
            have hcount := h.count
            omega
          apply hevicted.newest
          · rwa [referenced_without hr hlookups]
          · rw [getElem?_without, if_neg hother, hq]
          · intro m p hp
            rw [getElem?_without] at hp
            split at hp
            · cases hp
            · exact hlast m p hp
    next hfits =>
      exact ⟨h, fun _ _ hr => hr, fun _ _ hr _ => hr, fun _ _ _ hr _ => hr, rfl, rfl, rfl,
        .inl (Nat.le_of_not_lt hfits)⟩

end Dctl.Mount.InodeTable
