import Dctl.Check.Merged

/-! The sides that `check` opens: when their keys ascend, and what the comparison then promises. -/

namespace Dctl.Check

open Cli Cli.Paths Index ProofKit List

variable {comparison : Comparison} {oneWay : Bool} {root full rest path : Path}
  {side source dest : Side}
  {store : Store} {a b : Path × Stored}

theorem trimEnd_trimEnd (path : Path) : trimEnd (trimEnd path) = trimEnd path :=
  rdropWhile_idempotent _ _

theorem keyFor_of_nil (h : trimEnd root = []) : keyFor full root = full := by
  rw [keyFor]
  exact if_pos (.inl h)

theorem keyFor_root (h : trimEnd root ≠ []) :
    keyFor (trimEnd root) root = fileName (trimEnd root) := by
  have hunder : isUnder (trimEnd root) (trimEnd root) = true :=
    (isUnder_iff h).mpr (.inl (trimEnd_trimEnd root).symm)
  rw [keyFor, if_neg (by simp [h, hunder]), if_pos rfl]

theorem keyFor_below (h : trimEnd root ≠ []) :
    keyFor (trimEnd root ++ separator :: rest) root = rest := by
  have hunder : isUnder (trimEnd root) (trimEnd root ++ separator :: rest) = true :=
    (isUnder_iff h).mpr (.inr ⟨rest, by rw [trimEnd_trimEnd]⟩)
  rw [keyFor, if_neg (by simp [h, hunder]), if_neg (by simp), drop_length_add_append]
  rfl

def Side.kept (side : Side) : List (Path × Stored) :=
  side.entries.filter fun entry => side.filter side.root entry.1 entry.2

/-- Where the filters keep an object at the root itself, its name comes before the key of every
other object. -/
def Side.Separate (side : Side) : Prop :=
  trimEnd side.root ≠ [] → trimEnd side.root ∈ side.kept.map Prod.fst → ∀ rest,
    trimEnd side.root ++ separator :: rest ∈ side.kept.map Prod.fst →
      fileName (trimEnd side.root) < rest

/-- The side has been opened: a store, its root and its filter. -/
def Side.Opened (side : Side) : Prop := ∃ store, side = .opened store side.root side.filter

theorem mem_enumerate {entry : Path × Stored} :
    entry ∈ store.enumerate root ↔ entry ∈ store.items ∧ listed root entry.1 = true := by
  rw [Store.enumerate, mem_insertionSort, mem_filter]

theorem pairwise_enumerate (store : Store) (root : Path) :
    (store.enumerate root).Pairwise fun a b => a.1 < b.1 := by
  have hle : (store.enumerate root).Pairwise fun a b => a.1 ≤ b.1 := pairwise_insertionSort _ _
  have hne : (store.enumerate root).Pairwise fun a b => a.1 ≠ b.1 := by
    have hperm := perm_insertionSort (fun a b : Path × Stored => a.1 ≤ b.1)
      (store.items.filter fun item => listed root item.1)
    have hdistinct :=
      store.distinct.sublist ((filter_sublist (p := fun item => listed root item.1)).map _)
    exact pairwise_map.mp ((hperm.map Prod.fst).nodup_iff.mpr hdistinct)
  exact (hle.and hne).imp fun h => lt_of_le_of_ne h.1 h.2

theorem append_lt_append_iff (front a b : Path) : front ++ a < front ++ b ↔ a < b := by
  have hmono : StrictMono (front ++ · : Path → Path) := fun _ _ h => append_left_lt h
  exact hmono.lt_iff_lt

theorem lt_append_cons (front : Path) (c : Char) (rest : Path) : front < front ++ c :: rest := by
  have h := (append_lt_append_iff front [] (c :: rest)).mpr (nil_lt_cons c rest)
  rwa [append_nil] at h

theorem Side.Opened.mem_kept (h : side.Opened) (hroot : trimEnd side.root ≠ [])
    {entry : Path × Stored} (hmem : entry ∈ side.kept) :
    entry.1 = trimEnd side.root ∨ ∃ rest, entry.1 = trimEnd side.root ++ separator :: rest := by
  obtain ⟨store, hside⟩ := h
  have hentry : entry ∈ store.enumerate side.root := by
    have hentries := (mem_filter.mp hmem).1
    rwa [hside] at hentries
  have hlisted := (mem_enumerate.mp hentry).2
  rw [listed, Bool.and_eq_true] at hlisted
  refine (isUnder_iff ?_).mp hlisted.2
  intro hnil
  exact hroot (by rw [hnil]; rfl)

theorem Side.Opened.pairwise_kept (h : side.Opened) : side.kept.Pairwise fun a b => a.1 < b.1 := by
  obtain ⟨store, hside⟩ := h
  have hentries : side.entries.Pairwise fun a b => a.1 < b.1 := by
    rw [hside]
    exact pairwise_enumerate store side.root
  exact hentries.sublist filter_sublist

theorem pairwise_founds : (side.founds.Pairwise fun a b => a.key < b.key) ↔
    side.kept.Pairwise fun a b => keyFor a.1 side.root < keyFor b.1 side.root := pairwise_map

theorem Side.Separate.keyFor_lt (h : side.Separate) (hopened : side.Opened) (ha : a ∈ side.kept)
    (hb : b ∈ side.kept) (hlt : a.1 < b.1) : keyFor a.1 side.root < keyFor b.1 side.root := by
  by_cases hroot : trimEnd side.root = []
  · rwa [keyFor_of_nil hroot, keyFor_of_nil hroot]
  · rcases hopened.mem_kept hroot ha with hpath | ⟨rest, hpath⟩ <;>
      rcases hopened.mem_kept hroot hb with hpath' | ⟨rest', hpath'⟩
    · exact absurd hlt (by rw [hpath, hpath']; exact lt_irrefl _)
    · have hname := h hroot (hpath ▸ mem_map_of_mem ha) rest' (hpath' ▸ mem_map_of_mem hb)
      rwa [hpath, hpath', keyFor_root hroot, keyFor_below hroot]
    · rw [hpath, hpath'] at hlt
      exact absurd hlt (lt_append_cons _ _ _).asymm
    · rw [hpath, hpath', append_lt_append_iff, cons_lt_cons_iff] at hlt
      rw [hpath, hpath', keyFor_below hroot, keyFor_below hroot]
      exact (hlt.resolve_left (lt_irrefl _)).2

theorem ascending_founds (h : side.Opened) : Ascending none side.founds ↔ side.Separate := by
  constructor
  · intro hascending hroot hmem rest hbelow
    have hkeys := pairwise_founds.mp hascending.apart
    obtain ⟨a, ha, hpath⟩ := mem_map.mp hmem
    obtain ⟨b, hb, hpath'⟩ := mem_map.mp hbelow
    have hlt : a.1 < b.1 := by
      rw [hpath, hpath']
      exact lt_append_cons _ _ _
    -- Of the two, the one with the smaller path is reported first.
    have hfirst : side.kept.Pairwise fun x y => x.1 < y.1 →
        keyFor x.1 side.root < keyFor y.1 side.root := by
      refine hkeys.imp ?_
      intro x y hkey _
      exact hkey
    have hsecond : side.kept.Pairwise fun x y => y.1 < x.1 →
        keyFor y.1 side.root < keyFor x.1 side.root :=
      h.pairwise_kept.imp fun hxy hyx => absurd hyx hxy.asymm
    have hkey :=
      hfirst.forall_of_forall_of_flip (fun x _ hx => absurd hx (lt_irrefl _)) hsecond ha hb hlt
    rwa [hpath, hpath', keyFor_root hroot, keyFor_below hroot] at hkey
  · intro hseparate
    refine ⟨nofun, pairwise_founds.mpr ?_⟩
    exact h.pairwise_kept.imp_of_mem fun ha hb hlt => hseparate.keyFor_lt h ha hb hlt

/-- A comparison that gives a report lists every path of both sides once, in ascending order and
with the verdict of its halves.  One side out of order makes it fail.  Sides that were opened are
compared. -/
structure Faithful (comparison : Comparison) (oneWay : Bool) (source dest : Side) : Prop where
  reports : ∀ records, run comparison oneWay source dest = .ok records →
    Lists comparison oneWay none source.founds dest.founds records
  refuses : ¬(Ascending none source.founds ∧ Ascending none dest.founds) →
    ∃ e, run comparison oneWay source dest = .error e
  accepts : source.Opened → dest.Opened → ∃ records, run comparison oneWay source dest = .ok records

/-- A comparison is faithful unless a side holds an object at its root and others below with keys
that do not come behind. -/
theorem faithful_iff (comparison : Comparison) (oneWay : Bool) (source dest : Side) :
    Faithful comparison oneWay source dest ↔
      (source.Opened → dest.Opened → source.Separate ∧ dest.Separate) := by
  constructor
  · intro h hsource hdest
    obtain ⟨records, hrecords⟩ := h.accepts hsource hdest
    obtain ⟨hascending, hascending'⟩ := (lists_of_run hrecords).1
    exact ⟨(ascending_founds hsource).mp hascending, (ascending_founds hdest).mp hascending'⟩
  · intro h
    refine ⟨fun records hrecords => (lists_of_run hrecords).2, ?_, ?_⟩
    · intro hdisorder
      cases hrun : run comparison oneWay source dest with
      | error e => exact ⟨e, rfl⟩
      | ok records => exact absurd (lists_of_run hrun).1 hdisorder
    · intro hsource hdest
      obtain ⟨hseparate, hseparate'⟩ := h hsource hdest
      obtain ⟨records, hrecords, -⟩ := @compareFrom_ascending comparison oneWay _ _ _
        ((ascending_founds hsource).mpr hseparate) ((ascending_founds hdest).mpr hseparate')
      exact ⟨records, hrecords⟩

/-- A store with an object and another below it, which every filter keeps. -/
def objectAboveObject : Store where
  items := [("a".toList, .object 1 none []), ("a/0".toList, .object 1 none [])]
  distinct := by decide

theorem objectAboveObject_refused (comparison : Comparison) (oneWay : Bool) (dest : Side) :
    ¬∃ records, run comparison oneWay (.opened objectAboveObject "a".toList fun _ _ _ => true)
      dest =
      .ok records := by
  rintro ⟨records, hrecords⟩
  have hascending := (lists_of_run hrecords).1.1
  have hseparate := (ascending_founds ⟨objectAboveObject, rfl⟩).mp hascending
  have hlt := hseparate (by decide) (by decide) "0".toList (by decide)
  exact absurd hlt (by decide)

/-- So a healthy store is refused for its order. -/
theorem not_faithful_objectAboveObject : ¬Faithful .sizeOnly false
    (.opened objectAboveObject "a".toList fun _ _ _ => true)
    (.opened objectAboveObject "a".toList fun _ _ _ => true) :=
  fun h => objectAboveObject_refused _ _ _
    (h.accepts ⟨objectAboveObject, rfl⟩ ⟨objectAboveObject, rfl⟩)

end Dctl.Check
