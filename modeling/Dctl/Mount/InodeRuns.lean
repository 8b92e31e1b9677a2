import Dctl.Mount.InodeOps
import Dctl.ProofKit.Text

/-! What the mount does with its inode table (`mount/state.rs`), and what holds after any number of
lookups, listings, forgets and resolves. -/

namespace Dctl.Mount

open ProofKit InodeTable Function

variable {root path : String} {kind : Kind} {max n count : Nat} {r : Record} {t t' : InodeTable}

/-- A call that the mount makes of its table, with what it got: a path that is looked up, one that
is listed, references that the kernel drops, and a number that it asks about. -/
inductive Event where
  | lookup (path : String) (kind : Kind) (ino : Nat)
  | intern (path : String) (kind : Kind) (ino : Nat)
  | forget (ino count : Nat)
  | resolve (ino : Nat) (answer : Option (String × Kind))
  deriving DecidableEq, Repr

namespace Event

/-- The number stands for the path, in what the mount was told. -/
def Names : Event → Nat → String → Prop
  | .lookup path _ ino, n, p => ino = n ∧ path = p
  | .intern path _ ino, n, p => ino = n ∧ path = p
  | .resolve ino (some (path, _)), n, p => ino = n ∧ path = p
  | _, _, _ => False

def looked (n : Nat) : Event → Nat
  | .lookup _ _ ino => if ino = n then 1 else 0
  | _ => 0

def forgotten (n : Nat) : Event → Nat
  | .forget ino count => if ino = n then count else 0
  | _ => 0

end Event

/-- One call.  A lookup takes a reference to the number of the path (`MountState::lookup`). -/
inductive Step (max : Nat) (t : InodeTable) : Event → InodeTable → Prop
  | lookup (path : String) (kind : Kind) :
      Step max t (.lookup path kind (t.intern max path kind).1)
        ((t.intern max path kind).2.remember (t.intern max path kind).1)
  | intern (path : String) (kind : Kind) :
      Step max t (.intern path kind (t.intern max path kind).1) (t.intern max path kind).2
  | forget (ino count : Nat) : Step max t (.forget ino count) (t.forget max ino count)
  | resolve (ino : Nat) : Step max t (.resolve ino (t.resolve ino).1) (t.resolve ino).2

/-- Any number of calls, each made of a table that meets the condition. -/
inductive Runs (max : Nat) (root : String) (cond : InodeTable → Event → Prop) :
    List Event → InodeTable → Prop
  | start : Runs max root cond [] (.new root)
  | step {es : List Event} {t t' : InodeTable} {e : Event} :
      Runs max root cond es t → cond t e → Step max t e t' → Runs max root cond (es ++ [e]) t'

variable {es : List Event} {e : Event} {cond : InodeTable → Event → Prop}

def looked (n : Nat) (es : List Event) : Nat := (es.map (Event.looked n)).sum

def forgotten (n : Nat) (es : List Event) : Nat := (es.map (Event.forgotten n)).sum

@[simp] theorem looked_concat : looked n (es ++ [e]) = looked n es + e.looked n := by
  simp [looked]

@[simp] theorem forgotten_concat : forgotten n (es ++ [e]) = forgotten n es + e.forgotten n := by
  simp [forgotten]

/-- The number stood for the path at some time. -/
def Named (es : List Event) (n : Nat) (p : String) : Prop := ∃ e ∈ es, e.Names n p

theorem named_concat {p : String} : Named (es ++ [e]) n p ↔ Named es n p ∨ e.Names n p := by
  simp only [Named, List.mem_append, List.mem_singleton, or_and_right, exists_or, exists_eq_left]

/-- What the mount was told of numbers agrees with the table and with itself. -/
structure Kept (root : String) (es : List Event) (t : InodeTable) : Prop where
  agrees : Agrees root t
  named : ∀ n p, Named es n p → n < t.next ∧ ∀ r : Record, t.records[n]? = some r → r.path = p
  same : ∀ n p p', Named es n p → Named es n p' → p = p'

theorem agrees_new (root : String) : Agrees root (.new root) := by
  have hget : ∀ n : Nat, (InodeTable.new root).records[n]? =
      if n = rootIno then some ⟨root, .directory, 1, 0⟩ else none := by
    intro n
    refine (Table.getElem?_insert ..).trans ?_
    rw [Std.ExtTreeMap.getElem?_empty]
  constructor
  · intro n p
    show update (fun _ => none) root (some rootIno) p = some n ↔ _
    rw [hget, update_apply]
    by_cases hp : p = root
    · rw [if_pos hp]
      constructor
      · rintro ⟨⟩
        exact ⟨_, if_pos rfl, hp.symm⟩
      · rintro ⟨q, hq, -⟩
        split at hq
        next hn => rw [hn]
        next => cases hq
    · rw [if_neg hp]
      simp only [reduceCtorEq, false_iff, not_exists, not_and]
      intro q hq hpath
      split at hq
      next => exact hp (hpath.symm.trans (Option.some.inj hq ▸ rfl))
      next => cases hq
  · intro u n
    show (∅ : Table Nat Nat)[u]? = some n ↔ _
    rw [Std.ExtTreeMap.getElem?_empty, hget]
    simp only [reduceCtorEq, false_iff, not_exists, not_and]
    intro q hq hzero
    split at hq
    next => exact absurd hzero (Option.some.inj hq ▸ Nat.one_ne_zero)
    next => cases hq
  · intro n q hq
    rw [hget] at hq
    split at hq
    next => exact Option.some.inj hq ▸ Nat.le_refl 0
    next => cases hq
  · intro n q hq
    rw [hget] at hq
    split at hq
    next hn =>
      rw [hn]
      show rootIno < saturatingSucc rootIno
      decide
    next => cases hq
  · show saturatingSucc rootIno ≤ 0 + 2
    decide
  · exact ⟨_, (hget rootIno).trans (if_pos rfl), rfl, Nat.one_ne_zero⟩
  · show ((∅ : Table Nat Record).insert rootIno ⟨root, .directory, 1, 0⟩).size =
      Table.sum _ ((∅ : Table Nat Record).insert rootIno ⟨root, .directory, 1, 0⟩) +
        (∅ : Table Nat Nat).size
    have hnone : (∅ : Table Nat Record)[rootIno]? = none := Std.ExtTreeMap.getElem?_empty
    rw [Table.size_insert_of_none hnone, Table.sum_insert hnone]
    rfl

/-- What one call does: the numbers that stood for paths still do, and the number of the call stands
for its path. -/
theorem Step.follows (h : Step max t e t') (hagrees : Agrees root t) (hroom : Room t) :
    Agrees root t' ∧ Follows t t' ∧ ∀ n p, e.Names n p → n < t'.next ∧
      (∀ r : Record, t'.records[n]? = some r → r.path = p) ∧
      (t.next ≤ n ∨ ∃ r : Record, t.records[n]? = some r ∧ r.path = p) := by
  cases h with
  | lookup path kind =>
    obtain ⟨hfollows, -, -, hlt, hpath, hnew⟩ := hagrees.intern_spec hroom max path kind
    have hinterned : Agrees root (t.intern max path kind).2 := hagrees.intern hroom
    cases hr : (t.intern max path kind).2.records[(t.intern max path kind).1]? with
    | none =>
      rw [remember_of_none hr]
      refine ⟨hinterned, hfollows, ?_⟩
      rintro _ _ ⟨rfl, rfl⟩
      exact ⟨hlt, hpath, hnew⟩
    | some r =>
      rw [remember_of_some hr]
      refine ⟨remember_of_some hr ▸ hinterned.remember, hfollows.trans (follows_replace hr rfl), ?_⟩
      rintro _ _ ⟨rfl, rfl⟩
      refine ⟨hlt, fun q hq => ?_, hnew⟩
      rw [getElem?_replace, if_pos rfl] at hq
      exact Option.some.inj hq ▸ hpath r hr
  | intern path kind =>
    obtain ⟨hfollows, -, -, hlt, hpath, hnew⟩ := hagrees.intern_spec hroom max path kind
    refine ⟨hagrees.intern hroom, hfollows, ?_⟩
    rintro _ _ ⟨rfl, rfl⟩
    exact ⟨hlt, hpath, hnew⟩
  | forget ino count =>
    refine ⟨hagrees.forget hroom, ?_, fun _ _ hname => hname.elim⟩
    by_cases hino : ino = rootIno
    · rw [InodeTable.forget, if_pos hino]
      exact .refl t
    · exact (hagrees.forget_spec hroom max count hino).1
  | resolve ino =>
    refine ⟨hagrees.resolve hroom, ?_⟩
    cases hr : t.records[ino]? with
    | none =>
      rw [resolve_of_none hr]
      exact ⟨follows_stamp, fun _ _ hname => hname.elim⟩
    | some r =>
      have hr' : t.stamp.records[ino]? = some r := hr
      rw [resolve_of_some hr]
      refine ⟨follows_stamp.trans (follows_replace hr' rfl), ?_⟩
      rintro _ _ ⟨rfl, rfl⟩
      refine ⟨hagrees.below _ r hr, fun q hq => ?_, .inr ⟨r, hr, rfl⟩⟩
      rw [getElem?_replace, if_pos rfl] at hq
      rw [← Option.some.inj hq]

theorem Kept.step (h : Kept root es t) (hroom : Room t) (hstep : Step max t e t') :
    Kept root (es ++ [e]) t' := by
  obtain ⟨hagrees, hfollows, hnames⟩ := hstep.follows h.agrees hroom
  refine ⟨hagrees, fun n p hn => ?_, fun n p p' hn hn' => ?_⟩
  · rcases named_concat.mp hn with hold | hnew
    · obtain ⟨hlt, hpath⟩ := h.named n p hold
      refine ⟨Nat.lt_of_lt_of_le hlt hfollows.next_le, fun r hr => ?_⟩
      obtain ⟨q, hq, hsame⟩ := hfollows.path n r hr hlt
      exact hsame.trans (hpath q hq)
    · exact ⟨(hnames n p hnew).1, (hnames n p hnew).2.1⟩
  · have hmixed : ∀ p p', Named es n p → e.Names n p' → p = p' := by
      intro p p' hold hnew
      obtain ⟨hlt, hpath⟩ := h.named n p hold
      rcases (hnames n p' hnew).2.2 with hnext | ⟨r, hr, hrpath⟩
      · omega
      · exact (hpath r hr).symm.trans hrpath
    rcases named_concat.mp hn with hold | hnew
    · rcases named_concat.mp hn' with hold' | hnew'
      · exact h.same n p p' hold hold'
      · exact hmixed p p' hold hnew'
    · rcases named_concat.mp hn' with hold' | hnew'
      · exact (hmixed p' p hold' hnew).symm
      · cases e with
        | lookup => exact hnew.2.symm.trans hnew'.2
        | intern => exact hnew.2.symm.trans hnew'.2
        | forget => exact hnew.elim
        | resolve ino answer =>
          cases answer with
          | none => exact hnew.elim
          | some => exact hnew.2.symm.trans hnew'.2

theorem Runs.kept (h : Runs max root cond es t) (hcond : ∀ t e, cond t e → Room t) :
    Kept root es t := by
  induction h with
  | start => exact ⟨agrees_new root, nofun, nofun⟩
  | step _ hroom hstep ih => exact ih.step (hcond _ _ hroom) hstep

/-- A path that is looked up has a record, or the kernel leaves room for one. -/
def Placed (max : Nat) (t : InodeTable) : Event → Prop
  | .lookup path _ _ => t.numbers path ≠ none ∨ t.referenced < max
  | _ => True

/-- What the kernel still references is referenced in the table as often. -/
structure Owes (es : List Event) (t : InodeTable) : Prop where
  looked_le : ∀ n, looked n es ≤ t.tick
  owed : ∀ n, n ≠ rootIno → looked n es ≤ forgotten n es ∨
    ∃ r : Record, t.records[n]? = some r ∧ looked n es ≤ forgotten n es + r.lookups

theorem Owes.other (h : Owes es t) (hn : n ≠ rootIno)
    (hholds : ∀ r : Record, t.records[n]? = some r → r.lookups ≠ 0 →
      ∃ r' : Record, t'.records[n]? = some r' ∧ r'.lookups = r.lookups) :
    looked n es ≤ forgotten n es ∨
      ∃ r : Record, t'.records[n]? = some r ∧ looked n es ≤ forgotten n es + r.lookups := by
  rcases h.owed n hn with hle | ⟨r, hr, hle⟩
  · exact .inl hle
  · by_cases hzero : r.lookups = 0
    · exact .inl (by omega)
    · obtain ⟨r', hr', hsame⟩ := hholds r hr hzero
      exact .inr ⟨r', hr', by omega⟩

theorem Owes.step (h : Owes es t) (hagrees : Agrees root t) (hroom : Room t)
    (hplaced : Placed max t e) (hstep : Step max t e t') : Owes (es ++ [e]) t' := by
  cases hstep with
  | lookup path kind =>
    obtain ⟨-, hholds, htick, -⟩ := hagrees.intern_spec hroom max path kind
    obtain ⟨r, hr⟩ := hagrees.intern_present hroom kind hplaced
    rw [remember_of_some hr]
    have hle := h.looked_le
    have hlooked : ∀ n, (Event.lookup path kind (t.intern max path kind).1).looked n ≤ 1 := by
      intro n
      unfold Event.looked
      dsimp only
      split <;> omega
    constructor
    · intro n
      have hone := hlooked n
      have hold := hle n
      show looked n (es ++ [_]) ≤ (t.intern max path kind).2.tick
      rw [looked_concat, htick]
      omega
    · intro n hn
      have hkept := h.other hn (hholds n)
      rw [looked_concat, forgotten_concat]
      by_cases hsame : n = (t.intern max path kind).1
      · refine .inr ⟨_, by rw [getElem?_replace, if_pos hsame], ?_⟩
        have hroom' : t.tick + 3 < 2 ^ 64 := hroom
        have hold := hle n
        have hone := hlooked n
        have hrle : looked n es ≤ forgotten n es + r.lookups := by
          rcases hkept with hle | ⟨q, hq, hle⟩
          · omega
          · rw [hsame, hr] at hq
            rwa [← Option.some.inj hq] at hle
        show _ ≤ _ + saturatingSucc r.lookups
        unfold saturatingSucc
        simp only [Event.forgotten]
        omega
      · have hzero : (Event.lookup path kind (t.intern max path kind).1).looked n = 0 := by
          simp only [Event.looked]
          exact if_neg fun heq => hsame heq.symm
        rw [hzero, getElem?_replace, if_neg hsame]
        exact hkept
  | intern path kind =>
    obtain ⟨-, hholds, htick, -⟩ := hagrees.intern_spec hroom max path kind
    refine ⟨fun n => ?_, fun n hn => ?_⟩
    · rw [looked_concat, htick]
      exact Nat.le_succ_of_le (h.looked_le n)
    · rw [looked_concat, forgotten_concat]
      exact h.other hn (hholds n)
  | forget ino count =>
    by_cases hino : ino = rootIno
    · rw [InodeTable.forget, if_pos hino]
      refine ⟨fun n => ?_, fun n hn => ?_⟩
      · rw [looked_concat]
        exact h.looked_le n
      · have hzero : (Event.forget ino count).forgotten n = 0 :=
          if_neg fun heq => hn (heq.symm.trans hino)
        rw [looked_concat, forgotten_concat, hzero]
        exact h.owed n hn
    · obtain ⟨-, htick, hothers, hone⟩ := hagrees.forget_spec hroom max count hino
      refine ⟨fun n => ?_, fun n hn => ?_⟩
      · rw [looked_concat, htick]
        exact Nat.le_succ_of_le (h.looked_le n)
      · rw [looked_concat, forgotten_concat]
        by_cases hsame : n = ino
        · have hcount : (Event.forget ino count).forgotten n = count := if_pos hsame.symm
          have hnone : (Event.forget ino count).looked n = 0 := rfl
          rw [hcount, hnone, Nat.add_zero]
          rcases h.owed n hn with hle | ⟨r, hr, hle⟩
          · exact .inl (by omega)
          · by_cases hzero : r.lookups - count = 0
            · exact .inl (by omega)
            · obtain ⟨r', hr', hlookups⟩ := hone r (hsame ▸ hr) hzero
              exact .inr ⟨r', hsame ▸ hr', by omega⟩
        · have hzero : (Event.forget ino count).forgotten n = 0 := if_neg fun heq => hsame heq.symm
          rw [hzero]
          exact h.other hn fun r hr hne => hothers n r hsame hr hne
  | resolve ino =>
    have hholds : Holds t (t.resolve ino).2 ∧ (t.resolve ino).2.tick = t.tick + 1 := by
      cases hr : t.records[ino]? with
      | none =>
        rw [resolve_of_none hr]
        exact ⟨holds_stamp, tick_stamp hroom⟩
      | some r =>
        have hr' : t.stamp.records[ino]? = some r := hr
        rw [resolve_of_some hr]
        exact ⟨holds_stamp.trans (holds_replace hr' rfl), tick_stamp hroom⟩
    refine ⟨fun n => ?_, fun n hn => ?_⟩
    · rw [looked_concat, hholds.2]
      exact Nat.le_succ_of_le (h.looked_le n)
    · rw [looked_concat, forgotten_concat]
      exact h.other hn (hholds.1 n)

theorem Runs.owes (h : Runs max root cond es t) (hcond : ∀ t e, cond t e →
    Room t ∧ Placed max t e) :
    Owes es t := by
  induction h with
  | start => exact ⟨fun _ => Nat.le_refl _, fun _ _ => .inl (Nat.le_refl _)⟩
  | step hrun hmet hstep ih =>
    obtain ⟨hroom, hplaced⟩ := hcond _ _ hmet
    exact ih.step (hrun.kept fun t e h => (hcond t e h).1).agrees hroom hplaced hstep

/-- Numbers and paths correspond one to one, no number stood for two paths, the evictable index
holds exactly the unreferenced records, none of which is the root's, and the root is always there.
-/
structure Sound (root : String) (es : List Event) (t : InodeTable) : Prop where
  inverse : ∀ n p, t.numbers p = some n ↔ ∃ r : Record, t.records[n]? = some r ∧ r.path = p
  same : ∀ n p p', Named es n p → Named es n p' → p = p'
  stands : ∀ n p, Named es n p → ∀ r : Record, t.records[n]? = some r → r.path = p
  queue : ∀ n : Nat, (∃ u : Nat, t.evictable[u]? = some n) ↔
    n ≠ rootIno ∧ ∃ r : Record, t.records[n]? = some r ∧ r.lookups = 0
  once : ∀ u u' n : Nat, t.evictable[u]? = some n → t.evictable[u']? = some n → u = u'
  top : (t.resolve rootIno).1.map (·.1) = some root

/-- The number of a path that was looked up resolves to the path, until the kernel has forgotten it
as often. -/
def Resolves (es : List Event) (t : InodeTable) : Prop :=
  ∀ path kind n, .lookup path kind n ∈ es → forgotten n es < looked n es →
    (t.resolve n).1.map (·.1) = some path

theorem Kept.sound (h : Kept root es t) : Sound root es t where
  inverse := h.agrees.numbers
  same := h.same
  stands n p hn := (h.named n p hn).2
  queue n := by
    constructor
    · rintro ⟨u, hu⟩
      obtain ⟨r, hr, hzero, -⟩ := (h.agrees.evictable u n).mp hu
      refine ⟨?_, r, hr, hzero⟩
      rintro rfl
      obtain ⟨q, hq, -, hne⟩ := h.agrees.root
      exact hne (Option.some.inj (hr.symm.trans hq) ▸ hzero)
    · rintro ⟨-, r, hr, hzero⟩
      exact ⟨r.used, h.agrees.queued hr hzero⟩
  once u u' n hu hu' := by
    obtain ⟨r, hr, -, rfl⟩ := (h.agrees.evictable u n).mp hu
    obtain ⟨q, hq, -, rfl⟩ := (h.agrees.evictable u' n).mp hu'
    rw [Option.some.inj (hr.symm.trans hq)]
  top := by
    obtain ⟨r, hr, hpath, -⟩ := h.agrees.root
    rw [resolve_of_some hr, ← hpath]
    rfl

theorem Kept.resolves (h : Kept root es t) (howes : Owes es t) : Resolves es t := by
  intro path kind n hmem hless
  have hnamed : Named es n path := ⟨_, hmem, rfl, rfl⟩
  have hpresent : ∃ r : Record, t.records[n]? = some r := by
    by_cases hn : n = rootIno
    · obtain ⟨r, hr, -⟩ := h.agrees.root
      exact ⟨r, hn ▸ hr⟩
    · rcases howes.owed n hn with hle | ⟨r, hr, -⟩
      · omega
      · exact ⟨r, hr⟩
  obtain ⟨r, hr⟩ := hpresent
  rw [resolve_of_some hr, ← (h.named n path hnamed).2 r hr]
  rfl

theorem Step.resolves_iff (hagrees : Agrees root t) (hroom : Room t)
    (h : Step max t (.lookup path kind n) t') :
    (t'.resolve n).1 ≠ none ↔ Placed max t (.lookup path kind n) := by
  cases h with
  | lookup =>
    constructor
    · intro hresolves
      by_contra hplaced
      obtain ⟨hfree, hfull⟩ := not_or.mp hplaced
      have habsent : (t.intern max path kind).2.records[(t.intern max path kind).1]? = none :=
        hagrees.intern_absent hroom (not_not.mp hfree) (Nat.le_of_not_lt hfull)
      apply hresolves
      rw [remember_of_none habsent, resolve_of_none habsent]
    · intro hplaced
      obtain ⟨r, hr⟩ := hagrees.intern_present hroom kind hplaced
      rw [remember_of_some hr, resolve_of_some (getElem?_replace.trans (if_pos rfl))]
      exact Option.some_ne_none _

/-- In every run that does not exhaust the counters the maps agree and no number changes its path.
Where each new path is looked up while the kernel references fewer records than the table keeps, a
number also resolves for as long as the kernel holds it, and a lookup made otherwise returns a
number that resolves to nothing. -/
theorem inodes_stand (h : Runs max root (fun t _ => Room t) es t) :
    Sound root es t ∧
      (Runs max root (fun t e => Room t ∧ Placed max t e) es t → Resolves es t) ∧
      ∀ path kind n t', Room t → Step max t (.lookup path kind n) t' →
        ((t'.resolve n).1 ≠ none ↔ Placed max t (.lookup path kind n)) := by
  have hkept := h.kept fun _ _ hroom => hroom
  exact ⟨hkept.sound, fun hplaced => hkept.resolves (hplaced.owes fun _ _ hcond => hcond),
    fun _ _ _ _ hroom hstep => hstep.resolves_iff hkept.agrees hroom⟩

/-- In a table for two records a file was looked up, and forgotten. -/
def afterLookup : InodeTable := ((InodeTable.new "").intern 2 "a" .file).2.remember 2

def afterForget : InodeTable := afterLookup.forget 2 2 1

/-- A second file takes the place of the first one. -/
def afterEviction : InodeTable := ((afterForget.stamp.add "b" .file).dropRecord 2 2).remember 3

theorem step_afterLookup : Step 2 (.new "") (.lookup "a" .file 2) afterLookup := by
  have hstep : Step 2 (.new "") _ _ := .lookup "a" .file
  rwa [show ((InodeTable.new "").intern 2 "a" .file).1 = 2 by decide +kernel] at hstep

theorem step_afterEviction : Step 2 afterForget (.lookup "b" .file 3) afterEviction := by
  have hnumber : afterForget.stamp.numbers "b" = none := by decide +kernel
  have hkeys : (afterForget.stamp.add "b" .file).evictable.keys = [2, 3] := by decide +kernel
  have hrow : (afterForget.stamp.add "b" .file).evictable[2]? = some 2 := by decide +kernel
  have hfirst : (afterForget.stamp.add "b" .file).evictable.first = some (2, 2) := by
    rw [Table.first, Std.ExtTreeMap.minKey?_eq_head?_keys, hkeys, List.head?_cons, Option.bind_some,
      hrow]
    rfl
  have hevict : (afterForget.stamp.add "b" .file).evict 2 =
      (afterForget.stamp.add "b" .file).dropRecord 2 2 := by
    rw [InodeTable.evict, if_pos (by decide +kernel)]
    split
    next hnone => cases hnone.symm.trans hfirst
    next oldest victim hsome =>
      cases hsome.symm.trans hfirst
      rw [InodeTable.evict, if_neg (by decide +kernel)]
  have hstep : Step 2 afterForget _ _ := .lookup "b" .file
  simp only [InodeTable.intern, hnumber, InodeTable.allocate, hevict] at hstep
  rwa [show afterForget.stamp.next = 3 by decide +kernel] at hstep

/-- A file is looked up, forgotten and evicted by another one, which resolves. -/
theorem inodes_stand_evicted :
    Sound "" [.lookup "a" .file 2, .forget 2 1, .lookup "b" .file 3] afterEviction ∧
      (afterEviction.resolve 2).1 = none ∧ (afterEviction.resolve 3).1.map (·.1) = some "b" := by
  have hroom : Room (.new "") ∧ Room afterLookup ∧ Room afterForget := by
    unfold Room
    decide +kernel
  have hruns : ∀ {cond}, cond (.new "") (.lookup "a" .file 2) → cond afterLookup (.forget 2 1) →
      cond afterForget (.lookup "b" .file 3) →
      Runs 2 "" cond [.lookup "a" .file 2, .forget 2 1, .lookup "b" .file 3] afterEviction := by
    intro cond h h' h''
    exact .step (.step (.step .start h step_afterLookup) h' (.forget 2 1)) h'' step_afterEviction
  obtain ⟨hsound, hresolves, -⟩ := inodes_stand (hruns hroom.1 hroom.2.1 hroom.2.2)
  have hplaced : Placed 2 (.new "") (.lookup "a" .file 2) ∧
      Placed 2 afterForget (.lookup "b" .file 3) :=
    ⟨.inr (by decide +kernel), .inr (by decide +kernel)⟩
  refine ⟨hsound, by decide +kernel, hresolves (hruns ⟨hroom.1, hplaced.1⟩ ⟨hroom.2.1, trivial⟩
    ⟨hroom.2.2, hplaced.2⟩) _ .file _ (by simp) (by decide)⟩

def nameOf (i : Nat) : String := i.repr

/-- The state after looking up the first `k` files. -/
structure Filled (max k : Nat) (es : List Event) (t : InodeTable) : Prop where
  runs : Runs max "" (fun t _ => Room t) es t
  size : t.records.size = k + 1
  referenced : t.referenced = k + 1
  free : ∀ i, k ≤ i → t.numbers (nameOf i) = none
  tick : t.tick = k
  unforgotten : ∀ n, forgotten n es = 0

theorem filled_zero (max : Nat) : Filled max 0 [] (.new "") where
  runs := .start
  size := by
    show ((∅ : Table Nat Record).insert rootIno _).size = 1
    rw [Table.size_insert_of_none Std.ExtTreeMap.getElem?_empty]
    rfl
  referenced := by
    have hsum : (InodeTable.new "").referenced =
        (⟨"", .directory, 1, 0⟩ : Record).referenced.toNat + Table.sum _ (∅ : Table Nat Record) :=
      Table.sum_insert Std.ExtTreeMap.getElem?_empty
    exact hsum
  free i _ := by
    show update (fun _ => none) "" (some rootIno) (nameOf i) = none
    rw [update_of_ne]
    intro h
    have hlist := congrArg String.toList h
    rw [nameOf, Nat.toList_repr] at hlist
    exact Nat.toDigits_ne_nil hlist
  tick := rfl
  unforgotten _ := rfl

theorem Filled.step {k : Nat} (h : Filled max k es t) (hk : k + 1 < max) (hmax : max < 2 ^ 64 - 3) :
    ∃ es' t', Filled max (k + 1) es' t' := by
  have hroom : Room t := by
    have htick := h.tick
    unfold Room
    omega
  have hkept := h.runs.kept fun _ _ hroom => hroom
  have hfree := h.free k (Nat.le_refl k)
  have hstep : Step max t (.lookup (nameOf k) .file _) _ := .lookup (nameOf k) .file
  have hadded : Agrees "" (t.stamp.add (nameOf k) .file) := hkept.agrees.added hroom hfree
  have hintern : t.intern max (nameOf k) .file = (t.next, t.stamp.add (nameOf k) .file) := by
    rcases hkept.agrees.intern_cases max (nameOf k) .file with ⟨r, hr, hpath, -⟩ | ⟨-, heq⟩
    · rw [(hkept.agrees.numbers _ _).mpr ⟨r, hr, hpath⟩] at hfree
      cases hfree
    · have hfits : ¬max < (t.stamp.add (nameOf k) .file).records.size := by
        show ¬max < (t.records.insert t.next _).size
        rw [Table.size_insert_of_none hkept.agrees.fresh, h.size]
        omega
      rw [heq, InodeTable.evict, if_neg hfits]
  have hget : (t.stamp.add (nameOf k) .file).records[t.next]? =
      some ⟨nameOf k, .file, 0, t.stamp.tick⟩ := getElem?_added
  rw [hintern, remember_of_some hget] at hstep
  refine ⟨_, _, h.runs.step hroom hstep, ?_, ?_, fun i hi => ?_, ?_, fun n => ?_⟩
  · show ((t.stamp.add (nameOf k) .file).records.insert t.next _).size = k + 1 + 1
    rw [Table.size_insert_of_some hget]
    show (t.records.insert t.next _).size = k + 1 + 1
    rw [Table.size_insert_of_none hkept.agrees.fresh, h.size]
  · let seen : Record := ⟨nameOf k, .file, saturatingSucc 0, t.stamp.tick⟩
    have hone : seen.referenced.toNat = 1 := Record.toNat_referenced_of_ne saturatingSucc_ne_zero
    have hsum : ((t.stamp.add (nameOf k) .file).replace t.next ⟨nameOf k, .file, 0, t.stamp.tick⟩
        seen).referenced + 0 = seen.referenced.toNat + (t.stamp.add (nameOf k) .file).referenced :=
      Table.sum_insert_of_some hget
    rw [hone, hkept.agrees.referenced_added, h.referenced, Nat.add_comm 1] at hsum
    exact hsum
  · show update t.numbers (nameOf k) _ (nameOf i) = none
    rw [update_of_ne, h.free i (by omega)]
    intro heq
    have hi' := repr_injective heq
    omega
  · show t.stamp.tick = k + 1
    rw [tick_stamp hroom, h.tick]
  · rw [forgotten_concat, h.unforgotten]
    rfl

theorem exists_filled {k : Nat} (hk : k < max) (hmax : max < 2 ^ 64 - 3) :
    ∃ es t, Filled max k es t := by
  induction k with
  | zero => exact ⟨_, _, filled_zero max⟩
  | succ k ih =>
    obtain ⟨es, t, hfilled⟩ := ih (by omega)
    exact hfilled.step hk hmax

/-- One file more than the table keeps is looked up, and the kernel forgets none of them: the number
of the last one resolves to nothing. -/
theorem lookup_lost : ∃ es t path kind n, Runs mountInodeCacheMax "" (fun t _ => Room t) es t ∧
    .lookup path kind n ∈ es ∧ forgotten n es = 0 ∧ 0 < looked n es ∧ (t.resolve n).1 = none := by
  obtain ⟨es, t, h⟩ := @exists_filled mountInodeCacheMax 65535 (by decide) (by decide)
  have hroom : Room t := by
    have htick := h.tick
    unfold Room
    omega
  have hstep : Step mountInodeCacheMax t (.lookup (nameOf 65535) .file _) _ :=
    .lookup (nameOf 65535) .file
  have hagrees := (h.runs.kept fun _ _ hroom => hroom).agrees
  refine ⟨_, _, nameOf 65535, .file, (t.intern mountInodeCacheMax (nameOf 65535) .file).1,
    h.runs.step hroom hstep, ?_, ?_, ?_, ?_⟩
  · exact List.mem_append_right _ (List.mem_singleton.mpr rfl)
  · rw [forgotten_concat, h.unforgotten]
    rfl
  · rw [looked_concat, Event.looked, if_pos rfl]
    omega
  · by_contra hresolves
    rcases (hstep.resolves_iff hagrees hroom).mp hresolves with hnumber | hless
    · exact hnumber (h.free 65535 (Nat.le_refl _))
    · have hfull := h.referenced
      unfold mountInodeCacheMax at hless
      omega

end Dctl.Mount
