import Dctl.ProofKit.Chains
import Dctl.ProofKit.Checks
import Dctl.Cli.Paths

/-! The directories that a stream of paths implies, with the totals of what is beneath them
(`listing/dirs.rs`, `listing/entry.rs`).  What happens with a directory that is done is a parameter.
-/

namespace Dctl.Listing

open ProofKit Index Cli.Paths List

def join (dir name : Path) : Path :=
  if trimEnd dir = [] then name else trimEnd dir ++ separator :: name

def offsetBelow (full root : Path) : Nat :=
  if trimEnd root = [] ∨ !isUnder (trimEnd root) full then 0
  else min ((trimEnd root).length + 1) full.length

def relativeOffset (full root : Path) : Nat :=
  if trimEnd root = full then offsetBelow full (parentChars full) else offsetBelow full root

structure ListEntry where
  path : Path
  rootLen : Nat
  size : Option Nat
  modifiedUnix : Option Int

def ListEntry.fromSource (e : Entry) (root : Path) : ListEntry :=
  ⟨e.path, relativeOffset e.path root, e.size, e.modifiedUnix⟩

def ListEntry.relative (e : ListEntry) : Path := e.path.drop e.rootLen

def ListEntry.parentComponents (e : ListEntry) : List Path :=
  (segments separator e.relative).dropLast

def ListEntry.first (e : ListEntry) : Option Path := e.parentComponents.head?

structure Directory where
  path : Path
  rootLen : Nat
  bytes : Option Nat
  objects : Nat
  deriving DecidableEq

/-- A directory open on the path being walked, with the closed ones that wait for it. -/
structure Open where
  name : Path
  path : Path
  bytes : Option Nat
  objects : Nat
  buffered : List Directory

def addSize (total size : Option Nat) : Option Nat :=
  total.bind fun total => size.map fun size => satAdd total size

def Open.count (size : Option Nat) (o : Open) : Open :=
  { o with bytes := addSize o.bytes size, objects := satAdd o.objects 1 }

def Open.summary (rootLen : Nat) (o : Open) : Directory := ⟨o.path, rootLen, o.bytes, o.objects⟩

structure Aggregator where
  root : Path
  maxDepth : Option Nat
  stack : List Open

def tracked (maxDepth : Option Nat) (e : ListEntry) : List Path :=
  match maxDepth with
  | some depth => e.parentComponents.take depth
  | none => e.parentComponents

namespace Aggregator

variable {m : Type → Type} [Monad m] (emit : Directory → m Unit)

def new (root : Path) (maxDepth : Option Nat) : Aggregator := ⟨root, maxDepth, []⟩

def close (rootLen : Nat) : Nat → List Open → m (List Open)
  | 0, stack => return stack
  | _ + 1, [] => return []
  | _ + 1, [done] => do
    emit (done.summary rootLen)
    forM done.buffered emit
    return []
  | n + 1, done :: parent :: rest =>
    close rootLen n
      ({ parent with buffered := parent.buffered ++ done.summary rootLen :: done.buffered } :: rest)

def closeBelow (a : Aggregator) (depth : Nat) : m (List Open) :=
  close emit a.root.length (a.stack.length - depth) a.stack

def shared : List Open → List Path → Nat
  | o :: chain, name :: components => if o.name = name then shared chain components + 1 else 0
  | _, _ => 0

def opened (root : Path) (stack : List Open) : List Path → List Open
  | [] => stack
  | name :: rest =>
    let parent := match stack with
      | [] => root
      | o :: _ => o.path
    opened root (⟨name, join parent name, some 0, 0, []⟩ :: stack) rest

def push (a : Aggregator) (e : ListEntry) : m Aggregator := do
  let components := tracked a.maxDepth e
  let n := shared a.stack.reverse components
  let stack ← a.closeBelow emit n
  return { a with stack := (opened a.root stack (components.drop n)).map (Open.count e.size) }

def finish (a : Aggregator) : m Unit := do
  let _ ← a.closeBelow emit 0

def run (a : Aggregator) : List ListEntry → m Unit
  | [] => a.finish emit
  | e :: rest => do
    let a ← a.push emit e
    run a rest

end Aggregator

/-- Whatever is done with a directory, the computation does it with these, in order, and returns the
value. -/
def Emits {α : Type} (x : ∀ (m : Type → Type) [Monad m], (Directory → m Unit) →
    m α) (out : List Directory)
    (a : α) : Prop :=
  ∀ (m : Type → Type) [Monad m] [LawfulMonad m] (emit : Directory → m Unit),
    x m emit = (forM out emit >>= fun _ => pure a)

/-- The directories, in the order in which they are emitted. -/
def collected {α : Type} (x : ∀ (m : Type → Type) [Monad m], (Directory → m Unit) → m α) :
    List Directory :=
  (x (StateM (List Directory)) (fun d => modify (· ++ [d])) []).2

theorem forM_collect (out log : List Directory) :
    (forM out (fun d => modify (· ++ [d])) : StateM (List Directory) Unit) log =
      ((), log ++ out) := by
  induction out generalizing log with
  | nil => rw [append_nil]; rfl
  | cons d out ih =>
    rw [forM_cons, append_cons, ← ih]
    rfl

theorem Emits.collected {α : Type} {x : ∀ (m : Type → Type) [Monad m], (Directory → m Unit) → m α}
    {out : List Directory} {a : α} (h : Emits x out a) : Listing.collected x = out := by
  rw [Listing.collected, h]
  show ((forM out (fun d => modify (· ++ [d])) : StateM (List Directory) Unit) []).2 = out
  rw [forM_collect]
  rfl

variable {m : Type → Type} [Monad m] {emit : Directory →
  m Unit} {root : Path} {maxDepth : Option Nat}
  {rootLen n : Nat} {stack s : List Open} {f g : List Path → Directory →
    Directory} {names : List Path}

def chain (stack : List Open) : List Path := (stack.map Open.name).reverse

def dirPath (root : Path) (names : List Path) : Path := names.foldl join root

/-- Every open directory has the path of its names. -/
def Placed (root : Path) : List Open → Prop
  | [] => True
  | o :: outer => o.path = dirPath root (chain (o :: outer)) ∧ Placed root outer

def flat (f : List Path → Directory → Directory) (rootLen : Nat) : List Open → List Directory
  | [] => []
  | o :: outer => flat f rootLen outer ++ f (chain (o :: outer)) (o.summary rootLen) :: o.buffered

theorem chain_cons (o : Open) (outer : List Open) :
    chain (o :: outer) = chain outer ++ [o.name] := by
  rw [chain, map_cons, reverse_cons]
  rfl

theorem length_chain (stack : List Open) : (chain stack).length = stack.length := by
  rw [chain, length_reverse, length_map]

theorem dirPath_concat (root : Path) (names : List Path) (name : Path) :
    dirPath root (names ++ [name]) = join (dirPath root names) name := by
  rw [dirPath, foldl_append]
  rfl

theorem Placed.parent (h : Placed root stack) :
    (match stack with | [] => root | o :: _ => o.path) = dirPath root (chain stack) := by
  cases stack with
  | nil => rfl
  | cons o outer => exact h.1

theorem flat_congr (h : ∀ ds, ds <+: chain stack → ∀ d, f ds d = g ds d) :
    flat f rootLen stack = flat g rootLen stack := by
  induction stack with
  | nil => rfl
  | cons o outer ih =>
    have houter : chain outer <+: chain (o :: outer) := by
      rw [chain_cons]
      exact prefix_append _ _
    rw [flat, flat, h _ prefix_rfl, ih fun ds hds => h ds (hds.trans houter)]

namespace Aggregator

theorem shared_eq (stack : List Open) (components : List Path) :
    shared stack.reverse components = common (chain stack) components := by
  rw [chain, ← map_reverse]
  induction stack.reverse generalizing components with
  | nil => cases components <;> rfl
  | cons o outer ih =>
    cases components with
    | nil => rfl
    | cons name rest => rw [shared, map_cons, common, ih]

theorem close_spec [LawfulMonad m] (emit : Directory → m Unit) (rootLen : Nat)
    (hplaced : Placed root stack)
    (hdone : ∀ ds d, ds <+: chain stack → stack.length - n < ds.length → f ds d = d) :
    ∃ out s, close emit rootLen n stack = (forM out emit >>= fun _ => pure s) ∧
      flat f rootLen stack = out ++ flat f rootLen s ∧
      chain s = (chain stack).take (stack.length - n) ∧ Placed root s := by
  induction n generalizing stack with
  | zero =>
    refine ⟨[], stack, ?_, rfl, ?_, hplaced⟩
    · rw [forM_nil, pure_bind]
      rfl
    · rw [Nat.sub_zero, ← length_chain, take_length]
  | succ n ih =>
    cases stack with
    | nil =>
      refine ⟨[], [], ?_, rfl, take_nil.symm, trivial⟩
      rw [forM_nil, pure_bind]
      rfl
    | cons done outer =>
      cases outer with
      | nil =>
        refine ⟨done.summary rootLen :: done.buffered, [], ?_, ?_, ?_, trivial⟩
        · rw [forM_cons, bind_assoc]
          rfl
        · have hlast := hdone (chain [done]) (done.summary rootLen) prefix_rfl (by
            rw [length_chain, length_singleton]
            omega)
          simp only [flat, hlast, nil_append, append_nil]
        · rw [length_singleton, Nat.sub_eq_zero_of_le (Nat.le_add_left 1 n)]
          rfl
      | cons parent rest =>
        have hcount : (done :: parent :: rest).length - (n + 1) = (parent :: rest).length - n :=
          Nat.add_sub_add_right ..
        obtain ⟨out, s, hclose, hflat, hchain, hplaced'⟩ := @ih
          ({ parent with buffered := parent.buffered ++ done.summary rootLen :: done.buffered } ::
            rest)
          hplaced.2 fun ds d hbegin hlen => hdone ds d (hbegin.trans (by
            rw [chain_cons done]
            exact prefix_append _ _)) (by rwa [hcount])
        have hlast := hdone (chain (done :: parent :: rest)) (done.summary rootLen) prefix_rfl (by
          rw [length_chain]
          simp only [length_cons]
          omega)
        refine ⟨out, s, hclose, ?_, ?_, hplaced'⟩
        · rw [← hflat, flat, hlast, flat, flat, append_assoc, cons_append]
          rfl
        · rw [hchain, hcount, chain_cons done, take_append_of_le_length]
          · rfl
          · rw [length_chain]
            exact Nat.sub_le ..

theorem opened_cons (hplaced : Placed root stack) (name : Path) (names : List Path) :
    opened root stack (name :: names) =
      opened root (⟨name, dirPath root (chain stack ++ [name]), some 0, 0, []⟩ :: stack) names := by
  rw [dirPath_concat, ← hplaced.parent]
  cases stack <;> rfl

theorem opened_spec (rootLen : Nat) (hplaced : Placed root stack) (names : List Path) :
    flat f rootLen (opened root stack names) = flat f rootLen stack ++
        (entered (chain stack) names).map (fun ds => f ds ⟨dirPath root ds, rootLen, some 0, 0⟩) ∧
      chain (opened root stack names) = chain stack ++ names ∧
        Placed root (opened root stack names) := by
  induction names generalizing stack with
  | nil =>
    rw [opened, entered, map_nil, append_nil, append_nil]
    exact ⟨rfl, rfl, hplaced⟩
  | cons name names ih =>
    rw [opened_cons hplaced]
    obtain ⟨hflat, hchain, hplaced'⟩ := @ih
      (⟨name, dirPath root (chain stack ++ [name]), some 0, 0, []⟩ :: stack)
      ⟨by rw [chain_cons], hplaced⟩
    rw [chain_cons] at hflat hchain
    refine ⟨?_, ?_, hplaced'⟩
    · rw [hflat, flat, chain_cons, entered, map_cons, append_assoc]
      rfl
    · rw [hchain, append_assoc, singleton_append]

end Aggregator

def Directory.count (size : Option Nat) (d : Directory) : Directory :=
  { d with bytes := addSize d.bytes size, objects := satAdd d.objects 1 }

def Directory.counts (sizes : List (Option Nat)) (d : Directory) : Directory :=
  sizes.foldl (fun d size => d.count size) d

theorem chain_count (size : Option Nat) (stack : List Open) :
    chain (stack.map (Open.count size)) = chain stack := by
  rw [chain, map_map]
  rfl

theorem Placed.count (h : Placed root stack) (size : Option Nat) :
    Placed root (stack.map (Open.count size)) := by
  induction stack with
  | nil => trivial
  | cons o outer ih => exact ⟨h.1.trans (congrArg _ (chain_count size (o :: outer)).symm), ih h.2⟩

theorem flat_count (size : Option Nat) (stack : List Open) :
    flat f rootLen (stack.map (Open.count size)) = flat (fun ds d => f ds (d.count size))
      rootLen stack := by
  induction stack with
  | nil => rfl
  | cons o outer ih =>
    have hchain := chain_count size (o :: outer)
    rw [map_cons] at hchain ⊢
    rw [flat, flat, ih, hchain]
    rfl

def sizesBelow (maxDepth : Option Nat) (entries : List ListEntry) (ds : List Path) :
    List (Option Nat) :=
  (entries.filter fun e => decide (ds <+: tracked maxDepth e)).map ListEntry.size

def report (root : Path) (maxDepth : Option Nat) (entries : List ListEntry) (ds : List Path) :
    Directory :=
  (⟨dirPath root ds, root.length, some 0, 0⟩ : Directory).counts (sizesBelow maxDepth entries ds)

def later (maxDepth : Option Nat) (entries : List ListEntry) (ds : List Path) (d : Directory) :
    Directory :=
  d.counts (sizesBelow maxDepth entries ds)

variable {e : ListEntry} {rest : List ListEntry} {ds : List Path}

theorem sizesBelow_cons_of_prefix (h : ds <+: tracked maxDepth e) :
    sizesBelow maxDepth (e :: rest) ds = e.size :: sizesBelow maxDepth rest ds := by
  simp only [sizesBelow, filter_cons, decide_eq_true h, if_true, map_cons]

theorem sizesBelow_cons_of_not_prefix (h : ¬ds <+: tracked maxDepth e) :
    sizesBelow maxDepth (e :: rest) ds = sizesBelow maxDepth rest ds := by
  simp only [sizesBelow, filter_cons, decide_eq_false h, Bool.false_eq_true, if_false]

theorem sizesBelow_eq_nil (h : ∀ c ∈ rest.map (tracked maxDepth), ¬ds <+: c) :
    sizesBelow maxDepth rest ds = [] := by
  rw [sizesBelow, filter_eq_nil_iff.mpr, map_nil]
  intro e he hbegin
  exact h _ (mem_map_of_mem he) (of_decide_eq_true hbegin)

theorem Aggregator.push_spec [LawfulMonad m] (emit : Directory → m Unit)
    (hplaced : Placed root stack)
    (hcontiguous : Contiguous (chain stack :: (e :: rest).map (tracked maxDepth))) :
    ∃ out s, (⟨root, maxDepth, stack⟩ : Aggregator).push emit e =
        (forM out emit >>= fun _ => pure ⟨root, maxDepth, s⟩) ∧
      chain s = tracked maxDepth e ∧ Placed root s ∧
      flat (later maxDepth (e :: rest)) root.length stack ++
          (entered ((tracked maxDepth e).take (common (chain stack) (tracked maxDepth e)))
            ((tracked maxDepth e).drop (common (chain stack) (tracked maxDepth e)))).map
              (report root maxDepth (e :: rest)) =
        out ++ flat (later maxDepth rest) root.length s := by
  obtain ⟨n, hn⟩ : ∃ n, n = common (chain stack) (tracked maxDepth e) := ⟨_, rfl⟩
  have hle : n ≤ stack.length := by
    rw [hn, ← length_chain]
    exact common_le ..
  -- A directory that is closed gets nothing of what is still to come.
  have hdone : ∀ ds d, ds <+: chain stack → stack.length - (stack.length - n) < ds.length →
      later maxDepth (e :: rest) ds d = d := by
    intro ds d hbegin hlen
    have hleft : ¬ds <+: tracked maxDepth e := fun h => by
      have hshort := length_le_common hbegin h
      omega
    rw [later, sizesBelow_cons_of_not_prefix hleft,
      sizesBelow_eq_nil (hcontiguous.left hbegin hleft)]
    rfl
  obtain ⟨out, s, hclose, hflat, hchain, hplaced'⟩ := close_spec emit root.length
    hplaced hdone
  rw [Nat.sub_sub_self hle, hn, take_common, ← hn] at hchain
  obtain ⟨hopened, hchain', hplaced''⟩ := opened_spec (f := later maxDepth (e :: rest))
    root.length hplaced' ((tracked maxDepth e).drop n)
  rw [hchain, take_append_drop] at hchain'
  refine ⟨out, (opened root s ((tracked maxDepth e).drop n)).map (Open.count e.size), ?_,
    (chain_count ..).trans hchain', hplaced''.count _, ?_⟩
  · unfold push closeBelow
    simp only [shared_eq, ← hn, hclose, bind_assoc, pure_bind]
  · have hlater : flat (fun ds d => later maxDepth rest ds (d.count e.size)) root.length
        (opened root s ((tracked maxDepth e).drop n)) =
          flat (later maxDepth (e :: rest)) root.length
          (opened root s ((tracked maxDepth e).drop n)) := by
      refine flat_congr fun ds hds d => ?_
      rw [hchain'] at hds
      rw [later, later, sizesBelow_cons_of_prefix hds]
      rfl
    rw [flat_count, hlater, hopened, hflat, hchain, append_assoc, ← hn]
    rfl

/-- Over a stream that is contiguous, every directory is emitted once, where it was entered, with
what is beneath it. -/
theorem Aggregator.run_spec [LawfulMonad m] (hplaced : Placed root stack)
    (hcontiguous : Contiguous (chain stack :: rest.map (tracked maxDepth))) :
    (⟨root, maxDepth, stack⟩ : Aggregator).run emit rest =
      forM (flat (later maxDepth rest) root.length stack ++
        (entries (chain stack) (rest.map (tracked maxDepth))).map (report root maxDepth rest))
          emit := by
  induction rest generalizing stack with
  | nil =>
    obtain ⟨out, s, hclose, hflat, hchain, -⟩ := close_spec emit root.length
      (n := stack.length - 0) (f := later maxDepth []) hplaced fun ds d _ _ => rfl
    have hnone : s = [] := by
      rw [Nat.sub_zero, Nat.sub_self, take_zero] at hchain
      rw [← length_eq_zero_iff, ← length_chain, hchain]
      rfl
    rw [run, finish, closeBelow, hclose, hflat, hnone, flat, append_nil, map_nil, entries,
      map_nil, append_nil, bind_assoc]
    simp only [pure_bind]
    exact bind_pure_unit
  | cons e rest ih =>
    obtain ⟨out, s, hpush, hchain, hplaced', hflat⟩ := push_spec emit hplaced hcontiguous
    have hnext : Contiguous (chain s :: rest.map (tracked maxDepth)) := by
      rw [hchain]
      exact hcontiguous.tail
    have hreports : (entries (tracked maxDepth e) (rest.map (tracked maxDepth))).map
        (report root maxDepth rest) =
          (entries (tracked maxDepth e) (rest.map (tracked maxDepth))).map
          (report root maxDepth (e :: rest)) := by
      refine map_congr_left fun ds hds => ?_
      have hnot := ((mem_entries hcontiguous.tail).mp hds).1
      rw [report, report, sizesBelow_cons_of_not_prefix hnot]
    rw [run, hpush, bind_assoc]
    simp only [pure_bind]
    rw [ih hplaced' hnext, map_cons, entries, map_append, ← append_assoc, hflat,
      append_assoc, hchain, hreports]
    simp only [forM_append]

theorem Aggregator.run_new (hcontiguous : Contiguous ([] :: rest.map (tracked maxDepth))) :
    Emits (fun _ _ emit => (Aggregator.new root maxDepth).run emit rest)
      ((entries [] (rest.map (tracked maxDepth))).map (report root maxDepth rest)) () := by
  intro m _ _ emit
  have hplaced : Placed root [] := trivial
  exact (run_spec hplaced hcontiguous).trans bind_pure_unit.symm

end Dctl.Listing
