import Dctl.Crypto.Names
import Dctl.Mount.Tree

/-! Paths whose directories are spelled with single separators, how they lie under one another, and
the directories directly below a root that a stream of paths implies: each run of paths with the
same first component gives one. -/

namespace Dctl.Mount

open ProofKit Index Crypto Cli.Paths Dctl.Listing

variable {names : List Path} {path rest name : Path} {U : Unicode}

/-- The path has a final name, single separators and no dots. -/
structure WellNamed (path : Path) : Prop where
  final : fileName path ≠ []
  directories : trimEnd (parentChars path) = spell (segments separator path).dropLast
  dots : ∀ name ∈ segments separator path, name ≠ ['.'] ∧ name ≠ ['.', '.']

/-- The path has a final name, and its directories are spelled with single separators. -/
structure Spelled (path : Path) : Prop where
  final : fileName path ≠ []
  directories : trimEnd (parentChars path) = spell (segments separator path).dropLast

theorem WellNamed.spelled (h : WellNamed path) : Spelled path := ⟨h.final, h.directories⟩

/-- The path lies below the directory. -/
def Beneath (names : List Path) (path : Path) : Prop :=
  names <+: segments separator path ∧ names ≠ segments separator path

theorem join_spell (h : Pieces separator names) :
    join (spell names) name = spell (names ++ [name]) := by
  unfold join
  rw [trimEnd_spell h]
  split
  next hnil =>
    rw [(spell_eq_nil h).mp hnil]
    exact (List.intercalate_singleton).symm
  next hne => exact (spell_concat fun hnil => hne ((spell_eq_nil h).mpr hnil)).symm

theorem Spelled.segments_eq (h : Spelled path) :
    segments separator path = segments separator (parentChars path) ++ [fileName path] :=
  Cli.Paths.segments_eq h.final

theorem WellNamed.segments_eq (h : WellNamed path) :
    segments separator path = segments separator (parentChars path) ++ [fileName path] :=
  h.spelled.segments_eq

theorem Spelled.beneath_iff (hpath : Spelled path) (h : Pieces separator names) (hne : names ≠ []) :
    Beneath names path ↔ ∃ rest, path = spell names ++ separator :: rest := by
  constructor
  · rintro ⟨hbegin, hproper⟩
    rw [hpath.segments_eq] at hbegin hproper
    obtain ⟨more, hmore⟩ := (List.prefix_concat_iff.mp hbegin).resolve_left hproper
    have hdirs := hpath.directories
    rw [hpath.segments_eq, List.dropLast_concat, ← hmore] at hdirs
    obtain ⟨k, hk⟩ := exists_replicate separator (parentChars path)
    rw [show (parentChars path).rdropWhile (· = separator) = spell (names ++ more) from hdirs] at hk
    have hsplit : path = parentChars path ++ separator :: fileName path := by
      rcases path_cases path with ⟨hparent, -, -⟩ | hsplit
      · rw [hparent, segments_nil] at hmore
        exact absurd (List.append_eq_nil_iff.mp hmore).1 hne
      · exact hsplit
    cases more with
    | nil =>
      rw [List.append_nil] at hk
      cases k with
      | zero => exact ⟨fileName path, by rwa [hk, List.replicate_zero, List.append_nil] at hsplit⟩
      | succ k =>
        refine ⟨List.replicate k separator ++ separator :: fileName path, ?_⟩
        rwa [hk, List.replicate_succ, List.append_assoc, List.cons_append] at hsplit
    | cons first more =>
      rw [spell_append hne (List.cons_ne_nil _ _)] at hk
      refine ⟨spell (first :: more) ++ List.replicate k separator ++ separator :: fileName path, ?_⟩
      rwa [hk, List.append_assoc, List.append_assoc, List.cons_append, ← List.append_assoc]
        at hsplit
  · rintro ⟨rest, rfl⟩
    have hsegs : segments separator (spell names ++ separator :: rest) =
        names ++ segments separator rest := by
      rw [segments_append, segments_spell h]
    refine ⟨hsegs ▸ List.prefix_append _ _, ?_⟩
    rw [hsegs]
    intro heq
    -- Nothing but separators would be left for the final name.
    have hall : ∀ a ∈ rest, a = separator := segments_eq_nil.mp (List.self_eq_append_right.mp heq)
    have hmem : fileName (spell names ++ separator :: rest) = [] := by
      rw [fileName, List.rtakeWhile_eq_nil_iff]
      intro hl
      rw [List.getLast_append_of_ne_nil hl (List.cons_ne_nil _ _)]
      have hlast := List.getLast_mem (List.cons_ne_nil separator rest)
      rcases List.mem_cons.mp hlast with heq | hrest
      · simp [heq]
      · simp [hall _ hrest]
    exact hpath.final hmem

theorem WellNamed.beneath_iff (hpath : WellNamed path) (h : Pieces separator names)
    (hne : names ≠ []) : Beneath names path ↔ ∃ rest, path = spell names ++ separator :: rest :=
  hpath.spelled.beneath_iff h hne

section

variable (h : Path.validate U (String.ofList path) = .ok ())
include h

theorem segments_of_validate :
    segments separator path = path.splitOn separator ∧
      ∀ name ∈ path.splitOn separator, name ≠ [] ∧ name ≠ ['.'] ∧ name ≠ ['.', '.'] := by
  simp only [Path.validate, bind_eq_ok, String.toList_ofList] at h
  obtain ⟨_, -, _, -, _, -, _, -, _, -, hsegs⟩ := h
  have hsegment : ∀ seg ∈ path.splitOn separator, seg ≠ [] ∧ seg ≠ ['.'] ∧ seg ≠ ['.', '.'] := by
    intro seg hseg
    have hok := forM_eq_ok.mp hsegs seg hseg
    simp only [Path.validateSegment, bind_eq_ok, reject_eq_ok, not_or] at hok
    obtain ⟨_, hne, _, hdots, -⟩ := hok
    exact ⟨hne, hdots⟩
  refine ⟨?_, hsegment⟩
  rw [segments, List.filter_eq_self]
  exact fun seg hseg => decide_eq_true (hsegment seg hseg).1

theorem spell_of_validate : path = spell (segments separator path) := by
  rw [(segments_of_validate h).1]
  exact (List.intercalate_splitOn separator).symm

theorem segments_ne_nil_of_validate : segments separator path ≠ [] := by
  rw [(segments_of_validate h).1]
  exact List.splitOn_ne_nil _ _

theorem wellNamed_of_validate : WellNamed path := by
  have hspell := spell_of_validate h
  have hne := segments_ne_nil_of_validate h
  have hdots : ∀ name ∈ segments separator path, name ≠ ['.'] ∧ name ≠ ['.', '.'] := by
    rw [(segments_of_validate h).1]
    exact fun name hname => ((segments_of_validate h).2 name hname).2
  have hpieces := pieces_segments separator path
  obtain ⟨dirs, name, hsegs⟩ := List.eq_nil_or_concat (segments separator path) |>.resolve_left hne
  rw [List.concat_eq_append] at hsegs
  rw [hsegs] at hspell hpieces
  have hdirs : Pieces separator dirs := hpieces.of_subset (List.subset_append_left _ _)
  refine ⟨?_, ?_, hdots⟩
  · rw [hspell, fileName_spell hpieces]
    exact (hpieces name (by simp)).1
  · rw [hsegs, List.dropLast_concat, hspell, parentChars_spell hpieces, trimEnd_spell hdirs]

end

end Dctl.Mount

namespace Dctl.Mount

open ProofKit Index Cli.Paths Dctl.Listing

variable {root name : Path} {o : Option Path} {heads : List (Option Path)}

/-- The open directories of an aggregator that goes one level deep. -/
def OpenAt (root : Path) : Option Path → List Open → Prop
  | none, stack => stack = []
  | some name, stack => ∃ bytes objects, stack = [⟨name, join root name, bytes, objects, []⟩]

def runs : Option Path → List (Option Path) → List Path
  | o, [] => o.toList
  | o, head :: rest => if o = head then runs head rest else o.toList ++ runs head rest

theorem OpenAt.push {stack : List Open} (h : OpenAt root o stack) (e : ListEntry) :
    ∃ out s, Emits (fun _ _ emit => (⟨root, some 1, stack⟩ : Aggregator).push emit e) out
      ⟨root, some 1, s⟩ ∧
      OpenAt root e.first s ∧ out.map Directory.path = if o = e.first then []
        else o.toList.map (join root) := by
  have htracked : tracked (some 1) e = e.first.toList := by
    unfold tracked ListEntry.first
    cases e.parentComponents <;> rfl
  unfold Emits Aggregator.push Aggregator.closeBelow
  simp only [htracked]
  cases o with
  | none =>
    obtain rfl : stack = [] := h
    cases e.first with
    | none =>
      refine ⟨[], [], fun m _ _ emit => ?_, rfl, rfl⟩
      simp [Aggregator.shared, Aggregator.close, Aggregator.opened]
    | some head =>
      refine ⟨[], _, fun m _ _ emit => ?_, ⟨addSize (some 0) e.size, satAdd 0 1, rfl⟩, rfl⟩
      simp [Aggregator.shared, Aggregator.close, Aggregator.opened, Open.count]
  | some name =>
    obtain ⟨bytes, objects, rfl⟩ := h
    cases e.first with
    | none =>
      refine ⟨[⟨join root name, root.length, bytes, objects⟩], [], fun m _ _ emit => ?_, rfl, rfl⟩
      simp [Aggregator.shared, Aggregator.close, Aggregator.opened, Open.summary]
    | some head =>
      by_cases hname : name = head
      · subst hname
        refine ⟨[], _, fun m _ _ emit => ?_, ⟨addSize bytes e.size, satAdd objects 1, rfl⟩,
          (if_pos rfl).symm⟩
        simp [Aggregator.shared, Aggregator.close, Aggregator.opened, Open.count]
      · refine ⟨[⟨join root name, root.length, bytes, objects⟩], _, fun m _ _ emit => ?_, ⟨addSize
          (some 0) e.size, satAdd 0 1, rfl⟩, (if_neg fun heq => hname (Option.some.inj heq)).symm⟩
        simp [Aggregator.shared, Aggregator.close, Aggregator.opened, Open.summary,
          Open.count, hname]

theorem OpenAt.run {stack : List Open} (h : OpenAt root o stack) (entries : List ListEntry) :
    ∃ out, Emits (fun _ _ emit => (⟨root, some 1, stack⟩ : Aggregator).run emit entries) out () ∧
      out.map Directory.path = (runs o (entries.map ListEntry.first)).map (join root) := by
  induction entries generalizing o stack with
  | nil =>
    cases o with
    | none =>
      obtain rfl : stack = [] := h
      refine ⟨[], fun m _ _ emit => ?_, rfl⟩
      simp [Aggregator.run, Aggregator.finish, Aggregator.closeBelow, Aggregator.close]
    | some name =>
      obtain ⟨bytes, objects, rfl⟩ := h
      refine ⟨[⟨join root name, root.length, bytes, objects⟩], fun m _ _ emit => ?_, rfl⟩
      simp [Aggregator.run, Aggregator.finish, Aggregator.closeBelow,
        Aggregator.close, Open.summary]
  | cons e entries ih =>
    obtain ⟨out, s, hpush, hopen, hpaths⟩ := h.push e
    obtain ⟨out', hrun, hpaths'⟩ := ih hopen
    refine ⟨out ++ out', fun m _ _ emit => ?_, ?_⟩
    · simp only [Aggregator.run, hpush m emit, hrun m emit, bind_assoc, pure_bind, List.forM_append]
    · rw [List.map_append, hpaths, hpaths', List.map_cons, runs]
      split
      · rfl
      · rw [List.map_append]

theorem mem_runs : name ∈ runs o heads ↔ some name ∈ o :: heads := by
  induction heads generalizing o with
  | nil =>
    cases o with
    | none => simp [runs]
    | some first => simp [runs]
  | cons head rest ih =>
    rw [runs]
    split
    next heq => rw [ih, heq]; simp
    next hne =>
      rw [List.mem_append, ih]
      cases o with
      | none => simp
      | some first => simp [eq_comm]

/-- A component that was left is not met again. -/
def Grouped : List (Option Path) → Prop
  | [] => True
  | head :: rest => (∀ name, head = some name → head ∉ rest.dropWhile (· = head)) ∧ Grouped rest

theorem nodup_runs (h : Grouped (o :: heads)) : (runs o heads).Nodup := by
  induction heads generalizing o with
  | nil => cases o <;> simp [runs]
  | cons head rest ih =>
    obtain ⟨hleft, hrest⟩ := h
    rw [runs]
    split
    · exact ih hrest
    next hne =>
      refine List.Nodup.append (by cases o <;> simp) (ih hrest) fun name hname hmem => ?_
      obtain rfl : o = some name := by simpa using hname
      have := hleft name rfl
      rw [List.dropWhile_cons_of_neg (by simpa using Ne.symm hne)] at this
      exact this (mem_runs.mp hmem)

theorem grouped_of_between {α : Type} {r : α → α → Prop} (first : α → Option Path) {l : List α}
    (hl : l.Pairwise r)
    (h : ∀ x ∈ l, ∀ y ∈ l, ∀ z ∈ l, r x y → r y z → ∀ name, first x = some name →
      first z = some name → first y = some name) :
    Grouped (l.map first) := by
  induction l with
  | nil => trivial
  | cons x l ih =>
    rw [List.pairwise_cons] at hl
    refine ⟨fun name hx hmem => ?_, ih hl.2 fun y hy z hz w hw =>
      h y (List.mem_cons_of_mem x hy) z (List.mem_cons_of_mem x hz) w (List.mem_cons_of_mem x hw)⟩
    rw [List.dropWhile_map, List.mem_map] at hmem
    obtain ⟨z, hz, hfirst⟩ := hmem
    cases hdrop : l.dropWhile ((fun a => decide (a = first x)) ∘ first) with
    | nil => simp [hdrop] at hz
    | cons y rest =>
      have hsub : (y :: rest).Sublist l := hdrop ▸ List.dropWhile_sublist _
      have hy : first y ≠ first x := by
        have := List.head_dropWhile_not ((fun a => decide (a = first x)) ∘ first) (l := l)
          (by simp [hdrop])
        simpa [hdrop] using this
      rw [hdrop] at hz
      rcases List.mem_cons.mp hz with rfl | hz
      · exact hy hfirst
      · have hyz := (List.pairwise_cons.mp (hl.2.sublist hsub)).1 z hz
        have hmemy : y ∈ l := hsub.subset List.mem_cons_self
        have hmemz : z ∈ l := hsub.subset (List.mem_cons_of_mem y hz)
        have :=
          h x List.mem_cons_self y (List.mem_cons_of_mem x hmemy) z (List.mem_cons_of_mem x hmemz)
          (hl.1 y hmemy) hyz name hx (hfirst.trans hx)
        exact hy (this.trans hx.symm)

end Dctl.Mount
