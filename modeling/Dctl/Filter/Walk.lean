import Dctl.Filter.FilterSet

/-! A recursive walk that asks the filter before it enters a directory, against the flat list of the
same tree, and which directories it is kept out of by the rules alone. -/

namespace Dctl.Filter

open ProofKit Cli List

abbrev Name := {s : String // LogicalPath.Component s}

inductive Tree where
  | file (size : Option Nat) (modified : Option Int)
  | dir (children : List (Name × Tree))

mutual

def Tree.files (path : String) : Tree → List Candidate
  | .file size modified => [⟨path, size, modified, false⟩]
  | .dir children => filesUnder path children

def filesUnder (dir : String) : List (Name × Tree) → List Candidate
  | [] => []
  | (name, tree) :: rest => tree.files (LogicalPath.join dir name) ++ filesUnder dir rest

end

mutual

/-- The files a walk collects from a tree that stands at `path`: a directory is entered only when
the filter lets the walk descend, and a file is kept only when the filter admits it. -/
def Tree.walk (f : FilterSet) (path : String) : Tree → List Candidate
  | .file size modified =>
    if f.admits ⟨path, size, modified, false⟩ then [⟨path, size, modified, false⟩] else []
  | .dir children => if f.mayDescend path then walkUnder f path children else []

def walkUnder (f : FilterSet) (dir : String) : List (Name × Tree) → List Candidate
  | [] => []
  | (name, tree) :: rest => tree.walk f (LogicalPath.join dir name) ++ walkUnder f dir rest

end

variable {f : FilterSet} {dir path : String} {name : Name}

theorem ancestors_join : ancestors (LogicalPath.join dir name) =
    if dir = "" then [""] else ancestors dir ++ [dir] := by
  by_cases hd : dir = ""
  · rw [if_pos hd, ancestors, LogicalPath.join, if_pos hd,
      LogicalPath.prefixes_of_component name.2]
  · rw [if_neg hd, ancestors, LogicalPath.prefixes_join hd name.2, ancestors, cons_append]

/-- The walk may descend into every directory above the path. -/
def Reached (f : FilterSet) (path : String) : Prop := ∀ d ∈ ancestors path, f.mayDescend d = true

theorem reached_join : Reached f (LogicalPath.join dir name) ↔
    (dir ≠ "" → Reached f dir) ∧ f.mayDescend dir = true := by
  rw [Reached, ancestors_join]
  by_cases hd : dir = ""
  · simp [hd]
  · rw [if_neg hd, forall_mem_append]
    simp [hd, Reached]

mutual

theorem reached_of_files : ∀ (tree : Tree) (path : String), path ≠ "" →
    ∀ c ∈ tree.files path, Reached f c.path → Reached f path
  | .file _ _, path, _, c, hc, hr => by
    rw [Tree.files, mem_singleton] at hc
    rw [hc] at hr
    exact hr
  | .dir children, path, hp, c, hc, hr =>
    (reached_of_filesUnder children path c hc hr).1 hp

theorem reached_of_filesUnder : ∀ (children : List (Name × Tree)) (dir : String),
    ∀ c ∈ filesUnder dir children, Reached f c.path →
      (dir ≠ "" → Reached f dir) ∧ f.mayDescend dir = true
  | [], _, c, hc, _ => by cases hc
  | (name, tree) :: rest, dir, c, hc, hr => by
    rw [filesUnder] at hc
    rcases List.mem_append.mp hc with hc | hc
    · exact reached_join.mp
        (reached_of_files tree _ (LogicalPath.join_ne_empty name.2) c hc hr)
    · exact reached_of_filesUnder rest dir c hc hr

end

theorem admitsEnumerated_iff {c : Candidate} : f.admitsEnumerated c = true ↔
    f.admits c = true ∧ Reached f c.path := by
  rw [FilterSet.admitsEnumerated, Bool.and_eq_true, all_eq_true]
  rfl

mutual

theorem walk_eq_filter : ∀ (tree : Tree) (path : String), path ≠ "" → Reached f path →
    tree.walk f path = (tree.files path).filter f.admitsEnumerated
  | .file size modified, path, _, hr => by
    rw [Tree.walk, Tree.files, filter_singleton]
    have hiff : f.admitsEnumerated ⟨path, size, modified, false⟩ =
        f.admits ⟨path, size, modified, false⟩ := by
      rw [Bool.eq_iff_iff, admitsEnumerated_iff]
      exact and_iff_left hr
    rw [hiff, cond_eq_ite]
  | .dir children, path, hp, hr => by
    rw [Tree.walk, Tree.files]
    by_cases hd : f.mayDescend path = true
    · rw [if_pos hd]
      exact walkUnder_eq_filter children path (fun _ => hr) hd
    · rw [if_neg hd, eq_comm, filter_eq_nil_iff]
      intro c hc hadm
      exact hd (reached_of_filesUnder children path c hc (admitsEnumerated_iff.mp hadm).2).2

theorem walkUnder_eq_filter : ∀ (children : List (Name × Tree)) (dir : String),
    (dir ≠ "" → Reached f dir) → f.mayDescend dir = true →
    walkUnder f dir children = (filesUnder dir children).filter f.admitsEnumerated
  | [], _, _, _ => rfl
  | (name, tree) :: rest, dir, hr, hd => by
    rw [walkUnder, filesUnder, filter_append,
      walk_eq_filter tree _ (LogicalPath.join_ne_empty name.2) (reached_join.mpr ⟨hr, hd⟩),
      walkUnder_eq_filter rest dir hr hd]

end

/-- A walk from the root that enters what the filter lets it enter and keeps what the filter admits
collects the files that the filter admits in the flat list of the tree. -/
theorem walk_root_eq_enumerated (f : FilterSet) (children : List (Name × Tree)) :
    (Tree.dir children).walk f "" =
      ((Tree.dir children).files "").filter f.admitsEnumerated := by
  rw [Tree.walk, Tree.files]
  by_cases hd : f.mayDescend "" = true
  · rw [if_pos hd]
    exact walkUnder_eq_filter children "" (fun h => absurd rfl h) hd
  · rw [if_neg hd, eq_comm, filter_eq_nil_iff]
    intro c hc hadm
    exact hd (reached_of_filesUnder children "" c hc (admitsEnumerated_iff.mp hadm).2).2

end Dctl.Filter

namespace Dctl.Filter

open ProofKit Cli

variable {f : FilterSet} {rules : List Rule} {path : String}

def Rule.names (rule : Rule) (path : String) : Bool :=
  rule.directoriesOnly && rule.matches (.directory path)

def directoryRule (rules : List Rule) (path : String) : Option Rule :=
  rules.find? fun rule => rule.names path

/-- A walk is kept out of a directory just when the first rule that names it is an exclusion. -/
def FirstWins (f : FilterSet) (path : String) : Prop :=
  f.mayDescend path = false ↔ ∃ rule, directoryRule f.rules path = some rule ∧
    rule.action = .exclude

/-- An inclusion is the first rule to name the directory, and an exclusion after it names it too. -/
def Overruled (rules : List Rule) (path : String) : Prop :=
  ∃ front rule back, rules = front ++ rule :: back ∧ (∀ r ∈ front, r.names path = false) ∧
    (rule.names path = true ∧ rule.action = .include) ∧ ∃ r ∈ back, r.names path = true ∧
      r.action = .exclude

theorem mayDescend_eq_false (hdepth : f.depth.limit = none) (honly : f.only = none) :
    f.mayDescend path = false ↔ ∃ rule ∈ f.rules, rule.names path = true ∧
      rule.action = .exclude := by
  have hdescend : f.depth.mayDescend (depthOf path) = true := by
    rw [DepthLimit.mayDescend, hdepth]
    rfl
  simp only [FilterSet.mayDescend, hdescend, honly, Bool.not_true, Bool.false_eq_true, if_false,
    Bool.not_eq_false', List.any_eq_true, Bool.and_eq_true, decide_eq_true_eq, Rule.names]
  constructor
  · rintro ⟨rule, hmem, ⟨haction, hdirectories⟩, hmatches⟩
    exact ⟨rule, hmem, ⟨hdirectories, hmatches⟩, haction⟩
  · rintro ⟨rule, hmem, ⟨hdirectories, hmatches⟩, haction⟩
    exact ⟨rule, hmem, ⟨haction, hdirectories⟩, hmatches⟩

theorem directoryRule_eq_some {rule : Rule} (h : directoryRule rules path = some rule) :
    rule.names path = true ∧ ∃ front back, rules = front ++ rule :: back ∧ ∀ r ∈ front,
      r.names path = false := by
  obtain ⟨hnames, front, back, hrules, hfront⟩ := List.find?_eq_some_iff_append.mp h
  exact ⟨hnames, front, back, hrules, fun r hr => by simpa using hfront r hr⟩

theorem first_or_overruled {rule : Rule} (hmem : rule ∈ rules) (hnames : rule.names path = true)
    (haction : rule.action = .exclude) :
    (∃ first, directoryRule rules path = some first ∧ first.action = .exclude) ∨
      Overruled rules path := by
  obtain ⟨first, hfirst⟩ : ∃ first, directoryRule rules path = some first :=
    Option.isSome_iff_exists.mp (List.find?_isSome.mpr ⟨rule, hmem, hnames⟩)
  by_cases hexclude : first.action = .exclude
  · exact .inl ⟨first, hfirst, hexclude⟩
  · have hinclude : first.action = .include := by
      cases h : first.action
      · rfl
      · exact absurd h hexclude
    obtain ⟨hnamed, front, back, hrules, hfront⟩ := directoryRule_eq_some hfirst
    refine .inr ⟨front, first, back, hrules, hfront, ⟨hnamed, hinclude⟩, rule, ?_, hnames, haction⟩
    rw [hrules, List.mem_append, List.mem_cons] at hmem
    rcases hmem with hmem | rfl | hmem
    · rw [hfront rule hmem] at hnames
      cases hnames
    · exact absurd haction hexclude
    · exact hmem

/-- The first rule that names a directory decides, unless it is an inclusion that a later exclusion
overrules. -/
theorem mayDescend_first_iff (f : FilterSet) (path : String) (hdepth : f.depth.limit = none)
    (honly : f.only = none) : FirstWins f path ↔ ¬Overruled f.rules path := by
  rw [FirstWins, mayDescend_eq_false hdepth honly]
  constructor
  · rintro h ⟨front, rule, back, hrules, hfront, ⟨hnames, hinclude⟩, last, hlast, hnames', hexclude⟩
    have hmem : last ∈ f.rules := by
      rw [hrules]
      exact List.mem_append_right _ (List.mem_cons_of_mem _ hlast)
    obtain ⟨first, hfirst, haction⟩ := h.mp ⟨last, hmem, hnames', hexclude⟩
    have hsame : directoryRule f.rules path = some rule := by
      refine List.find?_eq_some_iff_append.mpr ⟨hnames, front, back, hrules, ?_⟩
      intro r hr
      rw [hfront r hr]
      rfl
    rw [Option.some.inj (hfirst.symm.trans hsame), hinclude] at haction
    cases haction
  · intro hover
    constructor
    · rintro ⟨rule, hmem, hnames, haction⟩
      exact (first_or_overruled hmem hnames haction).resolve_right hover
    · rintro ⟨rule, hfirst, haction⟩
      obtain ⟨hnames, front, back, hrules, -⟩ := directoryRule_eq_some hfirst
      refine ⟨rule, ?_, hnames, haction⟩
      rw [hrules]
      exact List.mem_append_right _ List.mem_cons_self

def FilterSet.ofRules (rules : List Rule) : FilterSet :=
  { FilterSet.everything with rules := rules }

def keepOne : Rule := ⟨.include, ⟨[.consume (.exact 'a'), .accept]⟩, .name, true, "a/"⟩

def dropAll : Rule :=
  ⟨.exclude, ⟨[.split 1 3, .consume .withinComponent, .jump 0, .accept]⟩, .name, true, "*/"⟩

/-- Under the rules `- */` and `+ a/`, which both name `a`, the first one decides. -/
theorem mayDescend_first_dropAll : (dropAll.names "a" = true ∧ keepOne.names "a" = true) ∧
    (FilterSet.ofRules [dropAll, keepOne]).mayDescend "a" = false ∧
      FirstWins (.ofRules [dropAll, keepOne]) "a" := by
  refine ⟨by decide +kernel, by decide +kernel,
    (mayDescend_first_iff (.ofRules [dropAll, keepOne]) "a" rfl rfl).mpr ?_⟩
  rintro ⟨front, rule, back, hrules, hfront, ⟨-, hinclude⟩, -⟩
  cases front with
  | nil =>
    obtain ⟨rfl, -⟩ := List.cons.inj hrules
    cases hinclude
  | cons first rest =>
    obtain ⟨rfl, -⟩ := List.cons.inj hrules
    exact absurd (hfront dropAll List.mem_cons_self) (by decide +kernel)

/-- The rules `+ a/` and `- */` keep the walk out of `a`. -/
theorem keepOne_overruled : (Rule.compile id .include "a/" = .ok keepOne ∧
    Rule.compile id .exclude "*/" = .ok dropAll) ∧
      ¬FirstWins (.ofRules [keepOne, dropAll]) "a" := by
  refine ⟨by decide +kernel, fun h => ?_⟩
  obtain ⟨rule, hfirst, haction⟩ := h.mp (by decide +kernel)
  have hkeep : directoryRule [keepOne, dropAll] "a" = some keepOne := by decide +kernel
  cases hkeep.symm.trans hfirst
  cases haction

end Dctl.Filter
