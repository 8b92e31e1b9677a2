import Dctl.Index.Keying
import Dctl.ProofKit.Pieces

/-! Logical paths as sequences of characters (`platform/path.rs`): what lies under a directory, the
final component, and paths that are spelled with single separators. -/

namespace Dctl.Cli.Paths

open ProofKit Index List

abbrev Path := List Char

structure Entry where
  path : Path
  size : Option Nat
  modifiedUnix : Option Int
  deriving DecidableEq

def trimEnd (path : Path) : Path := path.rdropWhile (· = separator)

def isUnder (dir child : Path) : Bool :=
  if dir = [] then true
  else (trimEnd dir).isPrefixOf child &&
    match child.drop (trimEnd dir).length with
    | [] => true
    | c :: _ => c = separator

def listed (start path : Path) : Bool := start.isPrefixOf path && isUnder start path

def fileName (path : Path) : Path := path.rtakeWhile (· ≠ separator)

def spell (names : List Path) : Path := [separator].intercalate names

variable {names : List Path} {path rest name dir : Path}

theorem segments_spell (h : Pieces separator names) : segments separator (spell names) = names :=
  segments_intercalate h

theorem trimEnd_spell (h : Pieces separator names) : trimEnd (spell names) = spell names := by
  have := rdropWhile_intercalate h 0
  rwa [replicate_zero, append_nil] at this

theorem spell_eq_nil (h : Pieces separator names) : spell names = [] ↔ names = [] := by
  constructor
  · intro hnil
    by_contra hne
    exact intercalate_ne_nil h hne hnil
  · rintro rfl
    rfl

theorem spell_concat (hnames : names ≠ []) :
    spell (names ++ [name]) = spell names ++ separator :: name :=
  intercalate_concat hnames

theorem spell_append {more : List Path} (hnames : names ≠ []) (hmore : more ≠ []) :
    spell (names ++ more) = spell names ++ separator :: spell more :=
      intercalate_append hnames hmore

theorem spell_injective {more : List Path} (h : Pieces separator names) (h' : Pieces separator more)
    (heq : spell names = spell more) : names = more := by
  rw [← segments_spell h, heq, segments_spell h']

theorem fileName_append (h : separator ∉ name) : fileName (dir ++ separator :: name) = name :=
  rtakeWhile_append h

theorem fileName_of_not_mem (h : separator ∉ path) : fileName path = path := rtakeWhile_of_not_mem h

theorem not_mem_fileName (path : Path) :
    separator ∉ fileName path := not_mem_rtakeWhile separator path

theorem path_cases (path : Path) :
    (parentChars path = [] ∧ fileName path = path ∧ separator ∉ path) ∨
      path = parentChars path ++ separator :: fileName path := by
  by_cases hmem : separator ∈ path
  · obtain ⟨name, hpath, hname⟩ := eq_parentChars_append hmem
    have hfinal : fileName path = name := by
      rw [hpath]
      exact fileName_append hname
    rw [hfinal]
    exact .inr hpath
  · exact .inl ⟨parentChars_of_not_mem hmem, fileName_of_not_mem hmem, hmem⟩

theorem segments_eq (h : fileName path ≠ []) :
    segments separator path = segments separator (parentChars path) ++ [fileName path] := by
  rcases path_cases path with ⟨hparent, hname, hmem⟩ | hpath
  · rw [hparent, hname, segments_nil, nil_append]
    exact segments_eq_singleton hmem (hname ▸ h)
  · have hfinal := segments_eq_singleton (not_mem_fileName path) h
    calc segments separator path
        = segments separator (parentChars path ++ separator :: fileName path) := by rw [← hpath]
      _ = segments separator (parentChars path) ++ [fileName path] := by
        rw [segments_append, hfinal]

theorem fileName_spell (h : Pieces separator (names ++ [name])) :
    fileName (spell (names ++ [name])) = name := by
  have hsep : separator ∉ name := (h name (by simp)).2
  by_cases hnil : names = []
  · rw [hnil, nil_append, spell, intercalate_singleton]
    exact fileName_of_not_mem hsep
  · rw [spell_concat hnil]
    exact fileName_append hsep

theorem parentChars_spell (h : Pieces separator (names ++ [name])) :
    parentChars (spell (names ++ [name])) = spell names := by
  have hsep : separator ∉ name := (h name (by simp)).2
  by_cases hnil : names = []
  · rw [hnil, nil_append, spell, intercalate_singleton]
    exact parentChars_of_not_mem hsep
  · rw [spell_concat hnil]
    exact parentChars_append hsep

theorem isUnder_nil (path : Path) : isUnder [] path = true := if_pos rfl

theorem isUnder_iff {root full : Path} (h : root ≠ []) : isUnder root full = true ↔
    full = trimEnd root ∨ ∃ rest, full = trimEnd root ++ separator :: rest := by
  unfold isUnder
  rw [if_neg h, Bool.and_eq_true, isPrefixOf_iff_prefix]
  constructor
  · rintro ⟨⟨rest, rfl⟩, hrest⟩
    rw [drop_left] at hrest
    cases rest with
    | nil => exact .inl (append_nil _)
    | cons c rest => exact .inr ⟨rest, by rw [of_decide_eq_true hrest]⟩
  · rintro (rfl | ⟨rest, rfl⟩)
    · exact ⟨prefix_refl _, by rw [drop_length]⟩
    · exact ⟨prefix_append _ _, by rw [drop_left]; exact decide_eq_true rfl⟩

theorem isUnder_spell (h : Pieces separator names) (hne : names ≠ []) :
    isUnder (spell names) path = true ↔
      path = spell names ∨ ∃ rest, path = spell names ++ separator :: rest := by
  have hspell : spell names ≠ [] := fun hnil => hne ((spell_eq_nil h).mp hnil)
  rw [isUnder_iff hspell, trimEnd_spell h]

end Dctl.Cli.Paths
