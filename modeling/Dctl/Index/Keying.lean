import Mathlib.Data.List.Nodup
import Mathlib.Data.List.TakeWhile
import Dctl.ProofKit.Hex

/-! The path arithmetic of the index (`keying.rs`): the directory that holds a path, and every
directory above it. -/

namespace Dctl.Index

open ProofKit List

def separator : Char := '/'

def parentChars (path : List Char) : List Char :=
  ((path.reverse.dropWhile (· ≠ separator)).drop 1).reverse

def parentOf (path : String) : String := String.ofList (parentChars path.toList)

def ancestorsLoop (front : List Char) : List Char → List (List Char)
  | [] => []
  | c :: rest =>
    if c = separator ∧ front ≠ [] then front :: ancestorsLoop (front ++ [c]) rest
    else ancestorsLoop (front ++ [c]) rest

/-- Every directory that `path` lies beneath, outermost first, without the root. -/
def ancestorsOf (path : String) : List String := (ancestorsLoop [] path.toList).map String.ofList

def under (dir path : String) : Bool := (dir.toList ++ [separator]).isPrefixOf path.toList

def directlyIn (dir path : String) : Bool :=
  if dir = "" then !path.toList.contains separator
  else under dir path && !(path.toList.drop (dir.toList.length + 1)).contains separator

variable {dir path : String}

theorem under_iff :
    under dir path = true ↔ ∃ rest, path.toList = dir.toList ++ separator :: rest := by
  unfold under
  rw [List.isPrefixOf_iff_prefix]
  constructor
  · rintro ⟨rest, h⟩
    exact ⟨rest, by rw [← h, append_assoc, singleton_append]⟩
  · rintro ⟨rest, h⟩
    exact ⟨rest, by rw [h, append_assoc, singleton_append]⟩

theorem mem_ancestorsLoop {front path dir : List Char} :
    dir ∈ ancestorsLoop front path ↔
      dir ≠ [] ∧ ∃ a rest, path = a ++ separator :: rest ∧ dir = front ++ a := by
  induction path generalizing front with
  | nil => simp [ancestorsLoop]
  | cons c path ih =>
    -- The separator that ends a directory is the first character, or one behind it.
    have hsplit : (∃ a rest, c :: path = a ++ separator :: rest ∧ dir = front ++ a) ↔
        (c = separator ∧ dir = front) ∨
          ∃ a rest, path = a ++ separator :: rest ∧ dir = front ++ [c] ++ a := by
      constructor
      · rintro ⟨a, rest, hpath, rfl⟩
        cases a with
        | nil =>
          rw [nil_append, List.cons.injEq] at hpath
          exact .inl ⟨hpath.1, append_nil _⟩
        | cons x a =>
          rw [cons_append, List.cons.injEq] at hpath
          obtain ⟨rfl, rfl⟩ := hpath
          exact .inr ⟨a, rest, rfl, by simp⟩
      · rintro (⟨rfl, rfl⟩ | ⟨a, rest, rfl, rfl⟩)
        · exact ⟨[], path, rfl, by simp⟩
        · exact ⟨c :: a, rest, rfl, by simp⟩
    rw [hsplit]
    unfold ancestorsLoop
    split
    next h =>
      rw [mem_cons, ih]
      constructor
      · rintro (rfl | ⟨hne, hrest⟩)
        · exact ⟨h.2, .inl ⟨h.1, rfl⟩⟩
        · exact ⟨hne, .inr hrest⟩
      · rintro ⟨hne, ⟨-, rfl⟩ | hrest⟩
        · exact .inl rfl
        · exact .inr ⟨hne, hrest⟩
    next h =>
      rw [ih]
      constructor
      · rintro ⟨hne, hrest⟩
        exact ⟨hne, .inr hrest⟩
      · rintro ⟨hne, ⟨hc, rfl⟩ | hrest⟩
        · exact absurd ⟨hc, hne⟩ h
        · exact ⟨hne, hrest⟩

theorem length_le_of_mem_ancestorsLoop {front path dir : List Char}
    (h : dir ∈ ancestorsLoop front path) : front.length ≤ dir.length := by
  obtain ⟨-, a, -, -, rfl⟩ := mem_ancestorsLoop.mp h
  simp

theorem nodup_ancestorsLoop (front path : List Char) : (ancestorsLoop front path).Nodup := by
  induction path generalizing front with
  | nil => exact nodup_nil
  | cons c path ih =>
    unfold ancestorsLoop
    split
    · refine nodup_cons.mpr ⟨fun hmem => ?_, ih _⟩
      have hlen := length_le_of_mem_ancestorsLoop hmem
      simp at hlen
    · exact ih _

theorem mem_ancestorsOf : dir ∈ ancestorsOf path ↔ dir ≠ "" ∧ under dir path = true := by
  have hempty : dir.toList = [] ↔ dir = "" := by
    rw [← String.toList_inj]
    rfl
  unfold ancestorsOf
  rw [mem_map, under_iff]
  constructor
  · rintro ⟨cs, hcs, rfl⟩
    obtain ⟨hne, a, rest, hpath, rfl⟩ := mem_ancestorsLoop.mp hcs
    rw [← hempty.ne, String.toList_ofList]
    exact ⟨hne, rest, hpath⟩
  · rintro ⟨hne, rest, hpath⟩
    refine ⟨dir.toList, mem_ancestorsLoop.mpr ⟨hempty.ne.mpr hne, dir.toList, rest, hpath, ?_⟩,
      String.ofList_toList⟩
    rw [nil_append]

theorem nodup_ancestorsOf (path : String) : (ancestorsOf path).Nodup :=
  List.Nodup.map (fun _ _ h => String.ofList_inj.mp h) (nodup_ancestorsLoop [] path.toList)

theorem dropWhile_reverse {name : List Char} (h : separator ∉ name) :
    name.reverse.dropWhile (· ≠ separator) = [] := by
  rw [dropWhile_eq_nil_iff]
  intro c hc
  rw [mem_reverse] at hc
  exact decide_eq_true fun heq => h (heq ▸ hc)

theorem parentChars_of_not_mem {path : List Char} (h : separator ∉ path) :
    parentChars path = [] := by
  rw [parentChars, dropWhile_reverse h]
  rfl

theorem parentChars_append {dir name : List Char} (h : separator ∉ name) :
    parentChars (dir ++ separator :: name) = dir := by
  have hrev : (dir ++ separator :: name).reverse = name.reverse ++ separator :: dir.reverse := by
    simp
  rw [parentChars, hrev, dropWhile_append, dropWhile_reverse h, isEmpty_nil, if_pos rfl,
    dropWhile_cons_of_neg (by simp), drop_one, tail_cons, reverse_reverse]

theorem eq_parentChars_append {path : List Char} (h : separator ∈ path) :
    ∃ name, path = parentChars path ++ separator :: name ∧ separator ∉ name := by
  obtain ⟨name, dir, hrev, hname⟩ := eq_append_cons_of_mem (mem_reverse.mpr h)
  have hpath : path = dir.reverse ++ separator :: name.reverse := by
    rw [← reverse_reverse path, hrev]
    simp
  have hname' : separator ∉ name.reverse := fun hmem => hname (mem_reverse.mp hmem)
  refine ⟨name.reverse, ?_, hname'⟩
  rw [hpath, parentChars_append hname']

def Rooted (path : String) : Prop := path.toList.head? ≠ some separator

theorem not_under_empty {path : String} (h : Rooted path) : under "" path = false := by
  rw [← Bool.not_eq_true, under_iff]
  rintro ⟨rest, hpath⟩
  apply h
  rw [hpath]
  rfl

theorem Rooted.of_under (hne : dir ≠ "") (h : Rooted path) (hunder : under dir path = true) :
    Rooted dir := by
  obtain ⟨rest, hpath⟩ := under_iff.mp hunder
  unfold Rooted at h ⊢
  cases hdir : dir.toList with
  | nil => exact absurd (String.toList_inj.mp hdir) hne
  | cons c cs =>
    rw [hpath, hdir] at h
    exact h

theorem parentOf_eq_iff (h : Rooted path) : parentOf path = dir ↔ directlyIn dir path = true := by
  unfold parentOf directlyIn
  rw [← String.toList_inj, String.toList_ofList]
  by_cases hdir : dir = ""
  · rw [if_pos hdir, hdir]
    simp only [Bool.not_eq_true', contains_eq_mem, decide_eq_false_iff_not]
    constructor
    · intro hparent hmem
      obtain ⟨name, hpath, -⟩ := eq_parentChars_append hmem
      apply h
      rw [hpath, hparent]
      rfl
    · intro hmem
      rw [parentChars_of_not_mem hmem]
      rfl
  · rw [if_neg hdir]
    simp only [Bool.and_eq_true, under_iff, Bool.not_eq_true', contains_eq_mem,
      decide_eq_false_iff_not]
    have hdrop : ∀ {rest : List Char}, path.toList = dir.toList ++ separator :: rest →
        path.toList.drop (dir.toList.length + 1) = rest := by
      intro rest hpath
      rw [hpath, ← drop_drop, drop_left]
      rfl
    constructor
    · intro hparent
      have hmem : separator ∈ path.toList := by
        by_contra hnot
        rw [parentChars_of_not_mem hnot] at hparent
        exact hdir (String.toList_inj.mp hparent.symm)
      obtain ⟨name, hpath, hname⟩ := eq_parentChars_append hmem
      rw [hparent] at hpath
      exact ⟨⟨name, hpath⟩, by rwa [hdrop hpath]⟩
    · rintro ⟨⟨rest, hpath⟩, hname⟩
      rw [hdrop hpath] at hname
      rw [hpath, parentChars_append hname]

theorem parentOf_eq_or_under (path : String) :
    parentOf path = "" ∨ under (parentOf path) path = true := by
  by_cases hmem : separator ∈ path.toList
  · obtain ⟨name, hpath, -⟩ := eq_parentChars_append hmem
    refine .inr (under_iff.mpr ⟨name, ?_⟩)
    rw [parentOf, String.toList_ofList]
    exact hpath
  · left
    rw [parentOf, parentChars_of_not_mem hmem]

example : ancestorsOf "a/b/c.txt" = ["a", "a/b"] ∧ parentOf "a/b/c.txt" = "a/b" := by decide

end Dctl.Index
