import Dctl.ProofKit.Components
import Dctl.ProofKit.Disk
import Dctl.ProofKit.Text

/-! Names as a file system has them, the text that the program makes of them, and the path that a
text stands for. -/

namespace Dctl.Store

open ProofKit List

abbrev Name := Bytes

def separator : UInt8 := 47

/-- How many bytes follow a first byte of UTF-8, and the bounds of the first of them. -/
def continuation (b : UInt8) : Option (Nat × UInt8 × UInt8) :=
  if 0xc2 ≤ b ∧ b ≤ 0xdf then some (1, 0x80, 0xbf)
  else if b = 0xe0 then some (2, 0xa0, 0xbf)
  else if b = 0xed then some (2, 0x80, 0x9f)
  else if 0xe1 ≤ b ∧ b ≤ 0xef then some (2, 0x80, 0xbf)
  else if b = 0xf0 then some (3, 0x90, 0xbf)
  else if 0xf1 ≤ b ∧ b ≤ 0xf3 then some (3, 0x80, 0xbf)
  else if b = 0xf4 then some (3, 0x80, 0x8f)
  else none

def continued (count : Nat) (low high : UInt8) : Bytes → Nat
  | [] => 0
  | b :: rest =>
    if 0 < count ∧ low ≤ b ∧ b ≤ high then continued (count - 1) 0x80 0xbf rest + 1 else 0

def firstChar (b : UInt8) (rest : Bytes) : Nat × Bool :=
  if b < 0x80 then (0, true)
  else match continuation b with
    | none => (0, false)
    | some (count, low, high) =>
      let n := continued count low high rest
      (n, n = count)

/-- Decode UTF-8, with a replacement character for each longest part that is none. -/
def lossyText : Bytes → String
  | [] => ""
  | b :: rest =>
    let first := firstChar b rest
    (if first.2 then (fromUtf8 (b :: rest.take first.1)).getD "" else "\uFFFD") ++
      lossyText (rest.drop first.1)
termination_by bs => bs.length

def toStringLossy (bs : Bytes) : String := (fromUtf8 bs).getD (lossyText bs)

theorem toStringLossy_utf8 (s : String) : toStringLossy (utf8 s) = s := by
  rw [toStringLossy, fromUtf8_eq_some.mpr rfl, Option.getD_some]

def joinNames (names : List Name) : Bytes := [separator].intercalate names

def hopOf (component : List Char) : Option (Hop Name) :=
  if component = [] ∨ component = ['.'] then none
  else if component = ['.', '.'] then some .up
  else some (.name (utf8 (String.ofList component)))

def components (path : List Char) : List (Hop Name) := (path.splitOn '/').filterMap hopOf

def pathHops (path : String) : List (Hop Name) :=
  if path.toList.head? = some '/' then .root :: components path.toList else components path.toList

theorem components_append (a b : List Char) :
    components (a ++ '/' :: b) = components a ++ components b := by
  rw [components, splitOn_append_cons_self, filterMap_append]
  rfl

/-- A text that a name can have. -/
structure IsComponent (s : String) : Prop where
  nonempty : s ≠ ""
  notHere : s ≠ "."
  notUp : s ≠ ".."
  whole : '/' ∉ s.toList

def pathText (ss : List String) : String := String.ofList (['/'].intercalate (ss.map String.toList))

theorem pathText_nil : pathText [] = "" := rfl

theorem toList_pathText (ss : List String) :
    (pathText ss).toList = ['/'].intercalate (ss.map String.toList) := String.toList_ofList

theorem pathText_singleton (s : String) : pathText [s] = s := by
  apply String.toList_injective
  rw [toList_pathText]
  simp [List.intercalate]

theorem pathText_concat {ss : List String} (s : String) (h : ss ≠ []) :
    pathText (ss ++ [s]) = pathText ss ++ "/" ++ s := by
  apply String.toList_injective
  rw [toList_pathText, map_append, map_singleton, intercalate_concat (by simpa using h)]
  simp [toList_pathText]

theorem joinNames_utf8 (ss : List String) : joinNames (ss.map utf8) = utf8 (pathText ss) := by
  induction ss using List.reverseRecOn with
  | nil => rfl
  | append_singleton ss s ih =>
    by_cases h : ss = []
    · subst h
      rw [nil_append, pathText_singleton]
      simp [joinNames, List.intercalate]
    · rw [pathText_concat s h, utf8_append, utf8_append, ← ih, joinNames, map_append,
        map_singleton, intercalate_concat (by simpa using h), append_assoc]
      rfl

section Components

variable {s : String} {ss tt : List String}

theorem IsComponent.hopOf (h : IsComponent s) : hopOf s.toList = some (.name (utf8 s)) := by
  rw [Store.hopOf, if_neg, if_neg, String.ofList_toList]
  · intro hup
    exact h.notUp (String.toList_injective hup)
  · rintro (hempty | hhere)
    · exact h.nonempty (String.toList_injective hempty)
    · exact h.notHere (String.toList_injective hhere)

theorem IsComponent.components (h : IsComponent s) : components s.toList = [.name (utf8 s)] := by
  rw [Store.components, splitOn_eq_singleton h.whole, filterMap_cons, h.hopOf]
  rfl

section

variable (h : ∀ s ∈ ss, IsComponent s)
include h

theorem components_pathText : components (pathText ss).toList = ss.map fun s => .name (utf8 s) := by
  induction ss using List.reverseRecOn with
  | nil => rfl
  | append_singleton ss s ih =>
    have hs := h s (by simp)
    have hss := ih fun t ht => h t (mem_append_left _ ht)
    by_cases hempty : ss = []
    · subst hempty
      rw [nil_append, pathText_singleton, hs.components]
      rfl
    · rw [pathText_concat s hempty, String.toList_append, String.toList_append, append_assoc]
      show components ((pathText ss).toList ++ '/' :: s.toList) = _
      rw [components_append, hss, hs.components, map_append]
      rfl

theorem head?_pathText : (pathText ss).toList.head? ≠ some '/' := by
  cases ss with
  | nil => simp [pathText_nil]
  | cons s ss =>
    have hs := h s mem_cons_self
    intro hhead
    have hmem : '/' ∈ s.toList := by
      rw [toList_pathText, map_cons] at hhead
      cases hchars : s.toList with
      | nil => exact absurd (String.toList_injective hchars) hs.nonempty
      | cons c cs =>
        rw [hchars] at hhead
        cases ss with
        | nil => simp_all [List.intercalate]
        | cons t ss => simp_all [List.intercalate]
    exact hs.whole hmem

theorem pathHops_pathText : pathHops (pathText ss) = ss.map fun s => .name (utf8 s) := by
  rw [pathHops, if_neg (head?_pathText h), components_pathText h]

end

theorem pathText_injective (hs : ∀ s ∈ ss, IsComponent s) (ht : ∀ s ∈ tt, IsComponent s)
    (h : pathText ss = pathText tt) : ss = tt := by
  have hmap : ss.map (fun s => Hop.name (utf8 s)) = tt.map fun s => Hop.name (utf8 s) := by
    rw [← pathHops_pathText hs, h, pathHops_pathText ht]
  refine map_injective_iff.mpr ?_ hmap
  intro a b hab
  exact utf8_injective (Hop.name.inj hab)

end Components

end Dctl.Store
