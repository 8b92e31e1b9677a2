import Dctl.Cli.Paths
import Mathlib.Data.Char
import Mathlib.Data.List.Dedup
import Mathlib.Data.List.Sort
import Dctl.Cli.Error

/-! The directories that a set of paths implies (`removal/dirs.rs`): an object's path lies in some,
and a marker object declares one.  Which objects and directory markers each removal verb selects, in
removal order (`removal/selection.rs`). -/

namespace Dctl.Removal

open ProofKit Index Cli.Paths List

local instance : LawfulBEq Path := inferInstance

def directoryMarkerName : Path := ['.', 'd', 'c', 't', 'l', '-', 'd', 'i', 'r']

def markerPath (directory : Path) : Path :=
  if directory = [] then directoryMarkerName else directory ++ separator :: directoryMarkerName

def isMarker (path : Path) : Bool := fileName path = directoryMarkerName

def directoryOfMarker (path : Path) : Option Path :=
  if isMarker path then some (parentChars path) else none

def ordered (paths : List Path) : List Path := paths.dedup.insertionSort (· ≤ ·)

def depth (path : Path) : Nat := (segments separator path).length

def deeper (left right : Path) : Prop :=
  depth right < depth left ∨ depth left = depth right ∧ left ≤ right

instance : DecidableRel deeper := fun left right =>
  inferInstanceAs (Decidable (depth right < depth left ∨ depth left = depth right ∧ left ≤ right))

def sortDeepestFirst (paths : List Path) : List Path := paths.insertionSort deeper

structure Directories where
  objects : List Path
  markers : List Path

namespace Directories

def fromPaths (paths : List Path) : Directories where
  objects := ordered (paths.filter (!isMarker ·))
  markers := ordered (paths.filterMap directoryOfMarker)

def firstObjectUnder (s : Directories) (directory : Path) : Option Path :=
  if directory = [] then s.objects.head?
  else
    (s.objects.find? fun o => decide (directory ++ [separator] ≤ o)).filter
      ((directory ++ [separator]).isPrefixOf ·)

def holdsObject (s : Directories) (directory : Path) : Bool := (s.firstObjectUnder directory).isSome

def isEmpty (s : Directories) (directory : Path) : Bool := !s.holdsObject directory

def existsAt (s : Directories) (directory : Path) : Bool :=
  directory ∈ s.markers || s.markers.any (isUnder directory) || s.holdsObject directory

def subdirectories (s : Directories) (directory : Path) : List Path :=
  sortDeepestFirst (s.markers.filter fun d => d ≠ directory && isUnder directory d)

def declaredAtOrBelow (s : Directories) (directory : Path) : List Path :=
  sortDeepestFirst (s.markers.filter (isUnder directory))

def isDeclared (s : Directories) (directory : Path) : Bool := directory ∈ s.markers

end Directories

section

variable {paths : List Path} {path dir : Path}

theorem not_mem_directoryMarkerName : separator ∉ directoryMarkerName := by decide

theorem parentChars_markerPath (dir : Path) : parentChars (markerPath dir) = dir := by
  unfold markerPath
  split
  next h => rw [h, parentChars_of_not_mem not_mem_directoryMarkerName]
  next => exact parentChars_append not_mem_directoryMarkerName

theorem isMarker_markerPath (dir : Path) : isMarker (markerPath dir) = true := by
  unfold isMarker markerPath
  refine decide_eq_true ?_
  split
  · exact fileName_of_not_mem not_mem_directoryMarkerName
  · exact fileName_append not_mem_directoryMarkerName

theorem markerPath_injective : Function.Injective markerPath := fun d d' h => by
  rw [← parentChars_markerPath d, h, parentChars_markerPath]

theorem markerPath_parentChars (h : isMarker path = true) :
    markerPath (parentChars path) = path ∨ path = separator :: directoryMarkerName := by
  have hname : fileName path = directoryMarkerName := of_decide_eq_true h
  rcases path_cases path with ⟨hparent, hfinal, -⟩ | hpath
  · rw [hparent, ← hfinal, hname]
    exact .inl rfl
  · by_cases hnil : parentChars path = []
    · rw [hnil, hname] at hpath
      exact .inr hpath
    · rw [markerPath, if_neg hnil, ← hname]
      exact .inl hpath.symm

theorem mem_ordered : path ∈ ordered paths ↔ path ∈ paths := by
  unfold ordered
  rw [(perm_insertionSort _ _).mem_iff, mem_dedup]

theorem nodup_ordered : (ordered paths).Nodup :=
  (perm_insertionSort _ _).nodup_iff.mpr (nodup_dedup _)

theorem mem_objects :
    path ∈ (Directories.fromPaths paths).objects ↔ path ∈ paths ∧ isMarker path = false := by
  simp [Directories.fromPaths, mem_ordered]

theorem mem_markers : dir ∈ (Directories.fromPaths paths).markers ↔
    ∃ path ∈ paths, isMarker path = true ∧ parentChars path = dir := by
  simp [Directories.fromPaths, mem_ordered, directoryOfMarker]

/-- Strictly below a directory: behind its name and a separator. -/
def Below (dir path : Path) : Prop :=
  if dir = [] then path ≠ [] else dir ++ [separator] <+: path

instance : DecidableRel Below := fun dir path =>
  inferInstanceAs (Decidable (if dir = [] then path ≠ [] else dir ++ [separator] <+: path))

theorem below_of_ne (h : dir ≠ []) : Below dir path ↔ dir ++ [separator] <+: path := by
  rw [Below, if_neg h]

theorem Below.ne (h : Below dir path) : path ≠ dir := by
  unfold Below at h
  split at h
  next hnil => rwa [hnil]
  next =>
    rintro rfl
    have := h.length_le
    simp at this

theorem Below.ne_nil (h : Below dir path) : path ≠ [] := by
  unfold Below at h
  split at h
  · exact h
  · rintro rfl
    simp at h

theorem Below.trans {low : Path} (h : Below dir path) (h' : Below path low) : Below dir low := by
  have hlow := h'.ne_nil
  unfold Below
  split
  · exact hlow
  next hdir =>
    exact ((below_of_ne hdir).mp h).trans ((prefix_append _ _).trans ((below_of_ne h.ne_nil).mp h'))

theorem find_range {pre : Path} {l : List Path} (hl : l.Pairwise (· ≤ ·)) :
    ((l.find? fun o => decide (pre ≤ o)).filter (pre.isPrefixOf ·)).isSome = true ↔
      ∃ o ∈ l, pre <+: o := by
  induction l with
  | nil => simp
  | cons first l ih =>
    rw [pairwise_cons] at hl
    rw [List.find?_cons]
    by_cases hle : pre ≤ first
    · rw [decide_eq_true hle, Option.isSome_filter]
      simp only [Option.any_some, isPrefixOf_iff_prefix]
      refine ⟨fun h => ⟨first, mem_cons_self, h⟩, ?_⟩
      rintro ⟨o, ho, hpre⟩
      rcases mem_cons.mp ho with rfl | ho
      · exact hpre
      · rcases eq_or_lt_of_le hle with rfl | hlt
        · exact prefix_refl _
        · rcases eq_or_lt_of_le (hl.1 o ho) with rfl | hlt'
          · exact hpre
          · exact isPrefix_of_between (prefix_refl pre) hpre hlt hlt'
    · rw [decide_eq_false hle, ih hl.2]
      refine ⟨fun ⟨o, ho, hpre⟩ => ⟨o, mem_cons_of_mem _ ho, hpre⟩, ?_⟩
      rintro ⟨o, ho, hpre⟩
      rcases mem_cons.mp ho with rfl | ho
      · exact absurd (not_lt.mp (List.IsPrefix.le hpre)) hle
      · exact ⟨o, ho, hpre⟩

theorem ordered_ascending (paths : List Path) : (ordered paths).Pairwise (· ≤ ·) :=
  pairwise_insertionSort _ _

theorem holdsObject_iff (h : dir ≠ []) : (Directories.fromPaths paths).holdsObject dir = true ↔
    ∃ path ∈ paths, isMarker path = false ∧ Below dir path := by
  unfold Directories.holdsObject Directories.firstObjectUnder
  rw [if_neg h]
  refine (find_range (ordered_ascending (paths.filter (!isMarker ·)))).trans ?_
  simp [mem_ordered, below_of_ne h, and_assoc]

theorem holdsObject_root (h : dir = []) : (Directories.fromPaths paths).holdsObject dir = true ↔
    ∃ path ∈ paths, isMarker path = false := by
  unfold Directories.holdsObject Directories.firstObjectUnder
  rw [if_pos h, isSome_head?]
  simp only [← mem_objects]
  cases (Directories.fromPaths paths).objects <;> simp

end

open Index Cli

inductive ItemKind where
  | object
  | directory
  deriving DecidableEq, Repr

structure Item where
  path : Path
  size : Option Nat
  kind : ItemKind
  deriving DecidableEq

/-- Everything that one removal resolved to, in removal order. -/
structure Selection where
  items : List Item
  considered : Nat
  deriving DecidableEq

/-- What a command asks to remove.  What `cleanup` sweeps is not selected here. -/
inductive Operation where
  | delete (rmdirs : Bool)
  | deleteFile
  | purge
  | rmdir
  | rmdirs (leaveRoot : Bool)
  | cleanup
  deriving DecidableEq

/-- A remote and a logical path in it, as cleaning leaves it: names joined by separators. -/
structure Target where
  remote : String
  path : Path
  clean : ∃ names, Pieces separator names ∧ path = spell names

def Target.isRoot (t : Target) : Bool := t.path = []

def Target.display (t : Target) : String := t.remote ++ ":" ++ String.ofList t.path

structure Listing (dir : Path) where
  entries : List Entry
  ascending : entries.Pairwise fun e e' => e.path < e'.path
  under : ∀ e ∈ entries, isUnder dir e.path = true

def Listing.paths {dir : Path} (l : Listing dir) : List Path := l.entries.map Entry.path

def removalNotEmptyHint : String :=
  "Use `dctl purge` to remove a directory and everything in it, or `dctl delete` to remove the " ++
    "objects and leave the structure standing."

def objectItem (e : Entry) : Item := ⟨e.path, e.size, .object⟩

def markerItem (directory : Path) : Item := ⟨markerPath directory, some 0, .directory⟩

def kindOf (path : Path) : ItemKind := if isMarker path then .directory else .object

def surviving (selects : Entry → Bool) (entries : List Entry) : List Path :=
  (entries.filter fun e => isMarker e.path || !selects e).map Entry.path

/-- `delete`: the objects that the filters select, and on request the directories that removing them
empties. -/
def delete (selects : Entry → Bool) (target : Target) (entries : List Entry) (before : Directories)
    (rmdirs : Bool) : List Item :=
  let removed := (entries.filter fun e => !isMarker e.path && selects e).map objectItem
  if rmdirs then
    let after := Directories.fromPaths (surviving selects entries)
    -- Never the target root, and never a directory that was empty before the run.
    removed ++ ((after.declaredAtOrBelow target.path).filter fun directory =>
      directory ≠ target.path && (after.isEmpty directory && before.holdsObject directory)).map
        markerItem
  else removed

def deleteFile (target : Target) (entries : List Entry) : Except CliError (List Item) :=
  match entries.find? fun e => e.path = target.path with
  | none =>
    if entries.isEmpty then
      .error ⟨.fileNotFound, "'" ++ target.display ++ "' does not exist",
        some "Check the path with `dctl ls`, then name the object exactly."⟩
    else
      .error
        ((CliError.ofUsage ("'" ++ target.display ++ "' is a directory, not an object")).withHint
        ("Use `dctl rmdir` for an empty directory, or `dctl purge` to remove a directory and " ++
          "everything in it."))
  | some exact => .ok [⟨exact.path, exact.size, kindOf exact.path⟩]

/-- `purge`: the target and everything beneath it, markers included. -/
def purge (target : Target) (entries : List Entry) (structured : Directories) :
    Except CliError (List Item) :=
  if entries.isEmpty && !target.isRoot then
    .error ⟨.dirNotFound, "'" ++ target.display ++ "' does not exist",
      some "There is nothing stored under this path, so there is nothing to purge."⟩
  else
    .ok ((entries.filter fun e => !isMarker e.path).map objectItem ++
      (structured.declaredAtOrBelow target.path).map markerItem)

def rmdir (target : Target) (structured : Directories) : Except CliError (List Item) :=
  if structured.existsAt target.path then
    match structured.firstObjectUnder target.path with
    | some occupant =>
      .error ((CliError.ofUsage ("'" ++ target.display ++ "' is not empty: it holds '" ++
        String.ofList occupant ++ "'")).withHint removalNotEmptyHint)
    | none =>
      match structured.subdirectories target.path with
      | child :: _ =>
        .error ((CliError.ofUsage ("'" ++ target.display ++ "' is not empty: it holds '" ++
          String.ofList child ++ "'")).withHint
          ("Remove the directories inside it first, or use `dctl rmdirs` to sweep every empty " ++
            "directory under a path."))
      | [] => .ok (if structured.isDeclared target.path then [markerItem target.path] else [])
  else
    .error ⟨.dirNotFound, "'" ++ target.display ++ "' does not exist",
      some
        ("A directory holding no objects is not stored anywhere, so a vault cannot tell it from " ++
        "one that was never created. `dctl mkdir` is what makes an empty directory exist.")⟩

def rmdirs (target : Target) (structured : Directories) (leaveRoot : Bool) : List Item :=
  (((structured.declaredAtOrBelow target.path).filter fun directory =>
    !(leaveRoot && directory = target.path)).filter structured.isEmpty).map markerItem

/-- Resolve the operation against the listing into the exact set that it removes. -/
def select (selects : Entry → Bool) (target : Target) (listing : Listing target.path)
    (op : Operation) :
    Except CliError Selection :=
  let structured := Directories.fromPaths listing.paths
  let selection (items : List Item) : Selection := ⟨items, listing.entries.length⟩
  match op with
  | .cleanup => .ok ⟨[], 0⟩
  | .delete sweep => .ok (selection (delete selects target listing.entries structured sweep))
  | .deleteFile => (deleteFile target listing.entries).map selection
  | .purge => (purge target listing.entries structured).map selection
  | .rmdir => (rmdir target structured).map selection
  | .rmdirs leaveRoot => .ok (selection (rmdirs target structured leaveRoot))

end Dctl.Removal
