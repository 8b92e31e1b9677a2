import Dctl.ProofKit.Walk
import Dctl.Store.Error
import Dctl.Store.NativeName
import Dctl.Transfer.Listing
import Mathlib.Data.Set.Finite.Basic

/-! What the two walks of a file system share: the tree that they walk (`local/tree.rs`,
`sftp/tree.rs`), what they report of it (`links/`, `specials/`), and which files they are asked for
(`staging.rs`). -/

namespace Dctl.Store

open ProofKit Transfer List

inductive SpecialKind where
  | fifo
  | socket
  | charDevice
  | blockDevice
  | unknown
  deriving DecidableEq, Repr

inductive Leaf where
  | regular (size : Nat) (modified : Option Int)
  | special (kind : SpecialKind)
  deriving DecidableEq, Repr

inductive EntryType where
  | symlink
  | dir
  | file
  | special
  deriving DecidableEq, Repr

def entryType : DiskNode Name Leaf → EntryType
  | .link _ => .symlink
  | .dir => .dir
  | .file (.regular ..) => .file
  | .file (.special _) => .special

/-- A name of a directory entry. -/
structure ValidName (n : Name) : Prop where
  nonempty : n ≠ []
  notHere : n ≠ utf8 "."
  notUp : n ≠ utf8 ".."
  whole : separator ∉ n

/-- A finite file system: what has an entry is a directory. -/
structure Tree where
  disk : Disk Name Leaf
  top : disk [] = some .dir
  parent : ∀ place n, disk (place ++ [n]) ≠ none → disk place = some .dir
  valid : ∀ place n, disk (place ++ [n]) ≠ none → ValidName n
  finite : {place | disk place ≠ none}.Finite

namespace Tree

variable (t : Tree)

/-- The names lead from the root to the place, over links. -/
def Leads (root : List Name) (names : List Name) (place : List Name) : Prop :=
  ∃ via, Disk.Leads t.disk root (names.map .name) via place

variable {t} {root names place place' : List Name} {n : Name}

theorem Leads.unique (h : t.Leads root names place) (h' : t.Leads root names place') :
    place = place' := by
  obtain ⟨via, h⟩ := h
  obtain ⟨via', h'⟩ := h'
  exact (h.unique h').2

theorem leads_nil : t.Leads root [] root := ⟨[], .done root⟩

theorem Leads.concat (h : t.Leads root names place)
    (hno : ∀ target, t.disk (place ++ [n]) ≠ some (.link target)) :
    t.Leads root (names ++ [n]) (place ++ [n]) := by
  obtain ⟨via, h⟩ := h
  refine ⟨via ++ [], ?_⟩
  rw [map_append]
  exact h.append (.name hno (.done _))

section

variable {place' : List Name} (h : t.disk place' ≠ none) (hle : place <+: place')
include h hle

theorem exists_of_prefix : t.disk place ≠ none := by
  obtain ⟨rest, rfl⟩ := hle
  induction rest using List.reverseRecOn with
  | nil => rwa [append_nil] at h
  | append_singleton rest n ih =>
    rw [← append_assoc] at h
    apply ih
    rw [t.parent _ _ h]
    exact Option.some_ne_none _

theorem dir_of_prefix (hne : place ≠ place') : t.disk place = some .dir := by
  obtain ⟨rest, rfl⟩ := hle
  cases rest with
  | nil => exact absurd (append_nil _).symm hne
  | cons n rest =>
    apply t.parent place n
    apply exists_of_prefix h
    exact ⟨rest, by simp⟩

end

theorem leads_of_exists (h : t.disk (root ++ names) ≠ none)
    (hno : ∀ target, t.disk (root ++ names) ≠ some (.link target)) :
    t.Leads root names (root ++ names) := by
  induction names using List.reverseRecOn with
  | nil =>
    rw [append_nil]
    exact leads_nil
  | append_singleton names n ih =>
    rw [← append_assoc] at h hno ⊢
    have hdir := t.parent _ _ h
    have hhere := ih (by rw [hdir]; exact Option.some_ne_none _) (by rw [hdir]; exact nofun)
    exact hhere.concat hno

theorem mem_of_lookup {nodes : List (List Name × DiskNode Name Leaf)}
    (h : nodes.lookup place ≠ none) : place ∈ nodes.map Prod.fst := by
  by_contra hno
  refine h (lookup_eq_none_iff.mpr fun x hx => ?_)
  rw [bne_iff_ne]
  rintro rfl
  exact hno (mem_map_of_mem hx)

/-- The file system that holds these entries. -/
def ofNodes (nodes : List (List Name × DiskNode Name Leaf)) (htop : nodes.lookup [] = some .dir)
    (hparent : ∀ q ∈ nodes.map Prod.fst, q ≠ [] → nodes.lookup q.dropLast = some .dir)
    (hvalid : ∀ q ∈ nodes.map Prod.fst, ∀ n ∈ q,
      n ≠ [] ∧ n ≠ utf8 "." ∧ n ≠ utf8 ".." ∧ separator ∉ n) : Tree where
  disk place := nodes.lookup place
  top := htop
  parent place n h := by
    have hdir := hparent _ (mem_of_lookup h) (by simp)
    rwa [dropLast_concat] at hdir
  valid place n h := by
    obtain ⟨hnonempty, hnotHere, hnotUp, hwhole⟩ := hvalid _ (mem_of_lookup h) n (by simp)
    exact ⟨hnonempty, hnotHere, hnotUp, hwhole⟩
  finite := (finite_toSet (nodes.map Prod.fst)).subset fun _ h => mem_of_lookup h

end Tree

inductive Want where
  | objects
  | staging
  deriving DecidableEq, Repr

def stagingNamePrefix : String := ".dctl-staging."

def isStagingName (name : String) : Bool := stagingNamePrefix.toList.isPrefixOf name.toList

def lastComponent (key : String) : String :=
  String.ofList ((key.toList.splitOn '/').getLast?.getD key.toList)

def isStagingKey (key : String) : Bool := isStagingName (lastComponent key)

def Want.keeps : Want → String → Bool
  | .objects, key => !isStagingKey key
  | .staging, key => isStagingKey key

/-- The link policy of a walk.  The one for what was left staged follows no link. -/
def Want.links (policy : LinkPolicy) : Want → LinkPolicy
  | .objects => policy
  | .staging => .skip

/-- One thing a walk observes: an object, a link, or a file that is none.  The reports count all of
them and name the first. -/
inductive Finding (O : Type) where
  | object (o : O)
  | link (key : String) (verdict : LinkVerdict)
  | special (key : String) (kind : SpecialKind)
  deriving DecidableEq

namespace Finding

variable {O : Type}

def object? : Finding O → Option O
  | .object o => some o
  | _ => none

def objects (findings : List (Finding O)) : List O := findings.filterMap object?

theorem mem_objects {findings : List (Finding O)} {o : O} :
    o ∈ objects findings ↔ .object o ∈ findings := by
  rw [objects, mem_filterMap]
  constructor
  · rintro ⟨f, hf, ho⟩
    cases f with
    | object o' =>
      cases ho
      exact hf
    | link => cases ho
    | special => cases ho
  · exact fun h => ⟨_, h, rfl⟩

@[simp] theorem objects_append (a b : List (Finding O)) :
    objects (a ++ b) = objects a ++ objects b :=
  filterMap_append

end Finding

end Dctl.Store
