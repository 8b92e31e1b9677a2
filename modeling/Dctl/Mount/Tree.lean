import Mathlib.Data.Char
import Mathlib.Data.List.Sort
import Dctl.Listing.Dirs
import Dctl.Mount.Inode

/-! One directory of the mount, listed from a source (`mount/tree.rs`). -/

namespace Dctl.Mount

open ProofKit Index Cli.Paths Dctl.Listing

structure Child where
  name : Path
  path : Path
  kind : Kind
  size : Option Nat
  modifiedUnix : Option Int
  deriving DecidableEq

structure Children where
  files : List Entry
  dirs : List Path

def inOrder (children : List Child) : List Child :=
  children.insertionSort fun left right => left.name ≤ right.name

def fileChild (e : Entry) : Child := ⟨fileName e.path, e.path, .file, e.size, e.modifiedUnix⟩

def dirChild (path : Path) : Child := ⟨fileName path, path, .directory, none, none⟩

def assemble (children : Children) : List Child :=
  inOrder (children.files.map fileChild ++ children.dirs.map dirChild)

def group (entries : List Entry) (dir : Path) : List Child :=
  let below := (entries.filter fun e => isUnder dir e.path).map (ListEntry.fromSource · dir)
  let files := (below.filter fun e => e.parentComponents.isEmpty).map fun e =>
    (⟨fileName e.path, e.path, .file, e.size, e.modifiedUnix⟩ : Child)
  let dirs := Listing.collected fun _ _ emit => (Aggregator.new dir (some 1)).run emit below
  inOrder (files ++ (dirs.map Directory.path).map dirChild)

/-- What is mounted: a vault, whose index answers for a directory, or a plain store, which
enumerates. -/
inductive Source where
  | vault (stored : List Entry)
  | plain (stored : List Entry)

def vaultChildren (stored : List Entry) (dir : Path) : Children where
  files := stored.filter fun e => parentChars e.path = dir
  dirs :=
    (stored.flatMap fun e => ancestorsLoop [] e.path).dedup.filter fun d => parentChars d = dir

def Source.list : Source → Path → List Child
  | .vault stored, dir => assemble (vaultChildren stored dir)
  | .plain stored, dir => group stored dir

def Source.stored : Source → List Entry
  | .vault stored | .plain stored => stored

def child (listing : List Child) (name : Path) : Option Child :=
  listing.find? fun c => c.name = name

def readdirNames (listing : List Child) : List Path := ['.'] :: ['.', '.'] :: listing.map Child.name

def Source.lookup (source : Source) (parent : Path × Kind) (name : Path) : Option (Path × Kind) :=
  match parent with
  | (_, .file) => none
  | (dir, .directory) => (child (source.list dir) name).map fun c => (c.path, c.kind)

def Source.walk (source : Source) : Path × Kind → List Path → Option (Path × Kind)
  | place, [] => some place
  | place, name :: rest => (source.lookup place name).bind fun place => source.walk place rest

/-- What the root inode of a whole store stands for. -/
def rootPlace : Path × Kind := ([], .directory)

example : (Source.vault [⟨"a/b".toList, some 1, none⟩, ⟨"a.c".toList, some 2, none⟩]).walk rootPlace
    ["a".toList, "b".toList]
    = some ("a/b".toList, .file) := by decide
example : (Source.plain [⟨"a.c".toList, some 2, none⟩, ⟨"a/b".toList, some 1, none⟩]).walk rootPlace
    ["a".toList, "b".toList]
    = some ("a/b".toList, .file) := by decide

end Dctl.Mount
