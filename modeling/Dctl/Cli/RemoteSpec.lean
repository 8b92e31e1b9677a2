import Dctl.ProofKit.Components
import Dctl.Cli.Error

/-! Logical paths (`platform/path.rs`), a parsed command-line argument (`remote/spec.rs`), the
container and the name it stands for (`transfer/endpoint.rs`), and the components of a path of this
machine. -/

namespace Dctl.Cli

open ProofKit

def pathSeparator : Char := '/'

def logicalPathSeparators : List Char := ['/', '\\']

namespace LogicalPath

def join (dir component : String) : String :=
  if dir = "" then component else dir ++ pathSeparator.toString ++ component

def fileName (path : String) : String :=
  match (suffixesAt pathSeparator path.toList).getLast? with
  | some name => String.ofList name
  | none => path

def prefixes (path : String) : List String :=
  (prefixesAt pathSeparator path.toList).map String.ofList

def suffixes (path : String) : List String :=
  (suffixesAt pathSeparator path.toList).map String.ofList

/-- A name between separators. -/
def Component (name : String) : Prop := name ≠ "" ∧ pathSeparator ∉ name.toList

variable {dir name : String}

theorem toList_join (hd : dir ≠ "") :
    (join dir name).toList = dir.toList ++ pathSeparator :: name.toList := by
  rw [join, if_neg hd]
  simp [Char.toString]

theorem prefixes_of_component (h : Component name) : prefixes name = [] := by
  rw [prefixes, prefixesAt_of_not_mem h.2]
  rfl

theorem prefixes_join (hd : dir ≠ "") (h : Component name) :
    prefixes (join dir name) = prefixes dir ++ [dir] := by
  rw [prefixes, toList_join hd, prefixesAt_append h.2]
  simp [prefixes]

theorem join_ne_empty (h : Component name) : join dir name ≠ "" := by
  by_cases hd : dir = ""
  · rw [join, if_pos hd]
    exact h.1
  · intro he
    have : (join dir name).toList = dir.toList ++ pathSeparator :: name.toList := toList_join hd
    rw [he] at this
    simp at this

end LogicalPath

end Dctl.Cli

namespace Dctl.Cli

namespace OsPath

def rootDir : String := pathSeparator.toString

/-- The components of a path: repeated separators and `.` count for nothing, but a leading `.` of a
relative path stays. -/
def components (path : String) : List String :=
  let parts := (path.toList.splitOn pathSeparator).map String.ofList
  let body := parts.filter fun part => part ≠ "" && part ≠ "."
  if path.toList.head? = some pathSeparator then rootDir :: body
  else if parts.head? = some "." then "." :: body
  else body

def fileName (path : String) : Option String :=
  (components path).getLast?.filter fun last => last ≠ rootDir && last ≠ "." && last ≠ ".."

def ofComponents : List String → String
  | [] => ""
  | first :: rest =>
    if first = rootDir then rootDir ++ rootDir.intercalate rest
    else rootDir.intercalate (first :: rest)

def parent (path : String) : Option String :=
  let all := components path
  if all.getLast?.any (· ≠ rootDir) then some (ofComponents all.dropLast) else none

end OsPath

def LogicalPath.parent (path : String) : String := ((prefixes path).getLast?).getD ""

inductive RemoteSpec where
  | «local» (path : String)
  | named (remote path : String)
  deriving DecidableEq, Repr

def remoteSeparator : String := ":"

namespace RemoteSpec

def localPath : RemoteSpec → Option String
  | .local path => some path
  | .named .. => none

def display : RemoteSpec → String
  | .local path => path
  | .named remote path => remote ++ remoteSeparator ++ path

def same : RemoteSpec → RemoteSpec → Bool
  | .local a, .local b => OsPath.components a = OsPath.components b
  | .named r p, .named r' p' => r = r' && p = p'
  | _, _ => false

def leaf (normalize : String → String) : RemoteSpec → String
  | .local path => ((OsPath.fileName path).map normalize).getD ""
  | .named _ path => if path = "" then "" else LogicalPath.fileName path

def parent : RemoteSpec → RemoteSpec
  | .local path => .local (((OsPath.parent path).filter (· ≠ "")).getD ".")
  | .named remote path => .named remote (LogicalPath.parent path)

end RemoteSpec

example : OsPath.components "/srv//./vault/" = ["/", "srv", "vault"] := by decide

example : (RemoteSpec.named "vault" "archive/2024.tar").parent = .named "vault" "archive" := by
  decide

end Dctl.Cli
