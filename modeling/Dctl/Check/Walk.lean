import Dctl.Transfer.Listing
import Dctl.Cli.Paths

/-! How `check` compares what two sides hold at one path (`check/difference.rs`, `check/mod.rs`),
under the flags that a transfer reads as well (`cli/window.rs`), the two trees that it reads
(`check/side.rs`), and the walk over both at once (`check/walk.rs`). -/

namespace Dctl.Check

open Cli ProofKit Transfer

structure GlobalArgs where
  checksum : Bool
  sizeOnly : Bool
  modifyWindow : Nat
  deriving DecidableEq, Repr

def minModifyWindowSecs : Nat := 1

def modifyWindowTooSmallHint : String :=
  "Use --modify-window 1 or wider, or --checksum to compare contents instead of times."

def resolveWindow (globals : GlobalArgs) : Except CliError Nat :=
  if globals.modifyWindow < minModifyWindowSecs then
    .error ((CliError.ofUsage ("--modify-window " ++ globals.modifyWindow.repr ++
      ": DCTL records modification times in whole seconds, so a window below " ++
      minModifyWindowSecs.repr ++ "s would report unchanged files as modified")).withHint
        modifyWindowTooSmallHint)
  else .ok globals.modifyWindow

/-- `ComparePolicy::resolve`, for a command with its own two flags. -/
def resolvePolicy (globals : GlobalArgs) (ignoreExisting update : Bool) :
    Except CliError ComparePolicy := do
  let window ← resolveWindow globals
  return ⟨globals.checksum, globals.sizeOnly, ignoreExisting, update, Duration.fromSecs window⟩

/-- Which fields decide whether two entries are the same object. -/
inductive Comparison where
  | sizeAndModTime (windowSecs : Nat)
  | sizeOnly
  | checksum
  deriving DecidableEq, Repr

def Comparison.fromGlobals (globals : GlobalArgs) : Except CliError Comparison :=
  if globals.checksum then .ok .checksum
  else if globals.sizeOnly then .ok .sizeOnly
  else do
    let window ← resolveWindow globals
    return .sizeAndModTime window

structure Entry where
  path : String
  size : Option Nat
  modifiedUnix : Option Int
  hash : Option String
  deriving DecidableEq, Repr

def toAsciiLowercase (c : Char) : Char :=
  if 'A' ≤ c ∧ c ≤ 'Z' then Char.ofNat (c.toNat + 32) else c

def eqIgnoreAsciiCase (a b : String) : Bool :=
  a.toList.map toAsciiLowercase = b.toList.map toAsciiLowercase

def Comparison.same (comparison : Comparison) (source dest : Entry) : Option Bool :=
  match comparison with
  | .sizeOnly => match source.size, dest.size with
    | some left, some right => some (left = right)
    | _, _ => none
  | .sizeAndModTime windowSecs => match source.size, dest.size with
    | some left, some right =>
      if left ≠ right then some false
      else match source.modifiedUnix, dest.modifiedUnix with
        | some left, some right => some ((left - right).natAbs ≤ windowSecs)
        | _, _ => none
    | _, _ => none
  | .checksum => match source.hash, dest.hash with
    | some left, some right => some (eqIgnoreAsciiCase left right)
    | _, _ => none

def Comparison.provesContents (comparison : Comparison) : Bool := comparison = .checksum

/-- How one path differed between the two sides. -/
inductive Difference where
  | matched
  | differ
  | missingOnSrc
  | missingOnDst
  | error
  deriving DecidableEq, Repr

def classify (source dest : Option Entry) (comparison : Comparison) : Difference :=
  match source, dest with
  | some source, some dest => match comparison.same source dest with
    | some true => .matched
    | some false => .differ
    | none => .error
  | some _, none => .missingOnDst
  | none, some _ => .missingOnSrc
  | none, none => .error

/-- A file of a local tree, an object of a plain store, or a row of a vault's index.  The `digest`
of a row is what its object turns out to hold, and `stands` says whether the store has the object.
-/
inductive Stored where
  | localFile (len : Nat) (modified : Option SystemTime) (digest : Bytes)
  | object (size : Nat) (modifiedUnix : Option Int) (digest : Bytes)
  | row (size : Option Nat) (modifiedUnix : Option Int) (recorded : Option Bytes)
      (digest : Except CliError Bytes) (stands : Bool)

def modifiedUnix (t : SystemTime) : Option Int := if 0 ≤ t then some (t / 1000000000) else none

namespace Stored

def recorded : Stored → Bool
  | .row .. => true
  | _ => false

def confirm : Stored → Bool
  | .row _ _ _ _ stands => stands
  | _ => true

def entry (path : String) : Stored → Entry
  | .localFile len modified _ => ⟨path, some len, modified.bind modifiedUnix, none⟩
  | .object size modifiedUnix _ => ⟨path, some size, modifiedUnix, none⟩
  | .row size modifiedUnix recorded _ _ => ⟨path, size, modifiedUnix, recorded.map hexEncode⟩

def readBack : Stored → Except CliError Bytes
  | .localFile _ _ digest => .ok digest
  | .object _ _ digest => .ok digest
  | .row _ _ _ digest _ => digest

def hash (path : String) (s : Stored) : Except CliError String :=
  match (s.entry path).hash with
  | some recorded => .ok recorded
  | none => s.readBack.map hexEncode

/-- One half of a pair, with a row whose object is gone resolved to an absence. -/
def confirmed (s : Stored) : Option Stored := if s.recorded && !s.confirm then none else some s

def hashed (path : String) (s : Stored) : Option Entry :=
  (s.hash path).toOption.map fun digest => { s.entry path with hash := some digest }

def planned (o : ListOptions) (reconciled : Bool) (path : String) :
    Stored → Except CliError Transfer.Entry
  | .localFile len modified digest => Listing.fileEntry o path len modified (.ok (hexEncode digest))
  | .object size modifiedUnix digest =>
    remoteEntry o path ⟨path, some size, modifiedUnix, none, .ok (some (hexEncode digest)), false⟩
  | .row size modifiedUnix recorded digest stands =>
    -- A row that was measured and carries no digest is not read for one.
    let asked := if size = none then digest.map (some ∘ hexEncode) else .ok none
    remoteEntry o path ⟨path, size, modifiedUnix, recorded.map hexEncode, asked,
      reconciled && !stands⟩

end Stored

def compare (path : String) (source dest : Option Stored) (comparison : Comparison) : Difference :=
  match source.bind Stored.confirmed, dest.bind Stored.confirmed with
  | some source, some dest =>
    if comparison.provesContents then
      match source.hashed path, dest.hashed path with
      | some left, some right => classify (some left) (some right) comparison
      | _, _ => .error
    else classify (some (source.entry path)) (some (dest.entry path)) comparison
  | source, dest => classify (source.map (·.entry path)) (dest.map (·.entry path)) comparison

end Dctl.Check

namespace Dctl.Check

open Cli Cli.Paths Index ProofKit

structure Store where
  items : List (Path × Stored)
  distinct : (items.map Prod.fst).Nodup

/-- What a source yields under `start`: every object there, in ascending path order. -/
def Store.enumerate (store : Store) (start : Path) : List (Path × Stored) :=
  (store.items.filter fun item => listed start item.1).insertionSort fun a b => a.1 ≤ b.1

abbrev Filter := Path → Path → Stored → Bool

structure Found where
  path : Path
  key : Path
  stored : Stored

def keyFor (full root : Path) : Path :=
  let root := trimEnd root
  if root = [] ∨ isUnder root full = false then full
  -- The root names this one object.
  else if full.length = root.length then fileName full
  else full.drop (root.length + 1)

/-- One tree, opened: the root, what the source yields, and the filters. -/
structure Side where
  root : Path
  entries : List (Path × Stored)
  filter : Filter

def Side.opened (store : Store) (root : Path) (filter : Filter) : Side :=
  ⟨root, store.enumerate root, filter⟩

def Side.founds (side : Side) : List Found :=
  (side.entries.filter fun entry => side.filter side.root entry.1 entry.2).map fun entry =>
    ⟨entry.1, keyFor entry.1 side.root, entry.2⟩

structure Pair where
  source : Option Found
  dest : Option Found

def Pair.key (pair : Pair) : Path := ((pair.source.or pair.dest).map Found.key).getD []

def next : List Found → List Found → Option (Pair × List Found × List Found)
  | [], [] => none
  | left :: source, [] => some (⟨some left, none⟩, source, [])
  | [], right :: dest => some (⟨none, some right⟩, [], dest)
  | left :: source, right :: dest =>
    if left.key < right.key then some (⟨some left, none⟩, source, right :: dest)
    else if right.key < left.key then some (⟨none, some right⟩, left :: source, dest)
    else some (⟨some left, some right⟩, source, dest)

def ordered (previous : Option Path) (key : Path) : Except CliError Unit :=
  match previous with
  | none => .ok ()
  | some previous =>
    if previous < key then .ok ()
    else .error ⟨.uncategorised, "a listing yielded '" ++ String.ofList key ++ "' after '" ++
      String.ofList previous ++ "', which is out of order",
      some
        ("A comparison of two out-of-order listings reports differences that do not exist. " ++
        "Nothing was changed. Please report this: it is a defect in the source that produced " ++
        "the listing, not in the data.")⟩

def Difference.suppressedByOneWay (verdict : Difference) : Bool := verdict = .missingOnSrc

structure Record where
  key : Path
  verdict : Difference
  deriving DecidableEq

def Pair.verdict (pair : Pair) (comparison : Comparison) : Difference :=
  compare (String.ofList pair.key) (pair.source.map Found.stored)
    (pair.dest.map Found.stored) comparison

theorem next_shorter {source dest source' dest' : List Found} {pair : Pair}
    (h : next source dest = some (pair, source', dest')) :
    source'.length + dest'.length < source.length + dest.length := by
  match source, dest with
  | [], [] => cases h
  | left :: source, [] | [], right :: dest =>
    cases h
    simp
  | left :: source, right :: dest =>
    simp only [next] at h
    split at h
    · cases h
      simp only [List.length_cons]
      omega
    · split at h
      · cases h
        simp only [List.length_cons]
        omega
      · cases h
        simp only [List.length_cons]
        omega

def compareFrom (comparison : Comparison) (oneWay : Bool) (previous : Option Path)
    (source dest : List Found) :
    Except CliError (List Record) :=
  match _h : next source dest with
  | none => .ok []
  | some (pair, source', dest') => do
    ordered previous pair.key
    let verdict := pair.verdict comparison
    let rest ← compareFrom comparison oneWay (some pair.key) source' dest'
    if oneWay && verdict.suppressedByOneWay then return rest else return ⟨pair.key, verdict⟩ :: rest
termination_by source.length + dest.length
decreasing_by exact next_shorter _h

def run (comparison : Comparison) (oneWay : Bool) (source dest : Side) :
    Except CliError (List Record) :=
  compareFrom comparison oneWay none source.founds dest.founds

end Dctl.Check
