import Dctl.Transfer.Listing
import Dctl.Transfer.Plan

/-! Two command-line specs become a plan (`prepare.rs`), under the gate of `--immutable`
(`immutable.rs`). -/

namespace Dctl.Transfer

open Cli

def Op.slug : Op → String
  | copy => "copy"
  | update => "update"
  | delete => "delete"
  | skip => "skip"
  | createDir => "mkdir"

namespace Prepare

/-- What a command is asking for: its arguments as they were parsed, the options, the comparison and
the flags that its globals resolved to. -/
structure Request where
  source : Except CliError RemoteSpec
  dest : Except CliError RemoteSpec
  options : Except CliError ListOptions
  compare : Except CliError ComparePolicy
  noTraverse : Bool
  createEmptySrcDirs : Bool
  deleteExtras : Bool
  immutable : Bool

/-- What a request meets on this machine: the normalisation of names, the paths that resolve,
whether the configuration lets a destination be written plainly, and what stands at a spec. -/
structure Machine where
  nfc : String → String
  canonicalize : String → Option (List String)
  refusePlainWrite : RemoteSpec → Except CliError Unit
  stands : RemoteSpec → Endpoint

structure Prepared where
  source : RemoteSpec
  dest : RemoteSpec
  plan : Plan
  destFileCount : Nat
  deriving Repr

def Request.planPolicy (r : Request) : Except CliError Policy := do
  let compare ← r.compare
  let base := if r.deleteExtras then Policy.syncing compare else Policy.copying compare
  pure ((base.withEmptySrcDirs r.createEmptySrcDirs).withTraversal (!r.noTraverse))

def immutableRefusalSample : Nat := 10

def immutableRefusalHint : String :=
  "--immutable allows only additions. Point the transfer at a destination that " ++
  "does not already hold these objects, or drop --immutable. To see the full " ++
  "list, re-run with --dry-run and without --immutable."

def immutableNoTraverseConflict : String :=
  "--immutable and --no-traverse contradict each other: --no-traverse never lists " ++
  "the destination, so an overwrite cannot be detected"

def immutableNoTraverseHint : String :=
  "Drop --no-traverse so the destination is listed and --immutable can be " ++
  "enforced, or drop --immutable if re-sending over whatever is already there " ++
  "is acceptable."

def describe (refused : List PlanEntry) : String :=
  let rendered := (refused.take immutableRefusalSample).map fun entry =>
    entry.action.slug ++ " " ++ entry.dest
  let elided := refused.length - immutableRefusalSample
  ", ".intercalate
    (if 0 < elided then rendered ++ ["and " ++ toString elided ++ " more"] else rendered)

def ensureNothingIsReplaced (immutable : Bool) (plan : Plan) : Except CliError Unit :=
  if !immutable then .ok ()
  else
    let refused := plan.entries.filter fun entry => entry.action.replacesExisting
    if refused.isEmpty then .ok ()
    else .error ((⟨.fatalError, "--immutable, but " ++ toString refused.length ++
      " existing destination object(s) would be replaced or removed: " ++ describe refused,
      none⟩ : CliError).withHint immutableRefusalHint)

def ensureTraversalCanEnforceIt (immutable noTraverse : Bool) : Except CliError Unit :=
  if immutable && noTraverse then
    .error ((CliError.ofUsage immutableNoTraverseConflict).withHint immutableNoTraverseHint)
  else .ok ()

def samePlace (spec : RemoteSpec) : CliError :=
  (CliError.ofUsage ("source and destination are the same: " ++ spec.display)).withHint
    ("A transfer onto itself would compare a tree against itself while " ++ "modifying it.")

def nested (inner outer : RemoteSpec) (which relation : String) : CliError :=
  (CliError.ofUsage ("the " ++ which ++ " '" ++ inner.display ++ "' is " ++ relation ++ " '" ++
    outer.display ++ "'")).withHint
    ("Overlapping paths make the plan self-contradictory: the same files are " ++
      "both transferred and deleted, and a sync would destroy them. Move one " ++
      "side outside the other.")

def rejectSelfTransfer (canonicalize : String → Option (List String)) (source dest : RemoteSpec) :
    Except CliError Unit :=
  if source.same dest then .error (samePlace source)
  else match source.localPath, dest.localPath with
    | some sourcePath, some destPath =>
      match canonicalize sourcePath, canonicalize destPath with
      | some sourceReal, some destReal =>
        if sourceReal = destReal then .error (samePlace source)
        else if sourceReal.isPrefixOf destReal then
          .error (nested dest source "destination" "inside the source")
        else if destReal.isPrefixOf sourceReal then
          .error (nested source dest "source" "inside the destination")
        else .ok ()
      | _, _ => .ok ()
    | _, _ => .ok ()

variable (m : Machine) (r : Request)

def refuseAPlainWriteIntoAVault : Except CliError Unit := do
  m.refusePlainWrite (← r.dest)

def listingRoot (spec : RemoteSpec) (listing : Listing) : RemoteSpec :=
  if listing.isSingleFile then spec.parent else spec

def rejectFileDestination (dest : RemoteSpec) (listing : Listing) : Except CliError Unit :=
  if listing.existing && listing.isSingleFile then
    .error ((CliError.ofUsage ("'" ++ dest.display ++ "' is a file, not a directory")).withHint
      ("Name a directory, or use 'copyto'/'moveto' to write to an exact " ++ "object name."))
  else .ok ()

def enumerateDestination (dest : RemoteSpec) (o : ListOptions) : Except CliError Listing :=
  if r.noTraverse then .ok Listing.untraversed
  else Listing.destination m.nfc o (m.stands dest)

def existingObject (dest : RemoteSpec) (o : ListOptions) : Except CliError (Option Entry) :=
  if r.noTraverse then .ok none
  else do
    let listing ← Listing.destination m.nfc o (m.stands dest)
    if !listing.existing then pure none
    else if !listing.isSingleFile then
      throw ((CliError.ofUsage ("'" ++ dest.display ++ "' is a directory")).withHint
        ("An exact-name transfer needs the destination's full object name. " ++
          "Use 'copy' to place the file inside a directory instead."))
    else pure listing.entries.head?

def diffDirectoryTransfer : Except CliError Prepared := do
  let source ← r.source
  let dest ← r.dest
  rejectSelfTransfer m.canonicalize source dest
  let options ← r.options
  let sourceListing ← Listing.source m.nfc options source.display (m.stands source)
  if sourceListing.isSingleFile && r.deleteExtras then
    throw ((CliError.ofUsage ("'" ++ source.display ++ "' is a file, so 'sync' would make '" ++
      dest.display ++ "' contain nothing else")).withHint
      ("Use 'copy' to add the file without deleting anything, or 'copyto' to " ++
        "write it to an exact destination name."))
  let destListing ← enumerateDestination m r dest options
  rejectFileDestination dest destListing
  let policy ← r.planPolicy
  let plan ← Plan.compute sourceListing.entries destListing.entries policy
  pure ⟨listingRoot source sourceListing, dest, plan, destListing.entries.length⟩

def diffExactFile (source dest : RemoteSpec) (options : ListOptions) (sourceListing : Listing) :
    Except CliError Prepared := do
  let name := dest.leaf (normalizeUnicode m.nfc)
  if name = "" then
    throw ((CliError.ofUsage ("'" ++ dest.display ++ "' does not name an object")).withHint
      ("An exact-name transfer needs a full destination path, such as " ++
        "'vault:archive/2024.tar'."))
  match sourceListing.entries.head? with
  | none =>
    throw
      ((CliError.ofUsage ("'" ++ source.display ++ "' was excluded by the size filters")).withHint
      "Relax --min-size/--max-size, or name a different file.")
  | some sourceEntry =>
    let existing ← existingObject m r dest options
    let policy ← r.planPolicy
    let plan ← Plan.computeExact sourceEntry existing name policy
    pure ⟨source.parent, dest.parent, plan, if existing.isSome then 1 else 0⟩

def diffExactTransfer : Except CliError Prepared := do
  let source ← r.source
  let dest ← r.dest
  rejectSelfTransfer m.canonicalize source dest
  let options ← r.options
  let sourceListing ← Listing.source m.nfc options source.display (m.stands source)
  if sourceListing.isSingleFile then diffExactFile m r source dest options sourceListing
  else
    let destListing ← enumerateDestination m r dest options
    rejectFileDestination dest destListing
    let policy ← r.planPolicy
    let plan ← Plan.compute sourceListing.entries destListing.entries policy
    pure ⟨source, dest, plan, destListing.entries.length⟩

def gated (diff : Except CliError Prepared) : Except CliError Prepared := do
  refuseAPlainWriteIntoAVault m r
  ensureTraversalCanEnforceIt r.immutable r.noTraverse
  let prepared ← diff
  ensureNothingIsReplaced r.immutable prepared.plan
  pure prepared

/-- Plan a directory-shaped transfer: the contents of the source land inside the destination. -/
def directoryTransfer : Except CliError Prepared := gated m r (diffDirectoryTransfer m r)

/-- Plan an exact-name transfer: the source becomes the destination, name and all. -/
def exactTransfer : Except CliError Prepared := gated m r (diffExactTransfer m r)

end Prepare

end Dctl.Transfer
