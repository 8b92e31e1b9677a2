import Dctl.Replicate.Plan
import Dctl.Store.Incoming
import Dctl.Store.RangeRead

/-! Moving the bytes of a replication, and reading them back (`replicate/execute.rs`).  What the two
stores and the audit log answer is asked of a server. -/

namespace Dctl.Replicate

open ProofKit Store Cli Transfer

def verb : String := "replicate"

@[simp, reducible] def replicateWholeObjectLimit : UInt64 := 1024 * 1024 * 1024
@[simp, reducible] def replicateSampleWindowBytes : UInt64 := 1024 * 1024

def replicateReasonUnreadable : String := "source-unreadable"
def replicateReasonUnwritable : String := "destination-unwritable"
def replicateReasonMismatch : String := "destination-mismatch"
def replicateReasonTooLarge : String := "object-too-large"

inductive Side where
  | source
  | destination
  deriving DecidableEq, Repr

structure AuditEntry where
  op : String
  outcome : ExitCode
  path : String
  size : UInt64
  moved : Direction × UInt64
  objects : Nat
  ciphertextHash : String
  remote : String
  deriving DecidableEq

inductive Request where
  | get (side : Side) (key : String)
  | getRange (side : Side) (key : String) (range : ByteRange)
  | put (side : Side) (key : String) (data : Bytes) (expected : ContentHash)
  | delete (side : Side) (key : String)
  | record (entry : AuditEntry)
  deriving DecidableEq

@[reducible] def Answer : Request → Type
  | .get .. | .getRange .. => Except StoreError Bytes
  | .put .. | .delete .. => Except StoreError Unit
  | .record _ => Except CliError Unit

abbrev Exchange : Type := Prog.Exchange Answer

abbrev Job (α : Type) : Type := Prog Request Answer α

structure Stats where
  bytesTransferred : UInt64 := 0
  bytesTotal : UInt64 := 0
  bytesVerified : UInt64 := 0
  filesDone : Nat := 0
  filesTotal : Nat := 0
  filesSkipped : Nat := 0
  errors : Nat := 0
  checksumMismatches : Nat := 0
  deriving DecidableEq

namespace Stats

variable (stats : Stats)

def addBytes (n : UInt64) : Stats := { stats with bytesTransferred := stats.bytesTransferred + n }

def addVerifiedBytes (n : UInt64) : Stats := { stats with bytesVerified := stats.bytesVerified + n }

def fileDone : Stats := { stats with filesDone := stats.filesDone + 1 }

def fileSkipped : Stats := { stats with filesSkipped := stats.filesSkipped + 1 }

def error : Stats := { stats with errors := stats.errors + 1 }

def checksumMismatch : Stats :=
  { stats with checksumMismatches := stats.checksumMismatches + 1, errors := stats.errors + 1 }

def setTotals (bytes : UInt64) (files : Nat) : Stats :=
  { stats with bytesTotal := bytes, filesTotal := files }

end Stats

def contentHash (blake3 : Bytes → Bytes) (data : Bytes) : ContentHash := ⟨.blake3, blake3 data⟩

def intoCause : StoreError → StoreError
  | .retried _ source => intoCause source
  | other => other

def isChecksumMismatch (error : StoreError) : Bool :=
  match intoCause error with
  | .checksumMismatch .. => true
  | _ => false

/-- An object's outcome, with the digest of its bytes, or nothing if they were never read. -/
structure Replicated where
  item : Item
  hash : String

def unread (item : Item) : Replicated := ⟨item, ""⟩

def failed (stats : Stats) (item : Item) (reason : String) : Item × Stats :=
  ({ item with action := .failed, reason },
    if reason = replicateReasonMismatch then stats.checksumMismatch else stats.error)

def sampleWindow (sourceBytes : Bytes) : Nat :=
  min replicateSampleWindowBytes.toNat sourceBytes.length

def firstBytes (sourceBytes : Bytes) (n : Nat) : Bytes :=
  if n ≤ sourceBytes.length then sourceBytes.take n else []

variable (blake3 : Bytes → Bytes) (verify : VerifyMode)

def readBack (key : String) (sourceBytes : Bytes) (expected : ContentHash) : Job Bool :=
  match verify with
  | .checksum => .done true
  | .sample => do
    let window := sampleWindow sourceBytes
    match ← Prog.call (A := Answer)
      (.getRange .destination key ⟨0, some (UInt64.ofNat window)⟩) with
    | .error _ => pure false
    | .ok served => pure (served = firstBytes sourceBytes served.length)
  | .strict => do
    match ← Prog.call (A := Answer) (.get .destination key) with
    | .error _ => pure false
    | .ok served => pure (contentHash blake3 served = expected)

/-- Whether an object that is to be verified again is there already. -/
def holdsAlready (item : Item) (expected : ContentHash) : Job Bool :=
  if item.action = .reverify then do
    match ← Prog.call (A := Answer) (.get .destination item.key) with
    | .ok stored => pure (contentHash blake3 stored = expected)
    | .error _ => pure false
  else pure false

def upload (stats : Stats) (item : Item) (bytes : Bytes) (expected : ContentHash) :
    Job (Replicated × Stats) := do
  match ← Prog.call (A := Answer) (.put .destination item.key bytes expected) with
  | .error error =>
    let reason := if isChecksumMismatch error then replicateReasonMismatch
      else replicateReasonUnwritable
    let refused := failed stats item reason
    pure (⟨refused.1, hexEncode expected.bytes⟩, refused.2)
  | .ok _ =>
    let stats := stats.addBytes item.size
    if ← readBack blake3 verify item.key bytes expected then
      let reason := if item.action = .reverify then planReasonChecksum else item.reason
      pure (⟨{ item with action := .replicate, reason }, hexEncode expected.bytes⟩,
        (stats.addVerifiedBytes item.size).fileDone)
    else
      let refused := failed stats item replicateReasonMismatch
      pure (⟨refused.1, hexEncode expected.bytes⟩, refused.2)

def one (stats : Stats) (item : Item) : Job (Replicated × Stats) := do
  if replicateWholeObjectLimit < item.size then
    let refused := failed stats item replicateReasonTooLarge
    pure (unread refused.1, refused.2)
  else
    match ← Prog.call (A := Answer) (.get .source item.key) with
    | .error _ =>
      let refused := failed stats item replicateReasonUnreadable
      pure (unread refused.1, refused.2)
    | .ok bytes =>
      let expected := contentHash blake3 bytes
      if ← holdsAlready blake3 item expected then
        pure (⟨{ item with action := .reverify, reason := planReasonIdentical },
            hexEncode expected.bytes⟩,
          ((stats.addBytes item.size).fileSkipped).addVerifiedBytes item.size)
      else upload blake3 verify stats item bytes expected

def auditEntry (remote : String) (done : Replicated) : AuditEntry where
  op := verb
  outcome :=
    if done.item.action = .failed then
      if done.item.reason = replicateReasonMismatch then .checksumMismatch else .temporaryError
    else .success
  path := done.item.key
  size := done.item.size
  moved := (.into, if done.item.action = .failed then 0 else done.item.size)
  objects := 1
  ciphertextHash := done.hash
  remote := remote

def record (remote : String) (done : Replicated) : Prog.Fallible Request Answer CliError Unit := do
  let answer ← Prog.query (Request.record (auditEntry remote done))
  Prog.ofExcept answer

def step (remote : String) (stats : Stats) (item : Item) :
    Prog.Fallible Request Answer CliError (Item × Stats) :=
  match item.action with
  | .skip => pure (item, stats.fileSkipped)
  | _ => do
    let done ← ExceptT.lift (one blake3 verify stats item)
    record remote done.1
    pure (done.1.item, done.2)

structure Outcome where
  items : List Item
  summary : Summary

def runItems (remote : String) : List Item → Outcome → Stats →
    Prog.Fallible Request Answer CliError (Outcome × Stats)
  | [], outcome, stats => pure (outcome, stats)
  | item :: rest, outcome, stats => do
    let done ← step blake3 verify remote stats item
    runItems remote rest ⟨outcome.items ++ [done.1], outcome.summary.add done.1⟩ done.2

def run (remote : String) (plan : Plan) (stats : Stats) :
    Prog.Fallible Request Answer CliError (Outcome × Stats) :=
  runItems blake3 verify remote plan.items
    ⟨[], { objects := plan.summary.objects, extra := plan.summary.extra }⟩
    (stats.setTotals plan.egressBytes plan.summary.objects)

end Dctl.Replicate
