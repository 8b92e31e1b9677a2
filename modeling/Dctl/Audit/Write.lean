import Dctl.ProofKit.Prog
import Dctl.Cli.Error
import Dctl.Audit.Chain
import Dctl.Audit.Serialize

/-! The append path of the log (`audit/write.rs`): open it, append one record, make it durable.  A
writer carries the head of the chain and the length of the file, and reads its head again when the
length is not the one that it remembers. -/

namespace Dctl.Audit

open ProofKit Cli Crypto

@[simp, reducible] def auditTailScanBytes : Nat := 8 * 1024
@[simp, reducible] def auditTailScanLimitBytes : Nat := 1024 * 1024
@[simp, reducible] def auditChainFirstIndex : UInt64 := 0

/-- The calls of a writer.  Its file is opened for appending: `writeAll` writes at the true end. -/
inductive LogRequest where
  | pathExists
  | parentExists
  | createDirAll
  | hardenDirectory
  | openAppending
  | syncDirectory
  | metadata
  | readExact (start size : Nat)
  | setLen (length : Nat)
  | writeAll (bytes : Bytes)
  | flush
  | syncAll

/-- A call that fails answers with the classified error. -/
@[reducible] def LogRequest.Answer : LogRequest → Type
  | .pathExists | .parentExists => Bool
  | .createDirAll | .hardenDirectory | .openAppending | .setLen _ | .writeAll
    _ | .flush | .syncAll =>
    Except CliError Unit
  | .syncDirectory => Unit
  | .metadata => Except CliError Nat
  | .readExact .. => Except CliError Bytes

abbrev LogM (α : Type) := Prog.Fallible LogRequest LogRequest.Answer CliError α

def atPath (path : String) (error : CliError) : CliError :=
  error.withHint ("The audit log is " ++ path ++
    ". The operation this record describes is NOT recorded.")

def callAt (path : String) (r : LogRequest) (as : r.Answer → Except CliError α) : LogM α := do
  let answer ← Prog.query r
  Prog.ofExcept ((as answer).mapError (atPath path))

structure Writer where
  path : String
  head : String
  nextIndex : UInt64
  length : Nat
  deriving DecidableEq

def Writer.broken (w : Writer) (why : String) : CliError :=
  CliError.withHint ⟨.auditChainBroken, "cannot append to " ++ w.path ++ ": " ++ why, none⟩
    ("No record was appended. Move the file aside and compare it against a mirrored copy " ++
      "before trusting anything in it; `dctl audit verify` reports the exact record where the " ++
      "chain fails.")

def checkedSucc (n : UInt64) : Option UInt64 := if n.toNat + 1 < 2 ^ 64 then some (n + 1) else none

def observedLength (w : Writer) : LogM Nat := callAt w.path .metadata id

/-- Backwards from the end until the last complete record is framed.  The window doubles; below the
limit this cannot saturate. -/
def scanTail (w : Writer) (length window : Nat) (hwindow : 0 < window) :
    LogM (Option Bytes × Nat) := do
  let start := length - window
  let span := length - start
  let buffer ← callAt w.path (.readExact start span) id
  match frame buffer (start = 0) with
  | .resolved tail => pure (tail.last, tail.fragment.length)
  | .needMore =>
    if hlimit : auditTailScanLimitBytes ≤ window then
      throw (w.broken ("its last " ++ auditTailScanLimitBytes.repr ++
        " bytes contain no complete record"))
    else scanTail w length (window * 2) (by omega)
termination_by auditTailScanLimitBytes - window
decreasing_by
  have hbelow : window < 1048576 := Nat.lt_of_not_le hlimit
  omega

/-- Where a log is: its path, and its directory if it names one. -/
structure LogFile where
  path : String
  parent : Option String

def LogFile.unread (log : LogFile) : Writer where
  path := log.path
  head := auditChainGenesisPrev
  nextIndex := auditChainFirstIndex
  length := 0

def prepareParent : Option String → LogM Unit
  | none => pure ()
  | some parent => do
    let existed ← Prog.query .parentExists
    callAt parent .createDirAll id
    if existed then pure () else callAt parent .hardenDirectory id

def openFile (log : LogFile) : LogM Unit := do
  let existed ← Prog.query .pathExists
  prepareParent log.parent
  callAt log.path .openAppending id
  if existed = false ∧ log.parent.isSome then Prog.query LogRequest.syncDirectory else pure ()

variable (blake3 : Bytes → Digest) (serde : Serde)

def Writer.continuing (w : Writer) (last : Option Bytes) (length : Nat) : Except CliError Writer :=
  match last with
  | none =>
    .ok { w with head := auditChainGenesisPrev, nextIndex := auditChainFirstIndex, length }
  | some line => do
    let record ← (serde.fromSlice line).mapError fun error =>
      w.broken ("its last line is not an audit record: " ++ error)
    reject (isWellFormedHash record.hash = false ∨
        ¬eqIgnoreAsciiCase record.hash (computeHash blake3 record))
      (w.broken ("its last record (index " ++ record.index.toNat.repr ++
        ") does not hash to the value it carries"))
    let nextIndex ← okOr (w.broken "its last record claims the highest possible index")
      (checkedSucc record.index)
    pure { w with head := record.hash, nextIndex, length }

def dropFragment (w : Writer) (length fragment : Nat) : LogM Nat :=
  if 0 < fragment then do
    let boundary := length - fragment
    callAt w.path (.setLen boundary) id
    callAt w.path .syncAll id
    pure boundary
  else pure length

/-- `resync`.  It changes the writer at its very end only, so a failure leaves it as it was. -/
def resync (w : Writer) : LogM Writer := do
  let length ← observedLength w
  let (last, fragment) ← scanTail w length auditTailScanBytes (by decide)
  let length ← dropFragment w length fragment
  Prog.ofExcept (w.continuing blake3 serde last length)

def openWriter (log : LogFile) : LogM Writer := do
  openFile log
  resync blake3 serde log.unread

def refreshed (w : Writer) : LogM Writer := do
  let observed ← observedLength w
  if observed ≠ w.length then resync blake3 serde w else pure w

def writeLine (w : Writer) (line : Bytes) : LogM Unit := do
  callAt w.path (.writeAll line) id
  callAt w.path .flush id
  callAt w.path .syncAll id

def Writer.exhausted (w : Writer) : CliError :=
  CliError.withHint ⟨.indexError, w.path ++ ": the audit chain has no more indices", none⟩
    ("A chain is 2^64 records long. Reaching the end means the index field was overwritten rather "
      ++
      "than that the log filled up.")

def append (entry : Entry) (w : Writer) :
    Prog LogRequest LogRequest.Answer (Except CliError AuditRecord × Writer) := do
  match ← (refreshed blake3 serde w).run with
  | .error error => pure (.error error, w)
  | .ok w =>
    let record := sealEntry blake3 entry w.nextIndex w.head
    let line := encodeLine serde record
    match ← (writeLine w line).run with
    | .error error => pure (.error error, w)
    | .ok () =>
      let w := { w with length := min (w.length + line.length) (2 ^ 64 - 1) }
      match checkedSucc w.nextIndex with
      | none => pure (.error w.exhausted, w)
      | some nextIndex => pure (.ok record, { w with nextIndex, head := record.hash })

end Dctl.Audit
