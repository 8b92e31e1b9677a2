import Dctl.Store.Guard
import Dctl.Store.Incoming
import Dctl.Store.LocalKey

/-! The three writes of the local backend (`local/verified_write.rs`), step by step, on a file
system any step of which may fail.  Paths are kept relative to the root of the store. -/

namespace Dctl.Store.LocalFs

open ProofKit

abbrev Path := List Name

inductive Op where
  | createDirAll (dir : Path)
  | create (path : Path)
  | write (path : Path) (data : Bytes)
  /-- What a handle has deferred or buffered reaches the file. -/
  | flush (path : Path)
  | sync (path : Path)
  | openWrite (path : Path)
  | setTimes (path : Path) (unix : Int)
  | rename (path target : Path)
  | openDir (dir : Path)
  | syncDir (dir : Path)
  | remove (path : Path)
  deriving DecidableEq, Repr

/-- What a write asks of the system. -/
inductive Step where
  /-- The identity of the root. -/
  | identify
  | readToEnd (path : Path)
  | op (o : Op)
  deriving DecidableEq, Repr

@[reducible] def Step.Answer : Step → Type
  | .identify => Option StoreIdentity
  | .readToEnd _ => Except IoError Bytes
  | .op _ => Except IoError Unit

/-- The files of a store, and the steps that have failed. -/
structure World where
  files : Path → Option Bytes
  faults : List Step

namespace World

def set (w : World) (path : Path) (content : Option Bytes) : World :=
  { w with files := Function.update w.files path content }

theorem set_files_self (w : World) (path : Path) (content : Option Bytes) :
    (w.set path content).files path = content := Function.update_self ..

def fail (w : World) (step : Step) : World := { w with faults := w.faults ++ [step] }

/-- What a step that succeeds does.  What a file holds after a write is not promised. -/
def Done (w : World) : Op → World → Prop
  | .create path, w' => w' = w.set path (some [])
  | .write path _, w' | .flush path, w' => ∃ content, w' = w.set path (some content)
  | .rename path target, w' => ∃ content, w.files path = some content ∧
      w' = (w.set path none).set target (some content)
  | .remove path, w' => w.files path ≠ none ∧ w' = w.set path none
  | _, w' => w' = w

/-- What a step that fails does.  A file that is not there cannot be removed, which is no fault. -/
def Failed (w : World) : Op → World → Prop
  | .write path data, w' => ∃ content, w' = (w.set path (some content)).fail
    (.op (.write path data))
  | .flush path, w' => ∃ content, w' = (w.set path (some content)).fail (.op (.flush path))
  | .remove path, w' => w' = if w.files path = none then w else w.fail (.op (.remove path))
  | o, w' => w' = w.fail (.op o)

def serve : Prog.Server World Step Step.Answer
  | w, .identify, _, w' => w' = w
  | w, .readToEnd path, .ok bytes, w' => w' = w ∧ w.files path = some bytes
  | w, .readToEnd path, .error _, w' => w' = w.fail (.readToEnd path)
  | w, .op o, .ok (), w' => w.Done o w'
  | w, .op o, .error _, w' => w.Failed o w'

end World

abbrev WriteM (α : Type) := Prog.Fallible Step Step.Answer StoreError α

def perform (o : Op) : WriteM Unit :=
  Prog.query (.op o) >>= fun x => Prog.ofExcept (Except.mapError StoreError.io x)

def attempt (o : Op) : WriteM Unit := Prog.query (.op o) >>= fun _ => pure ()

def readToEnd (path : Path) : WriteM Bytes :=
  Prog.query (.readToEnd path) >>= fun x => Prog.ofExcept (Except.mapError StoreError.io x)

def orRemove {α : Type} (tmp : Path) (body : WriteM α) : WriteM α :=
  tryCatch body fun e => do
    attempt (.remove tmp)
    throw e

structure PutOutcome where
  size : Nat
  verified : ContentHash
  deriving DecidableEq, Repr

variable (digest : HashAlgo → Bytes → Bytes)

/-- The backend: how its root is printed, and what it was when the backend was built. -/
structure Backend where
  root : String
  openedAs : Option StoreIdentity

namespace Backend

variable (fs : Backend)

def requireSameRoot : WriteM Unit := do
  match verdict fs.openedAs (← Prog.query .identify) with
  | .proceed => pure ()
  | v => throw (refuse fs.root v)

end Backend

def compute (algo : HashAlgo) (data : Bytes) : ContentHash := ⟨algo, digest algo data⟩

def parent (path : Path) : Path := path.dropLast

def tempPath (dest : Path) (stagingName : Name) : Path := parent dest ++ [stagingName]

def stamp (path : Path) : Option Int → WriteM Unit
  | none => pure ()
  | some unix => do
    perform (.openWrite path)
    perform (.setTimes path unix)

/-- Fsync the directory so that a rename is durable, if that can be done. -/
def syncParent (dest : Path) : WriteM Unit :=
  Prog.query (.op (.openDir (parent dest))) >>= fun (x : Except IoError Unit) => match x with
  | .ok () => attempt (.syncDir (parent dest))
  | .error _ => pure ()

def writeStaging (tmp : Path) (data : Bytes) : WriteM Unit := do
  perform (.create tmp)
  perform (.write tmp data)
  perform (.flush tmp)
  perform (.sync tmp)

def requireMatch (expected actual : ContentHash) : WriteM Unit :=
  if actual = expected then pure ()
  else throw (.checksumMismatch (hexEncode expected.bytes) (hexEncode actual.bytes))

def requireLength (expected actual : Nat) : WriteM Unit :=
  if actual = expected then pure () else throw (.shortWrite expected actual)

def put (fs : Backend) (key : String) (data : Bytes) (expected : ContentHash)
    (modified : Option Int)
    (stagingName : Name) : WriteM PutOutcome := do
  fs.requireSameRoot
  let dest ← Prog.ofExcept (resolve key)
  requireMatch expected (compute digest expected.algo data)
  perform (.createDirAll (parent dest))
  let tmp := tempPath dest stagingName
  orRemove tmp (writeStaging tmp data)
  let bytes ← orRemove tmp (readToEnd tmp)
  orRemove tmp (requireLength data.length bytes.length)
  let onDisk := compute digest expected.algo bytes
  orRemove tmp (requireMatch expected onDisk)
  orRemove tmp (stamp tmp modified)
  perform (.rename tmp dest)
  syncParent dest
  return ⟨data.length, onDisk⟩

structure SourceFile where
  opened : Except IoError Unit
  blocks : List Bytes
  ended : Except IoError Unit

def writeAll (tmp : Path) (ended : Except StoreError Unit) : List Bytes → Nat → WriteM Nat
  | [], written => do
    Prog.ofExcept ended
    return written
  | block :: rest, written => do
    perform (.write tmp block)
    writeAll tmp ended rest ((written + block.length) % 2 ^ 64)

def streamCopyToTemp (source : SourceFile) (tmp : Path) : WriteM Nat := do
  Prog.ofExcept (Except.mapError StoreError.io source.opened)
  perform (.create tmp)
  let written ← writeAll tmp (Except.mapError StoreError.io source.ended) source.blocks 0
  perform (.flush tmp)
  perform (.sync tmp)
  return written

def hashFile (path : Path) (algo : HashAlgo) : WriteM (ContentHash × Nat) := do
  let bytes ← readToEnd path
  return (compute digest algo bytes, bytes.length % 2 ^ 64)

def putFromPathBlocking (dest : Path) (source : SourceFile) (expected : ContentHash)
    (modified : Option Int) (stagingName : Name) : WriteM PutOutcome := do
  perform (.createDirAll (parent dest))
  let tmp := tempPath dest stagingName
  let written ← orRemove tmp (streamCopyToTemp source tmp)
  let (onDisk, size) ← orRemove tmp (hashFile digest tmp expected.algo)
  orRemove tmp (requireLength written size)
  orRemove tmp (requireMatch expected onDisk)
  orRemove tmp (stamp tmp modified)
  perform (.rename tmp dest)
  syncParent dest
  return ⟨size, onDisk⟩

def putFromPath (fs : Backend) (key : String) (source : SourceFile) (expected : ContentHash)
    (modified : Option Int) (stagingName : Name) : WriteM PutOutcome := do
  fs.requireSameRoot
  let dest ← Prog.ofExcept (resolve key)
  putFromPathBlocking digest dest source expected modified stagingName

structure SourceStream where
  windows : List Bytes
  ended : Except StoreError Unit
  agreed : Except StoreError ContentHash

def streamToStaging (tmp : Path) (source : SourceStream) (dest : Path) (modified : Option Int) :
    WriteM PutOutcome := do
  perform (.create tmp)
  let written ← writeAll tmp source.ended source.windows 0
  perform (.flush tmp)
  perform (.sync tmp)
  let expected ← Prog.ofExcept source.agreed
  let (onDisk, size) ← hashFile digest tmp expected.algo
  requireLength written size
  requireMatch expected onDisk
  stamp tmp modified
  perform (.rename tmp dest)
  syncParent dest
  return ⟨size, onDisk⟩

def putStream (fs : Backend) (key : String) (source : SourceStream) (modified : Option Int)
    (stagingName : Name) : WriteM PutOutcome := do
  fs.requireSameRoot
  let dest ← Prog.ofExcept (resolve key)
  perform (.createDirAll (parent dest))
  let tmp := tempPath dest stagingName
  orRemove tmp (streamToStaging digest tmp source dest modified)

inductive Writer where
  | put (data : Bytes) (expected : ContentHash)
  | putFromPath (source : SourceFile) (expected : ContentHash)
  | putStream (source : SourceStream)

namespace Writer

def run (fs : Backend) (key : String) (modified : Option Int) (stagingName : Name) :
    Writer → WriteM PutOutcome
  | .put data expected => LocalFs.put digest fs key data expected modified stagingName
  | .putFromPath source expected => LocalFs.putFromPath digest fs key source expected
    modified stagingName
  | .putStream source => LocalFs.putStream digest fs key source modified stagingName

/-- The digest that the bytes are held to. -/
def agreed : Writer → Except StoreError ContentHash
  | .put _ expected | .putFromPath _ expected => .ok expected
  | .putStream source => source.agreed

/-- A write that failed has changed no file.  One that succeeded has put bytes with the agreed
digest at the destination, and changed no other file. -/
def Kept (writer : Writer) (key : String) (w w' : World) : Except StoreError PutOutcome → Prop
  | .error _ => w'.files = w.files
  | .ok outcome => ∃ dest expected content, resolve key = .ok dest ∧ writer.agreed = .ok expected ∧
      w'.files = Function.update w.files dest (some content) ∧
      compute digest expected.algo content = expected ∧ outcome.verified = expected

/-- The steps whose failure leaves the staging file where it is. -/
def strands : Writer → Step → Bool
  | _, .op (.remove _) => true
  | .put .., .op (.rename ..) | .putFromPath .., .op (.rename ..) => true
  | _, _ => false

end Writer

end Dctl.Store.LocalFs
