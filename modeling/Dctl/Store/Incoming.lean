import Dctl.ProofKit.Hex
import Dctl.ProofKit.Pipe
import Dctl.Store.Error

/-! An object on its way to a backend with no file behind it: the pipe's two ends
(`incoming/writer.rs`, `incoming/stream.rs`, `incoming/whole.rs`). -/

namespace Dctl.Store

open ProofKit

inductive HashAlgo where
  | blake3
  | sha1
  | sha256
  deriving DecidableEq, Repr

structure ContentHash where
  algo : HashAlgo
  bytes : Bytes
  deriving DecidableEq, Repr

namespace Incoming

def windowLen : Nat := 1024 * 1024

def windowsInFlight : Nat := 4

/-- One message from the producer to the backend.  The writer sends no empty window. -/
inductive Window where
  | bytes (b : Bytes) (nonempty : b ≠ [])
  | done (digest : ContentHash)
  | failed (why : String)
  deriving DecidableEq

def receiverGone : String := "the backend stopped taking this object's bytes"

/-- The producer's handle on an object being written.  The hasher is kept as what was folded. -/
structure ObjectWriter where
  buf : Bytes
  hasher : Bytes
  algo : HashAlgo
  produced : Nat

abbrev Written (α : Type) := Except String α × ObjectWriter

variable (digest : HashAlgo → Bytes → Bytes)

namespace ObjectWriter

def new (algo : HashAlgo) : ObjectWriter := ⟨[], [], algo, 0⟩

def sendWindow (w : ObjectWriter) : Sender Window (Written Unit) :=
  if h : w.buf = [] then .done (.ok (), w)
  else .ask (.bytes w.buf h) fun sent =>
    .done (if sent then .ok () else .error receiverGone, { w with buf := [] })

/-- What a write does to the writer before the window is sent. -/
def taken (w : ObjectWriter) (data : Bytes) : ObjectWriter where
  buf := w.buf ++ data
  hasher := w.hasher ++ data
  algo := w.algo
  produced := (w.produced + data.length) % 2 ^ 64

/-- Take as much of `data` as fits in the current window and send the window once it is full. -/
def write (w : ObjectWriter) (data : Bytes) : Sender Window (Written Nat) :=
  let take := min (windowLen - w.buf.length) data.length
  let w' := w.taken (data.take take)
  if data = [] then .done (.ok 0, w)
  else if windowLen ≤ w'.buf.length then
    w'.sendWindow >>= fun end' => .done (end'.1.map fun _ => take, end'.2)
  else .done (.ok take, w')

def flush (w : ObjectWriter) : Sender Window (Written Unit) := w.sendWindow

/-- Declare the object complete and hand over the digest of everything written. -/
def finish (w : ObjectWriter) : Sender Window (Except String ContentHash) :=
  w.sendWindow >>= fun end' => match end'.1 with
    | .error e => .done (.error e)
    | .ok () =>
      let hash : ContentHash := ⟨w.algo, digest w.algo w.hasher⟩
      .ask (.done hash) fun sent => .done (if sent then .ok hash else .error receiverGone)

/-- Abandon the object, naming why. -/
def fail (why : String) : Sender Window Unit := .ask (.failed why) fun _ => .done ()

end ObjectWriter

def producerVanished : String :=
  "the process producing this object stopped before it finished, so nothing was stored"

/-- The bytes of one object, arriving in bounded windows.  The hasher is kept as what was folded. -/
structure ObjectStream where
  len : Nat
  algo : HashAlgo
  pending : Bytes
  hasher : Option Bytes
  consumed : Nat
  declared : Option ContentHash
  ended : Bool

variable {X : Type} {B : X → Type}

/-- What an operation of the backend gives, and the stream after it. -/
abbrev Streamed (α : Type) := Except StoreError α × ObjectStream

namespace ObjectStream

def new (len : Nat) (algo : HashAlgo) : ObjectStream := ⟨len, algo, [], some [], 0, none, false⟩

/-- Fold `bytes` into the running digest and count them as handed out. -/
def take (s : ObjectStream) (bytes : Bytes) : ObjectStream :=
  { s with
    hasher := s.hasher.map (· ++ bytes)
    consumed := (s.consumed + bytes.length) % 2 ^ 64 }

def nextMessage (s : ObjectStream) :
    Receiver Window B (Streamed (Option { b : Bytes // b ≠ [] })) :=
  if s.ended then .done (.ok none, s)
  else .ask .recv fun (message : Option Window) => .done <| match message with
    | some (.bytes b h) => (.ok (some ⟨b, h⟩), s)
    | some (.done digest) => (.ok none, { s with declared := some digest, ended := true })
    | some (.failed why) => (.error (.backend why), s)
    | none => (.error (.backend producerVanished), s)

def window (s : ObjectStream) : Receiver Window B (Streamed (Option Bytes)) :=
  if s.pending = [] then
    s.nextMessage >>= fun end' => .done <| match end'.1 with
      | .ok (some b) => (.ok (some b.1), end'.2.take b.1)
      | .ok none => (.ok none, end'.2)
      | .error e => (.error e, end'.2)
  else .done (.ok (some s.pending), ({ s with pending := [] } : ObjectStream).take s.pending)

def topUp (s : ObjectStream) : Receiver Window B (Streamed (Option { b : Bytes // b ≠ [] })) :=
  if h : s.pending = [] then s.nextMessage else .done (.ok (some ⟨s.pending, h⟩), s)

/-- Fill a buffer of `want` bytes that holds `filled`, and say what landed in it. -/
def fillFrom (want : Nat) (filled : Bytes) (s : ObjectStream) :
    Receiver Window B (Streamed Bytes) :=
  if _h : filled.length < want then
    s.topUp >>= fun end' => match end'.1 with
      | .error e => .done (.error e, end'.2)
      | .ok none => .done (.ok filled, end'.2)
      | .ok (some b) =>
        let take := min b.1.length (want - filled.length)
        fillFrom want (filled ++ b.1.take take)
          (({ end'.2 with pending := b.1.drop take } : ObjectStream).take (b.1.take take))
  else .done (.ok filled, s)
termination_by want - filled.length
decreasing_by
  have := List.length_pos_iff.mpr b.2
  rw [List.length_append, List.length_take]
  omega

def fill (want : Nat) (s : ObjectStream) : Receiver Window B (Streamed Bytes) := s.fillFrom want []

/-- The digest of this object, once every byte of it has been handed out and the two ends agree
about what those bytes were. -/
def agreed (s : ObjectStream) : Except StoreError ContentHash × ObjectStream :=
  if ¬s.ended then
    (.error (.backend ("this object's digest was asked for before all of its bytes had been " ++
      "read, so nothing about it has been established")), s)
  else if s.consumed ≠ s.len then (.error (.shortWrite s.len s.consumed), s)
  else match s.hasher with
    | none => (.error (.backend "this object's digest was already taken"), s)
    | some folded =>
      let computed : ContentHash := ⟨s.algo, digest s.algo folded⟩
      (match s.declared with
        | none => .error (.backend "the object ended without declaring a digest")
        | some declared =>
          if computed = declared then .ok computed
          else .error (.checksumMismatch (hexEncode declared.bytes) (hexEncode computed.bytes)),
        { s with hasher := none })

/-- Confirm the producer had nothing left to send, then `agreed`. -/
def sealed (s : ObjectStream) : Receiver Window B (Streamed ContentHash) :=
  s.window >>= fun end' => .done <| match end'.1 with
    | .error e => (.error e, end'.2)
    | .ok (some _) =>
      (.error (.backend ("the producer had more bytes to send than the length it " ++
        "declared, so nothing has been committed")), end'.2)
    | .ok none => end'.2.agreed digest

end ObjectStream

end Incoming

end Dctl.Store
