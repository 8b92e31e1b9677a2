import Dctl.Mount.SpillReads
import Dctl.ProofKit.Crowd

/-! The single steps of a spill and its readers on the file they share (`mount/staging.rs`).  A
reader works on a clone of the descriptor, so there is one offset, and whoever seeks, reads or
writes moves it for all.  Every call on the file succeeds, and may move fewer bytes than it was
asked to; one that is interrupted is made again and is no step. -/

namespace Dctl.Mount

open ProofKit Crypto Cli

structure SpillHead where
  key : Key
  len : Nat
  drawn : Nat
  deriving DecidableEq

def Spill.head (s : Spill) : SpillHead := ⟨s.key, s.len, s.drawn⟩

/-- A step on the file.  A write names the slot it is for.  Between `enter` and `leave` the spill is
borrowed by a call that changes it, and no reader is made. -/
inductive Syscall where
  | seek (start : Nat)
  | read (want : Nat)
  | write (index : Nat) (data : Bytes)
  | setLen (len : Nat)
  | enter
  | leave (call : SpillCall) (head : SpillHead)
  | tryClone
  | close

@[reducible] def Reply : Syscall → Type
  | .read _ => Bytes
  | .write .. => Nat
  | .tryClone => SpillHead
  | _ => Unit

abbrev Op (α : Type) : Type := Prog.Fallible Syscall Reply CliError α

def readLoop : (left want : Nat) → Prog Syscall Reply Bytes
  | 0, _ => .done []
  | left + 1, want =>
    if want = 0 then .done []
    else .ask (.read want) fun (got : Bytes) =>
      if got = [] then .done []
      else readLoop left (want - got.length) >>= fun more => .done (got ++ more)

def readFull (want : Nat) : Prog Syscall Reply Bytes := readLoop want want

def writeLoop (index : Nat) : (left : Nat) → Bytes → Prog Syscall Reply Unit
  | 0, _ => .done ()
  | left + 1, data =>
    if data = [] then .done ()
    else .ask (.write index data) fun (n : Nat) => writeLoop index left (data.drop n)

def writeAll (index : Nat) (data : Bytes) : Prog Syscall Reply Unit :=
  writeLoop index data.length data

namespace SpillHead

variable (P : Primitives) (rng : Nat → Nonce)

def readFrame (h : SpillHead) (index : Nat) : Op Bytes :=
  let want := blobLen index h.len
  if want = 0 then pure []
  else do
    Prog.query (Syscall.seek (index * slotLen))
    let blob ← ExceptT.lift (readFull want)
    if blob.length < want then pure []
    else
      Prog.ofExcept ((Aead.decrypt P h.key blob (frameAad index)).mapError
        fun _ => cryptoError "open a frame")

def writeFrame (h : SpillHead) (index : Nat) (plaintext : Bytes) : Op SpillHead := do
  let blob ← Prog.ofExcept ((Aead.encrypt P h.key (rng h.drawn) plaintext (frameAad index)).mapError
    fun _ => cryptoError "seal a frame")
  Prog.query (Syscall.seek (index * slotLen))
  ExceptT.lift (writeAll index blob)
  pure { h with drawn := h.drawn + 1 }

def patch (h : SpillHead) (position : Nat) (chunk : Bytes) : Op SpillHead := do
  let frame ← h.readFrame P (position / frameLen)
  h.writeFrame P rng (position / frameLen) (patched frame (position % frameLen) chunk)

def fillGap : (rounds : Nat) → SpillHead → (at' offset : Nat) → Op SpillHead
  | 0, h, _, _ => pure h
  | rounds + 1, h, at', offset =>
    if at' < offset then do
      let take := Spill.takeLen at' (offset - at')
      let h ← h.patch P rng at' (zeros take)
      fillGap rounds h (at' + take) offset
    else pure h

def writeChunks : (rounds : Nat) → SpillHead → (position : Nat) → Bytes → Op SpillHead
  | 0, h, _, _ => pure h
  | rounds + 1, h, position, data =>
    if data = [] then pure h
    else do
      let take := Spill.takeLen position data.length
      let h ← h.patch P rng position (data.take take)
      writeChunks rounds { h with len := max h.len (position + take) } (position + take)
        (data.drop take)

/-- Write `data` at `offset`, extending the file if it reaches past the end.  A round of either loop
moves a byte. -/
def writeAt (h : SpillHead) (offset : Nat) (data : Bytes) : Op SpillHead :=
  if data = [] then pure h
  else do
    let h ← if h.len < offset then do
        let h ← fillGap P rng (offset - h.len) h h.len offset
        pure { h with len := offset }
      else pure h
    writeChunks P rng data.length h offset data

def growTo : (rounds : Nat) → SpillHead → (at' len step : Nat) → Op SpillHead
  | 0, h, _, _, _ => pure h
  | rounds + 1, h, at', len, step =>
    if at' < len then do
      let take := min (len - at') step
      let h ← h.writeAt P rng at' (zeros take)
      growTo rounds h (at' + take) len step
    else pure h

def truncate (h : SpillHead) (len : Nat) : Op SpillHead := do
  let h ←
    if len < h.len then do
      let frame ← h.readFrame P (len / frameLen)
      let h ← h.writeFrame P rng (len / frameLen) (frame.take (len % frameLen))
      Prog.query (Syscall.setLen ((len + frameLen - 1) / frameLen * slotLen))
      pure h
    else if h.len < len then
      growTo P rng (len - h.len) h h.len len (min (len - h.len) frameLen)
    else pure h
  pure { h with len }

def call (h : SpillHead) : SpillCall → Op SpillHead
  | .write offset data => h.writeAt P rng offset data
  | .truncate len => h.truncate P rng len

end SpillHead

structure ReaderHead where
  key : Key
  len : Nat
  position : Nat
  frame : Bytes
  frameIndex : Nat

def ReaderHead.over (v : ReaderHead) (file : Bytes) : SpillReader :=
  ⟨file, v.key, v.len, v.position, v.frame, v.frameIndex⟩

def SpillHead.reader (h : SpillHead) : ReaderHead := ⟨h.key, h.len, 0, [], 2 ^ 64 - 1⟩

inductive Use where
  | read (out : Nat)
  | seek (dest : SpillReader.SeekFrom)

/-- What a `read` into a buffer of `out` bytes at a position answered. -/
structure Yield where
  position : Nat
  out : Nat
  result : Except String Bytes

namespace ReaderHead

variable (P : Primitives)

def load (v : ReaderHead) (index : Nat) : Prog.Fallible Syscall Reply String ReaderHead :=
  if v.frameIndex = index then pure v
  else do
    Prog.query (Syscall.seek (index * slotLen))
    let blob ← ExceptT.lift (readFull (blobLen index v.len))
    let plain ← Prog.ofExcept
      ((Aead.decrypt P v.key blob (frameAad index)).mapError fun _ => spillFrameFailed)
    pure { v with frame := plain, frameIndex := index }

def read (v : ReaderHead) (out : Nat) : Prog.Fallible Syscall Reply String (Bytes × ReaderHead) :=
  if v.len ≤ v.position ∨ out = 0 then pure ([], v)
  else do
    let within := v.position % frameLen
    let v ← v.load P (v.position / frameLen)
    let available := v.frame.length - within
    let remaining := v.len - v.position
    let take := min (min available remaining) out
    pure ((v.frame.drop within).take take, { v with position := v.position + take })

def seek (v : ReaderHead) (dest : SpillReader.SeekFrom) : Except String ReaderHead :=
  ((v.over []).seek dest).map fun r => { v with position := r.position }

def uses : List Use → ReaderHead → Prog Syscall Reply (List Yield)
  | [], _ => .done []
  | .read out :: rest, v => (v.read P out).run >>= fun x =>
    match x with
    | .ok (bytes, v') => uses rest v' >>= fun more => .done (⟨v.position, out, .ok bytes⟩ :: more)
    | .error e => uses rest v >>= fun more => .done (⟨v.position, out, .error e⟩ :: more)
  | .seek dest :: rest, v =>
    match v.seek dest with
    | .ok v' => uses rest v'
    | .error _ => uses rest v

end ReaderHead

inductive Ended where
  | owner (outcome : Except CliError SpillHead)
  | reader (yields : List Yield)

section Programs

variable (P : Primitives) (rng : Nat → Nonce)

def ownerProg : List SpillCall → SpillHead → Prog Syscall Reply Ended
  | [], h => .done (.owner (.ok h))
  | call :: rest, h => .ask .enter fun _ => (h.call P rng call).run >>= fun x =>
    match x with
    | .ok h' => .ask (.leave call h') fun _ => ownerProg rest h'
    | .error e => .done (.owner (.error e))

def readerProg (us : List Use) : Prog Syscall Reply Ended :=
  .ask .tryClone fun (h : SpillHead) =>
    h.reader.uses P us >>= fun yields => .ask .close fun _ => .done (.reader yields)

end Programs

structure Landing where
  index : Nat
  start : Nat
  count : Nat
  deriving DecidableEq

/-- The bytes that land lie in one slot. -/
def Landing.InSlot (l : Landing) : Prop :=
  l.index * slotLen ≤ l.start ∧ l.start + l.count ≤ (l.index + 1) * slotLen

instance (l : Landing) : Decidable l.InSlot := inferInstanceAs (Decidable (_ ∧ _))

/-- The file with its offset, and what was done with it.  `mark` is where each caller left the
offset, `head` and `content` are the spill and the byte array that its finished calls make, and
`opened` is the array at the time a reader was made.  The owner is the caller `none`. -/
structure Shared (ι : Type) where
  bytes : Bytes
  offset : Nat
  mark : Option ι → Nat
  busy : Bool
  head : SpillHead
  content : Bytes
  opened : ι → Option Bytes
  live : List ι
  landed : List Landing

variable {ι : Type} [DecidableEq ι]

def Shared.moved (s : Shared ι) (i : Option ι) (p : Nat) : Shared ι :=
  { s with offset := p, mark := Function.update s.mark i p }

@[simp, reducible] def maxOffset : Nat := 2 ^ 63

/-- What a step may answer, and what it does. -/
def onFile : Option ι → Prog.Server (Shared ι) Syscall Reply
  | i, s, .seek start, _, s' => start < maxOffset ∧ s' = s.moved i start
  | i, s, .read want, got, s' =>
    got = readAt s.bytes s.offset got.length ∧ got.length ≤ want ∧
      (got = [] → want = 0 ∨ s.bytes.length ≤ s.offset) ∧ s' = s.moved i (s.offset + got.length)
  | none, s, .write index data, n, s' =>
    0 < n ∧ n ≤ data.length ∧
      s' = { s.moved none (s.offset + n) with
        bytes := writeAt s.bytes s.offset (data.take n)
        landed := s.landed ++ [⟨index, s.offset, n⟩] }
  | none, s, .setLen len, _, s' => len < maxOffset ∧ s' = { s with bytes := sized s.bytes len }
  | none, s, .enter, _, s' => s' = { s with busy := true }
  | none, s, .leave call head, _, s' =>
    s' = { s with busy := false, head, content := flatCall s.content call }
  | some j, s, .tryClone, head, s' => s.busy = false ∧ head = s.head ∧
      s' = { s with opened := Function.update s.opened j (some s.content), live := j :: s.live }
  | some j, s, .close, _, s' => s' = { s with live := s.live.filter (· ≠ j) }
  | _, _, _, _, _ => False

def sharedStart (P : Primitives) (rng : Nat → Nonce) (key : Key) (calls : List SpillCall)
    (us : ι → List Use) : Crowd (Option ι) Syscall Reply Ended (Shared ι) where
  state := ⟨[], 0, fun _ => 0, false, ⟨key, 0, 0⟩, [], fun _ => none, [], []⟩
  todo
    | none => ownerProg P rng calls ⟨key, 0, 0⟩
    | some j => readerProg P (us j)

/-- A read fails, or yields the content from its position on: something, unless there is nothing
left or nothing was asked for. -/
def Yield.Of (y : Yield) (content : Bytes) : Prop := ∀ bytes, y.result = .ok bytes →
  bytes = readAt content y.position bytes.length ∧
    (bytes = [] ↔ content.length ≤ y.position ∨ y.out = 0)

/-- Every write landed in its own slot, and every reader that is through yielded the content that
the spill had when it was made, or failed. -/
def Shared.Kept (c : Crowd (Option ι) Syscall Reply Ended (Shared ι)) : Prop :=
  (∀ l ∈ c.state.landed, l.InSlot) ∧
    ∀ j yields content, c.todo (some j) = .done (.reader yields) →
      c.state.opened j = some content → ∀ y ∈ yields, y.Of content

/-- A step that reads or writes finds the offset where its caller left it, and no frame of a reader
that is in use is written over. -/
def InPlace (i : Option ι) (s : Shared ι) : (r : Syscall) → Reply r → Prop
  | .read _, _ => s.offset = s.mark i
  | .write index _, _ => s.offset = s.mark i ∧
      ∀ j ∈ s.live, ∀ content, s.opened j = some content → content.length ≤ index * frameLen
  | _, _ => True

end Dctl.Mount
