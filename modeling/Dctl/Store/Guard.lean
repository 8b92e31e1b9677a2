import Dctl.ProofKit.Crowd
import Dctl.Store.Error

/-! The decorator that refuses to write into a store which is no longer the one a run has been using
(`guard/identity.rs`, `guard/backend.rs`), and the state that its callers share. -/

namespace Dctl.Store

open ProofKit

/-- How much a comparison of two identities is worth. -/
inductive Strength where
  | distinguishing
  | existenceOnly
  deriving DecidableEq, Repr

/-- What a provider says its container is.  Two identities that only say that the container is there
are equal. -/
structure StoreIdentity where
  token : String
  strength : Strength
  bare : strength = .existenceOnly → token = ""
  deriving DecidableEq

namespace StoreIdentity

def distinguishing (token : String) : StoreIdentity := ⟨token, .distinguishing, nofun⟩

def existenceOnly : StoreIdentity := ⟨"", .existenceOnly, fun _ => rfl⟩

end StoreIdentity

/-- What became of the container since the run's first operation. -/
inductive Verdict where
  | proceed
  | gone
  | replaced
  deriving DecidableEq, Repr

def verdict : (recorded now : Option StoreIdentity) → Verdict
  | none, _ => .proceed
  | some _, none => .gone
  | some before, some after => if before.token = after.token then .proceed else .replaced

def refuse (container : String) (v : Verdict) : StoreError :=
  .rootChanged container <| match v with
    | .gone => "has been removed"
    | .replaced => "has been replaced by a different one"
    | .proceed => "changed"

inductive Method where
  | put | putFromPath | putStream | delete | abortIncompleteUpload | prepareUpload
  | get | getToPath | getRange | head | storedChecksum | exists | listPage | listStaging
  | listIncompleteUploads
  deriving DecidableEq, Repr

def Method.writes : Method → Bool
  | .put | .putFromPath | .putStream | .delete | .abortIncompleteUpload | .prepareUpload => true
  | _ => false

/-- What a caller asks of the state that it shares, and of the backend inside. -/
inductive GuardRequest where
  /-- The start of `get_or_try_init`: the identity, or the turn to record it. -/
  | openedAs
  | storeIdentity
  /-- The end of a successful initialisation: the clock is noted and the cell is set. -/
  | record (identity : Option StoreIdentity)
  /-- The end of one that failed. -/
  | giveUp
  | dueToProbe
  /-- The log line of a refusal. -/
  | reportRefusal (v : Verdict)
  | inner (m : Method) (key : String)
  deriving DecidableEq

@[reducible] def GuardRequest.Answer (Reply : Type) : GuardRequest → Type
  | .openedAs => Option (Option StoreIdentity)
  | .storeIdentity => Except StoreError (Option StoreIdentity)
  | .record _ | .giveUp | .reportRefusal _ => Unit
  | .dueToProbe => Bool
  | .inner .. => Except StoreError Reply

variable {Reply : Type}

abbrev GuardM (Reply α : Type) :=
  Prog.Fallible GuardRequest (GuardRequest.Answer Reply) StoreError α

/-- One request, whose failure ends the operation. -/
def probe : GuardM Reply (Option StoreIdentity) := do
  Prog.ofExcept (← Prog.query .storeIdentity)

def settle : Except StoreError (Option StoreIdentity) → GuardM Reply (Option StoreIdentity)
  | .ok identity => do
    let _ ← Prog.query (.record identity)
    return identity
  | .error e => do
    let _ ← Prog.query .giveUp
    throw e

def recordOnce : Option (Option StoreIdentity) → GuardM Reply (Option StoreIdentity)
  | some recorded => return recorded
  | none => do settle (← Prog.query .storeIdentity)

def openedAs : GuardM Reply (Option StoreIdentity) := do
  recordOnce (← Prog.query .openedAs)

/-- Go on where the store is the one that was recorded. -/
def admitOn (container : String) : Verdict → GuardM Reply Unit
  | .proceed => return ()
  | other => do
    let _ ← Prog.query (.reportRefusal other)
    throw (refuse container other)

def compare (container : String) (recorded : Option StoreIdentity) : Bool → GuardM Reply Unit
  | false => return ()
  | true => do admitOn container (verdict recorded (← probe))

def requireSameStore (container : String) : GuardM Reply Unit := do
  let recorded ← openedAs
  compare container recorded (← Prog.query .dueToProbe)

def forward (m : Method) (key : String) : GuardM Reply Reply := do
  Prog.ofExcept (← Prog.query (.inner m key))

def checked (container : String) (m : Method) (key : String) : GuardM Reply Reply := do
  requireSameStore container
  forward m key

def recordedOn (m : Method) (key : String) : GuardM Reply Reply := do
  let _ ← openedAs
  forward m key

section Operations

variable (container key : String)

def put : GuardM Reply Reply := checked container .put key
def putFromPath : GuardM Reply Reply := checked container .putFromPath key
def putStream : GuardM Reply Reply := checked container .putStream key
def delete : GuardM Reply Reply := checked container .delete key
def abortIncompleteUpload : GuardM Reply Reply := checked container .abortIncompleteUpload key
def prepareUpload : GuardM Reply Reply := checked container .prepareUpload key
def get : GuardM Reply Reply := recordedOn .get key
def getToPath : GuardM Reply Reply := recordedOn .getToPath key
def getRange : GuardM Reply Reply := recordedOn .getRange key
def head : GuardM Reply Reply := recordedOn .head key
def storedChecksum : GuardM Reply Reply := recordedOn .storedChecksum key
def «exists» : GuardM Reply Reply := recordedOn .exists key
def listPage : GuardM Reply Reply := recordedOn .listPage key
def listStaging : GuardM Reply Reply := recordedOn .listStaging key
def listIncompleteUploads : GuardM Reply Reply := recordedOn .listIncompleteUploads key

def operation : Method → GuardM Reply Reply
  | .put => put container key
  | .putFromPath => putFromPath container key
  | .putStream => putStream container key
  | .delete => delete container key
  | .abortIncompleteUpload => abortIncompleteUpload container key
  | .prepareUpload => prepareUpload container key
  | .get => get key
  | .getToPath => getToPath key
  | .getRange => getRange key
  | .head => head key
  | .storedChecksum => storedChecksum key
  | .exists => «exists» key
  | .listPage => listPage key
  | .listStaging => listStaging key
  | .listIncompleteUploads => listIncompleteUploads key

theorem operation_eq (m : Method) : (operation container key m : GuardM Reply Reply) =
    if m.writes then checked container m key else recordedOn m key := by
  cases m <;> rfl

end Operations

/-- A probe: the one that recorded the identity, or the one before a write. -/
inductive ProbeId (ι : Type) where
  | opening (i : ι)
  | check (i : ι)
  deriving DecidableEq

/-- What happened, for the statements only.  An answer and a forwarding are noted with the number of
times the store had been exchanged by then. -/
inductive GuardEvent (ι : Type) where
  /-- The write goes by this probe: its own, or the last one whose time was noted. -/
  | checked (i : ι) (by' : Option (ProbeId ι))
  | answered (p : ProbeId ι) (x : Except StoreError (Option StoreIdentity)) (exchanges : Nat)
  | refused (i : ι) (v : Verdict)
  | forwarded (i : ι) (m : Method) (store : Option StoreIdentity) (exchanges : Nat)
  deriving DecidableEq

/-- The cells of one guarded backend, the clock, and the store behind it. -/
structure GuardState (ι : Type) where
  openedAs : Option (Option StoreIdentity)
  /-- The caller whose turn it is to record the identity. -/
  opening : Option ι
  lastProbe : Option Nat
  /-- Whose probe the time belongs to. -/
  stamp : Option (ProbeId ι)
  now : Nat
  store : Option StoreIdentity
  exchanges : Nat
  log : List (GuardEvent ι)
  deriving DecidableEq

variable {ι : Type}

def GuardState.fresh (store : Option StoreIdentity) : GuardState ι where
  openedAs := none
  opening := none
  lastProbe := none
  stamp := none
  now := 0
  store := store
  exchanges := 0
  log := []

def dueToProbe (interval now : Nat) : (last : Option Nat) → Bool
  | some previous => ¬now - previous < interval
  | none => true

namespace GuardState

variable [DecidableEq ι] (w : GuardState ι)

def probing (i : ι) : ProbeId ι := if w.opening = some i then .opening i else .check i

def answer (i : ι) (x : Except StoreError (Option StoreIdentity)) : GuardState ι :=
  { w with log := w.log ++ [.answered (w.probing i) x w.exchanges] }

/-- The critical section of `due_to_probe`. -/
def takeTurn (interval : Nat) (i : ι) : Bool × GuardState ι :=
  if dueToProbe interval w.now w.lastProbe then
    (true, { w with
      lastProbe := some w.now
      stamp := some (.check i)
      log := w.log ++ [.checked i (some (.check i))] })
  else (false, { w with log := w.log ++ [.checked i w.stamp] })

end GuardState

variable [DecidableEq ι]

/-- How the shared state answers the caller `i`.  A probe says what the store is at that moment, or
fails. -/
def guards (interval : Nat) (i : ι) (w : GuardState ι) :
    (r : GuardRequest) → r.Answer Reply → GuardState ι → Prop
  | .openedAs, x, w' =>
    (w.openedAs.isSome ∧ x = w.openedAs ∧ w' = w) ∨
      (w.openedAs = none ∧ w.opening = none ∧ x = none ∧ w' = { w with opening := some i })
  | .storeIdentity, x, w' => (x = .ok w.store ∨ ∃ e, x = .error e) ∧ w' = w.answer i x
  | .record identity, _, w' => w' =
    { w with
      openedAs := some identity
      opening := none
      lastProbe := some w.now
      stamp := some (.opening i) }
  | .giveUp, _, w' => w' = { w with opening := none }
  | .dueToProbe, x, w' => (x, w') = w.takeTurn interval i
  | .reportRefusal v, _, w' => w' = { w with log := w.log ++ [.refused i v] }
  | .inner m _, _, w' => w' = { w with log := w.log ++ [.forwarded i m w.store w.exchanges] }

/-- What happens by itself: time passes, or the store is exchanged, removed or put back. -/
inductive Drift (w : GuardState ι) : GuardState ι → Prop
  | pass (n : Nat) : Drift w { w with now := w.now + n }
  | exchange (store : Option StoreIdentity) :
      Drift w { w with store := store, exchanges := w.exchanges + 1 }

end Dctl.Store
