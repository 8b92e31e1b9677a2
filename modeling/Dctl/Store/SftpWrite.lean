import Dctl.Store.Handover
import Dctl.Store.VerifiedWrite

/-! The staged writes of the SFTP backend (`sftp/write.rs`): bytes in hand, a source of a known
length, and an object that is still being produced.  What a write does is its transcript: the
requests that it makes of the server, of its source and of the meter, each with the answer that it
gets. -/

namespace Dctl.Store.Sftp.Write

open ProofKit Incoming List Prog
open LocalFs (PutOutcome compute)

/-! ### What a write asks for -/

structure Times where
  accessed : UInt32
  modified : UInt32
  deriving DecidableEq

def representable (unixSeconds : Int) : Option UInt32 :=
  if 0 ≤ unixSeconds ∧ unixSeconds < 2 ^ 32 then some (UInt32.ofNat unixSeconds.toNat) else none

/-- The times to stamp on an object, if the protocol can hold the one the writer gave. -/
def times (modified : Option Int) (now : Int) : Option Times := do
  let modified ← representable (← modified)
  return ⟨(representable now).getD modified, modified⟩

inductive Op where
  | create (path : Text)
  | write (data : Bytes)
  | sync
  | close
  | setTimes (path : Text) (times : Times)
  | rename (source target : Text)
  deriving DecidableEq

/-- A request to the server, the source or the meter. -/
inductive Ask where
  | op (o : Op)
  | mkdirP (remoteFile : Text)
  | removeQuiet (path : Text)
  | readExact (n : Nat)
  | charge (bytes : Nat)
  deriving DecidableEq

@[reducible] def Ask.Answer : Ask → Type
  | .op _ => Except StoreError Unit
  | .readExact n => Except IoError { b : Bytes // b.length = n }
  | _ => Unit

abbrev WriteM (α : Type) :=
  Prog.Fallible (Receive Ask) (Receive.Answer Window Ask.Answer) StoreError α

abbrev Exchange := Prog.Exchange (Receive.Answer Window Ask.Answer)

def request (a : Ask) : WriteM a.Answer := Prog.query (Receive.other a)

def perform (o : Op) : WriteM Unit := request (.op o) >>= fun x => Prog.ofExcept x

def mkdirP (remoteFile : Text) : WriteM Unit := request (.mkdirP remoteFile)

def readExact (n : Nat) : WriteM { b : Bytes // b.length = n } :=
  request (.readExact n) >>= fun x => Prog.ofExcept (Except.mapError StoreError.io x)

def charge (bytes : Nat) : WriteM Unit := request (.charge bytes)

def orRemove {α : Type} (tmp : Text) (body : WriteM α) : WriteM α :=
  tryCatch body fun e => do
    request (.removeQuiet tmp)
    throw e

def requireMatch (expected computed : ContentHash) : WriteM Unit :=
  if computed = expected then pure ()
  else throw (.checksumMismatch (hexEncode expected.bytes) (hexEncode computed.bytes))

/-! ### The writers -/

def applyStamp (tmp : Text) : Option Times → WriteM Unit
  | some times => orRemove tmp (perform (.setTimes tmp times))
  | none => pure ()

def publish (tmp remote : Text) (stamp : Option Times) : WriteM Unit := do
  orRemove tmp (perform .sync)
  orRemove tmp (perform .close)
  applyStamp tmp stamp
  orRemove tmp (perform (.rename tmp remote))

variable (digest : HashAlgo → Bytes → Bytes)

def putBytes (remote tmp : Text) (data : Bytes) (expected : ContentHash) (stamp : Option Times) :
    WriteM PutOutcome := do
  let computed := compute digest expected.algo data
  requireMatch expected computed
  mkdirP remote
  perform (.create tmp)
  orRemove tmp (perform (.write data))
  publish tmp remote stamp
  return ⟨data.length, computed⟩

structure ChunkSpan where
  offset : Nat
  len : Nat

def spansFrom (total chunk offset : Nat) : List ChunkSpan :=
  if _h : offset < total then
    let len := min (max chunk 1) (total - offset)
    ⟨offset, len⟩ :: spansFrom total chunk (offset + len)
  else []
termination_by total - offset

def chunkSpans (total chunk : Nat) : List ChunkSpan := spansFrom total chunk 0

def storeSpans (tmp : Text) : List ChunkSpan → Bytes → WriteM Bytes
  | [], hashed => pure hashed
  | span :: rest, hashed => do
    let buf ← orRemove tmp (readExact span.len)
    orRemove tmp (perform (.write buf.1))
    charge span.len
    storeSpans tmp rest (hashed ++ buf.1)

/-- What a streaming write is asked to store. -/
structure Incoming where
  total : Nat
  chunk : Nat
  expected : ContentHash

def putStream (remote tmp : Text) (incoming : Incoming) (stamp : Option Times) :
    WriteM PutOutcome := do
  mkdirP remote
  perform (.create tmp)
  let hashed ← storeSpans tmp (chunkSpans incoming.total incoming.chunk) []
  let computed := compute digest incoming.expected.algo hashed
  orRemove tmp (requireMatch incoming.expected computed)
  publish tmp remote stamp
  return ⟨incoming.total, computed⟩

def storeWindows (tmp : Text) :
    (fuel : Nat) → ObjectStream → Nat → WriteM (Option (ObjectStream × Nat))
  | 0, _, _ => pure none
  | fuel + 1, source, written => do
    let (next, source) ← ExceptT.lift source.window
    match ← orRemove tmp (Prog.ofExcept next) with
    | none => pure (some (source, written))
    | some window =>
      orRemove tmp (perform (.write window))
      charge window.length
      storeWindows tmp fuel source ((written + window.length) % 2 ^ 64)

def putObjectStream (fuel : Nat) (remote tmp : Text) (source : ObjectStream)
    (stamp : Option Times) :
    WriteM (Option PutOutcome) := do
  mkdirP remote
  perform (.create tmp)
  match ← storeWindows tmp fuel source 0 with
  | none => pure none
  | some (source, written) =>
    let verified ← orRemove tmp (Prog.ofExcept (source.agreed digest).1)
    publish tmp remote stamp
    return some ⟨written, verified⟩

inductive Writer where
  | putBytes (data : Bytes) (expected : ContentHash)
  | putStream (incoming : Incoming)
  | putObjectStream (fuel len : Nat) (algo : HashAlgo)

def Writer.run (remote tmp : Text) (stamp : Option Times) : Writer → WriteM (Option PutOutcome)
  | .putBytes data expected => some <$> Write.putBytes digest remote tmp data expected stamp
  | .putStream incoming => some <$> Write.putStream digest remote tmp incoming stamp
  | .putObjectStream fuel len algo =>
    Write.putObjectStream digest fuel remote tmp (.new len algo) stamp

/-! ### Transcripts -/

def op (o : Op) (answer : Except StoreError Unit) : Exchange := ⟨.other (.op o), answer⟩

def removal (tmp : Text) : Exchange := ⟨.other (.removeQuiet tmp), ()⟩

/-- No rename was answered with success. -/
def Unrenamed (l : List Exchange) : Prop :=
  ∀ source target answer, op (.rename source target) answer ∈ l → ∃ e, answer = .error e

/-- What a write that failed has done: no rename, and the staging file is removed if it was created.
-/
structure Undone (tmp : Text) (l : List Exchange) : Prop where
  unrenamed : Unrenamed l
  removed : op (.create tmp) (.ok ()) ∈ l → l.getLast? = some (removal tmp)

/-- The exchanges of a body that is being written. -/
def Feeding : Exchange → Prop
  | ⟨.recv, _⟩ => True
  | ⟨.other (.readExact _), answer⟩ => ∃ b, answer = .ok b
  | ⟨.other (.op (.write _)), answer⟩ => answer = .ok ()
  | ⟨.other (.charge _), _⟩ => True
  | _ => False

def stored (l : List Exchange) : Bytes := l.flatMap fun
  | ⟨.other (.op (.write data)), _⟩ => data
  | _ => []

def readBytes (l : List Exchange) : Bytes := l.flatMap fun
  | ⟨.other (.readExact _), .ok b⟩ => b.1
  | _ => []

def received (l : List Exchange) : List Window := l.filterMap fun
  | ⟨.recv, m⟩ => m
  | _ => none

def begun (remote tmp : Text) : List Exchange :=
  [⟨.other (.mkdirP remote), ()⟩, op (.create tmp) (.ok ())]

def published (tmp remote : Text) (stamp : Option Times) : List Exchange :=
  [op .sync (.ok ()), op .close (.ok ())] ++ (stamp.toList.map fun times =>
    op (.setTimes tmp times) (.ok ())) ++
    [op (.rename tmp remote) (.ok ())]

/-- What the source of a write gave. -/
def Writer.source (l : List Exchange) : Writer → Bytes
  | .putBytes data _ => data
  | .putStream _ => readBytes l
  | .putObjectStream .. => Incoming.windowBytes (received l)

/-- What the digest of a write is held to, and its length. -/
def Writer.Holds (l : List Exchange) (verified : ContentHash) : Writer → Prop
  | .putBytes _ expected => verified = expected
  | .putStream incoming => verified = incoming.expected ∧ (stored l).length = incoming.total
  | .putObjectStream _ len algo => verified.algo = algo ∧
    (received l).getLast? = some (.done verified) ∧
    (stored l).length % 2 ^ 64 = len

/-- What a write that succeeded has done: the source's bytes are in the staging file, and it is
flushed, closed, stamped and renamed after the last of them. -/
def Stored (writer : Writer) (remote tmp : Text) (stamp : Option Times) (l : List Exchange)
    (verified : ContentHash) : Prop :=
  ∃ fed, l = begun remote tmp ++ fed ++ published tmp remote stamp ∧ (∀ e ∈ fed, Feeding e) ∧
    stored fed = writer.source fed ∧ verified = compute digest verified.algo (stored fed) ∧
    writer.Holds fed verified

section

variable {α β : Type} {remote tmp : Text} {stamp : Option Times} {l l' : List Exchange}
  {e : StoreError} {o : Op}

/-! ### Single steps -/

theorem plays_perform {x : Except StoreError Unit} :
    Prog.Plays (perform o).run l x ↔ l = [op o x] := by
  rw [perform, request, plays_request]
  constructor
  · rintro ⟨y, rfl, rfl⟩
    rfl
  · rintro rfl
    exact ⟨x, rfl, rfl⟩

variable {n : Nat}

theorem plays_readExact {x : Except StoreError { b : Bytes // b.length = n }} :
    Prog.Plays (readExact n).run l x ↔
      ∃ answer, l = [⟨.other (.readExact n), answer⟩] ∧
        Except.mapError StoreError.io answer = x := by
  rw [readExact, request, plays_request]

variable {a : Ask}

theorem plays_unit {x : Except StoreError a.Answer} :
    Prog.Plays (request a).run l x ↔ ∃ y, l = [⟨.other a, y⟩] ∧ x = .ok y := plays_query

variable {x : Except StoreError α}

theorem plays_remove :
    Prog.Plays (request (.removeQuiet tmp) >>= fun _ => (throw e : WriteM α)).run l x ↔
      l = [removal tmp] ∧ x = .error e := by
  rw [plays_fallible_bind]
  constructor
  · rintro (⟨e', -, hremove⟩ | ⟨u, l₁, l₂, rfl, hremove, hthrow⟩)
    · obtain ⟨u, -, heq⟩ := plays_unit.mp hremove
      cases heq
    · obtain ⟨u', rfl, -⟩ := plays_unit.mp hremove
      obtain ⟨rfl, rfl⟩ := plays_throw.mp hthrow
      exact ⟨rfl, rfl⟩
  · rintro ⟨rfl, rfl⟩
    exact .inr ⟨(), [removal tmp], [], rfl, plays_unit.mpr ⟨(), rfl, rfl⟩,
      plays_throw.mpr ⟨rfl, rfl⟩⟩

variable {body : WriteM α}

theorem plays_orRemove : Prog.Plays (orRemove tmp body).run l x ↔
    (∃ a, x = .ok a ∧ Prog.Plays body.run l (.ok a)) ∨
      ∃ e l', x = .error e ∧ l = l' ++ [removal tmp] ∧ Prog.Plays body.run l' (.error e) := by
  rw [orRemove, plays_tryCatch]
  constructor
  · rintro (hok | ⟨e, l₁, l₂, rfl, hbody, hremove⟩)
    · exact .inl hok
    · obtain ⟨rfl, rfl⟩ := plays_remove.mp hremove
      exact .inr ⟨e, l₁, rfl, rfl, hbody⟩
  · rintro (hok | ⟨e, l', rfl, rfl, hbody⟩)
    · exact .inl hok
    · exact .inr ⟨e, l', _, rfl, hbody, plays_remove.mpr ⟨rfl, rfl⟩⟩

theorem plays_orRemove_ok {a : α} :
    Prog.Plays (orRemove tmp body).run l (.ok a) ↔ Prog.Plays body.run l (.ok a) := by
  rw [plays_orRemove]
  constructor
  · rintro (⟨a', heq, hbody⟩ | ⟨e, l', heq, -⟩)
    · cases heq
      exact hbody
    · cases heq
  · exact fun h => .inl ⟨a, rfl, h⟩

variable {f : α → WriteM β}

theorem plays_orRemove_ofExcept {y : Except StoreError α} {x : Except StoreError β}
    (h : Prog.Plays (orRemove tmp (Prog.ofExcept y) >>= f).run l x) :
    (∃ e, y = .error e ∧ l = [removal tmp] ∧ x = .error e) ∨
      ∃ a, y = .ok a ∧ Prog.Plays (f a).run l x := by
  rcases plays_fallible_bind.mp h with ⟨e, rfl, hfail⟩ | ⟨a, l₁, l₂, rfl, hok, hnext⟩
  · rcases plays_orRemove.mp hfail with ⟨a, heq, -⟩ | ⟨e', l', heq, rfl, hy⟩
    · cases heq
    · cases heq
      obtain ⟨rfl, rfl⟩ := plays_ofExcept.mp hy
      exact .inl ⟨e, rfl, rfl, rfl⟩
  · obtain ⟨rfl, rfl⟩ := plays_ofExcept.mp (plays_orRemove_ok.mp hok)
    exact .inr ⟨a, rfl, hnext⟩

/-! ### Failures -/

def Failed (tmp : Text) (l : List Exchange) : Prop := Unrenamed l ∧ l.getLast? = some (removal tmp)

theorem unrenamed_append : Unrenamed (l ++ l') ↔ Unrenamed l ∧ Unrenamed l' := by
  constructor
  · intro h
    exact ⟨fun s t x hx => h s t x (mem_append_left _ hx),
      fun s t x hx => h s t x (mem_append_right _ hx)⟩
  · rintro ⟨h, h'⟩ s t x hx
    rcases mem_append.mp hx with hx | hx
    · exact h s t x hx
    · exact h' s t x hx

theorem Failed.append (h : Failed tmp l') (hl : Unrenamed l) : Failed tmp (l ++ l') := by
  refine ⟨unrenamed_append.mpr ⟨hl, h.1⟩, ?_⟩
  rw [List.getLast?_append, h.2]
  rfl

theorem unrenamed_other {y : a.Answer} (h : ∀ o, a ≠ .op o) : Unrenamed [⟨.other a, y⟩] := by
  intro source target answer hmem
  rw [mem_singleton] at hmem
  unfold op at hmem
  cases hmem
  exact absurd rfl (h _)

theorem unrenamed_removal : Unrenamed [removal tmp] := unrenamed_other nofun

theorem unrenamed_op {x : Except StoreError Unit}
    (h : (∃ e, x = .error e) ∨ ∀ source target, o ≠ .rename source target) :
    Unrenamed [op o x] := by
  intro source target answer hmem
  rw [mem_singleton] at hmem
  unfold op at hmem
  cases hmem
  exact h.resolve_right fun hne => hne source target rfl

theorem unrenamed_nil : Unrenamed [] := fun _ _ _ h => absurd h not_mem_nil

def Cleans (tmp : Text) (p : WriteM α) : Prop := ∀ l e, Prog.Plays p.run l (.error e) → Failed tmp l

/-- A program that renames nothing when it goes on. -/
def Tame (p : WriteM α) : Prop := ∀ l a, Prog.Plays p.run l (.ok a) → Unrenamed l

theorem Cleans.bind {p : WriteM α} (hp : Cleans tmp p) (htame : Tame p)
    (hf : ∀ a, Cleans tmp (f a)) :
    Cleans tmp (p >>= f) := by
  intro l e h
  rcases plays_fallible_bind.mp h with ⟨e', -, hfail⟩ | ⟨a, l₁, l₂, rfl, hok, hnext⟩
  · exact hp l e' hfail
  · exact (hf a l₂ e hnext).append (htame l₁ a hok)

theorem Cleans.map {p : WriteM α} {g : α → β} (hp : Cleans tmp p) :
    Cleans tmp (p >>= fun a => pure (g a)) := by
  intro l e h
  rcases plays_fallible_bind.mp h with ⟨e', -, hfail⟩ | ⟨a, l₁, l₂, -, -, hnext⟩
  · exact hp l e' hfail
  · cases (plays_pure.mp hnext).2

theorem Tame.bind {p : WriteM α} (hp : Tame p) (hf : ∀ a, Tame (f a)) : Tame (p >>= f) := by
  intro l b h
  obtain ⟨a, l₁, l₂, rfl, hok, hnext⟩ := plays_bind_ok.mp h
  exact unrenamed_append.mpr ⟨hp l₁ a hok, hf a l₂ b hnext⟩

theorem cleans_pure (a : α) : Cleans tmp (pure a : WriteM α) := by
  intro l e h
  cases (plays_pure.mp h).2

theorem tame_pure (a : α) : Tame (pure a : WriteM α) := by
  intro l b h
  rw [(plays_pure.mp h).1]
  exact unrenamed_nil

theorem cleans_orRemove (h : ∀ l e, Prog.Plays body.run l (.error e) → Unrenamed l) :
    Cleans tmp (orRemove tmp body) := by
  intro l e hplays
  rcases plays_orRemove.mp hplays with ⟨a, heq, -⟩ | ⟨e', l', -, rfl, hbody⟩
  · cases heq
  · refine ⟨unrenamed_append.mpr ⟨h l' e' hbody, unrenamed_removal⟩, ?_⟩
    rw [List.getLast?_append]
    rfl

theorem tame_orRemove (h : Tame body) : Tame (orRemove tmp body) :=
  fun l a hplays => h l a (plays_orRemove_ok.mp hplays)

theorem cleans_perform : Cleans tmp (orRemove tmp (perform o)) := by
  refine cleans_orRemove fun l e h => ?_
  rw [plays_perform.mp h]
  exact unrenamed_op (.inl ⟨e, rfl⟩)

theorem tame_perform (h : ∀ source target, o ≠ .rename source target) : Tame (perform o) := by
  intro l a hplays
  rw [plays_perform.mp hplays]
  exact unrenamed_op (.inr h)

variable {data : Bytes}

theorem tame_write : Tame (perform (.write data)) := tame_perform nofun

theorem cleans_request : Cleans tmp (request a) := by
  intro l e h
  obtain ⟨y, -, heq⟩ := plays_unit.mp h
  cases heq

theorem tame_request (h : ∀ o, a ≠ .op o) : Tame (request a) := by
  intro l x hplays
  obtain ⟨y, rfl, -⟩ := plays_unit.mp hplays
  exact unrenamed_other h

theorem cleans_ofExcept : Cleans tmp (orRemove tmp (Prog.ofExcept x)) := by
  refine cleans_orRemove fun l e h => ?_
  rw [(plays_ofExcept.mp h).1]
  exact unrenamed_nil

theorem tame_ofExcept : Tame (Prog.ofExcept x : WriteM α) := by
  intro l a h
  rw [(plays_ofExcept.mp h).1]
  exact unrenamed_nil

theorem cleans_applyStamp : Cleans tmp (applyStamp tmp stamp) := by
  cases stamp with
  | none => exact cleans_pure ()
  | some times => exact cleans_perform

theorem tame_applyStamp : Tame (applyStamp tmp stamp) := by
  cases stamp with
  | none => exact tame_pure ()
  | some times => exact tame_orRemove (tame_perform nofun)

theorem cleans_publish : Cleans tmp (publish tmp remote stamp) := by
  refine cleans_perform.bind (tame_orRemove (tame_perform nofun)) fun _ => ?_
  refine cleans_perform.bind (tame_orRemove (tame_perform nofun)) fun _ => ?_
  exact cleans_applyStamp.bind tame_applyStamp fun _ => cleans_perform

/-! ### The common ends -/

theorem plays_applyStamp_ok (h : Prog.Plays (applyStamp tmp stamp).run l (.ok ())) :
    l = stamp.toList.map fun times => op (.setTimes tmp times) (.ok ()) := by
  cases stamp with
  | none => exact (plays_pure.mp h).1
  | some times =>
    rw [applyStamp, plays_orRemove_ok, plays_perform] at h
    exact h

theorem plays_publish_ok (h : Prog.Plays (publish tmp remote stamp).run l (.ok ())) :
    l = published tmp remote stamp := by
  obtain ⟨_, l₁, l₂, rfl, hsync, hrest⟩ := plays_bind_ok.mp h
  obtain ⟨_, l₃, l₄, rfl, hclose, hrest'⟩ := plays_bind_ok.mp hrest
  obtain ⟨_, l₅, l₆, rfl, hstamp, hrename⟩ := plays_bind_ok.mp hrest'
  rw [plays_orRemove_ok, plays_perform] at hsync hclose hrename
  rw [hsync, hclose, hrename, plays_applyStamp_ok hstamp]
  rfl

def staged (remote tmp : Text) (rest : WriteM α) : WriteM α := do
  mkdirP remote
  perform (.create tmp)
  rest

theorem plays_staged_ok {rest : WriteM α} {a : α}
    (h : Prog.Plays (staged remote tmp rest).run l (.ok a)) :
    ∃ l', l = begun remote tmp ++ l' ∧ Prog.Plays rest.run l' (.ok a) := by
  obtain ⟨_, l₁, l₂, rfl, hmkdir, hmore⟩ := plays_bind_ok.mp h
  obtain ⟨_, l₃, l₄, rfl, hcreate, hrest⟩ := plays_bind_ok.mp hmore
  obtain ⟨_, rfl, -⟩ := plays_unit.mp hmkdir
  rw [plays_perform] at hcreate
  exact ⟨l₄, by rw [hcreate]; rfl, hrest⟩

theorem undone_staged {rest : WriteM α} (hrest : Cleans tmp rest)
    (h : Prog.Plays (staged remote tmp rest).run l (.error e)) : Undone tmp l := by
  have hmkdirs : ∀ y : Unit, Unrenamed [⟨.other (.mkdirP remote), y⟩] :=
    fun y => unrenamed_other nofun
  rcases plays_fallible_bind.mp h with ⟨e', -, hmkdir⟩ | ⟨_, l₁, l₂, rfl, hmkdir, hmore⟩
  · obtain ⟨_, -, heq⟩ := plays_unit.mp hmkdir
    cases heq
  obtain ⟨y, rfl, -⟩ := plays_unit.mp hmkdir
  rcases plays_fallible_bind.mp hmore with ⟨e', -, hcreate⟩ | ⟨_, l₃, l₄, rfl, hcreate, hnext⟩
  · rw [plays_perform] at hcreate
    subst hcreate
    refine ⟨unrenamed_append.mpr ⟨hmkdirs y, unrenamed_op (.inl ⟨e', rfl⟩)⟩, fun hmem => ?_⟩
    unfold op at hmem
    simp at hmem
  · rw [plays_perform] at hcreate
    subst hcreate
    have hbegun : Unrenamed [op (.create tmp) (.ok ())] := unrenamed_op (.inr nofun)
    have hfailed := ((hrest l₄ e hnext).append hbegun).append (hmkdirs y)
    exact ⟨hfailed.1, fun _ => hfailed.2⟩

/-! ### Bytes in hand -/

variable {digest : HashAlgo → Bytes → Bytes} {expected computed : ContentHash}
  {outcome : PutOutcome}

theorem plays_requireMatch {x : Except StoreError Unit}
    (h : Prog.Plays (requireMatch expected computed).run l x) :
    l = [] ∧ (x = .ok () → computed = expected) := by
  unfold requireMatch at h
  split at h
  · rename_i heq
    exact ⟨(plays_pure.mp h).1, fun _ => heq⟩
  · obtain ⟨hl, rfl⟩ := plays_throw.mp h
    exact ⟨hl, nofun⟩

theorem cleans_requireMatch : Cleans tmp (orRemove tmp (requireMatch expected computed)) := by
  refine cleans_orRemove fun l e h => ?_
  rw [(plays_requireMatch h).1]
  exact unrenamed_nil

theorem tame_requireMatch : Tame (requireMatch expected computed) := by
  intro l a h
  rw [(plays_requireMatch h).1]
  exact unrenamed_nil

theorem putBytes_eq (data : Bytes) : putBytes digest remote tmp data expected stamp =
    requireMatch expected (compute digest expected.algo data) >>= fun _ =>
      staged remote tmp (orRemove tmp (perform (.write data)) >>= fun _ =>
        publish tmp remote stamp >>= fun _ =>
        pure ⟨data.length, compute digest expected.algo data⟩) := rfl

theorem undone_putBytes
    (h : Prog.Plays (putBytes digest remote tmp data expected stamp).run l (.error e)) :
    Undone tmp l := by
  rw [putBytes_eq] at h
  rcases plays_fallible_bind.mp h with ⟨e', -, hmatch⟩ | ⟨_, l₁, l₂, rfl, hmatch, hstaged⟩
  · rw [(plays_requireMatch hmatch).1]
    exact ⟨unrenamed_nil, fun hmem => absurd hmem not_mem_nil⟩
  · rw [(plays_requireMatch hmatch).1]
    refine undone_staged ?_ hstaged
    exact cleans_perform.bind (tame_orRemove tame_write) fun _ => cleans_publish.map

theorem stored_putBytes
    (h : Prog.Plays (putBytes digest remote tmp data expected stamp).run l (.ok outcome)) :
    Stored digest (.putBytes data expected) remote tmp stamp l outcome.verified := by
  rw [putBytes_eq] at h
  obtain ⟨_, l₁, l₂, rfl, hmatch, hstaged⟩ := plays_bind_ok.mp h
  obtain ⟨l₃, rfl, hrest⟩ := plays_staged_ok hstaged
  obtain ⟨_, l₄, l₅, rfl, hwrite, hend⟩ := plays_bind_ok.mp hrest
  obtain ⟨_, l₆, l₇, rfl, hpublish, hpure⟩ := plays_bind_ok.mp hend
  obtain ⟨rfl, houtcome⟩ := plays_pure.mp hpure
  obtain rfl := Except.ok.inj houtcome
  rw [plays_orRemove_ok, plays_perform] at hwrite
  have hdata : stored l₄ = data := by
    rw [hwrite]
    exact append_nil data
  refine ⟨l₄, ?_, ?_, hdata, ?_, (plays_requireMatch hmatch).2 rfl⟩
  · rw [(plays_requireMatch hmatch).1, plays_publish_ok hpublish, append_nil,
      nil_append, append_assoc]
  · intro x hx
    rw [hwrite, mem_singleton] at hx
    rw [hx]
    rfl
  · rw [hdata]
    rfl

/-! ### A source of a known length -/

theorem spansFrom_len (total chunk offset : Nat) :
    ((spansFrom total chunk offset).map ChunkSpan.len).sum = total - offset := by
  fun_induction spansFrom total chunk offset with
  | case1 offset h len ih =>
    rw [map_cons, sum_cons, ih]
    change len + (total - (offset + len)) = total - offset
    omega
  | case2 offset h =>
    rw [map_nil, sum_nil]
    omega

theorem plays_readExact_ok {b : { b : Bytes // b.length = n }} :
    Prog.Plays (readExact n).run l (.ok b) ↔ l = [⟨.other (.readExact n), .ok b⟩] := by
  rw [plays_readExact]
  constructor
  · rintro ⟨answer, rfl, hanswer⟩
    cases answer with
    | error e => cases hanswer
    | ok b' => rw [Except.ok.inj hanswer]
  · rintro rfl
    exact ⟨_, rfl, rfl⟩

theorem cleans_readExact : Cleans tmp (orRemove tmp (readExact n)) := by
  refine cleans_orRemove fun l e h => ?_
  obtain ⟨answer, rfl, -⟩ := plays_readExact.mp h
  exact unrenamed_other nofun

theorem tame_readExact : Tame (readExact n) := by
  intro l a h
  obtain ⟨answer, rfl, -⟩ := plays_readExact.mp h
  exact unrenamed_other nofun

theorem tame_charge : Tame (charge n) := tame_request nofun

theorem cleans_storeSpans (spans : List ChunkSpan) (hashed : Bytes) :
    Cleans tmp (storeSpans tmp spans hashed) := by
  induction spans generalizing hashed with
  | nil => exact cleans_pure hashed
  | cons span rest ih =>
    refine cleans_readExact.bind (tame_orRemove tame_readExact) fun buf => ?_
    refine cleans_perform.bind (tame_orRemove tame_write) fun _ => ?_
    exact cleans_request.bind tame_charge fun _ => ih _

theorem tame_storeSpans (spans : List ChunkSpan) (hashed : Bytes) :
    Tame (storeSpans tmp spans hashed) := by
  induction spans generalizing hashed with
  | nil => exact tame_pure hashed
  | cons span rest ih =>
    refine (tame_orRemove tame_readExact).bind fun buf => ?_
    refine (tame_orRemove tame_write).bind fun _ => ?_
    exact tame_charge.bind fun _ => ih _

theorem plays_storeSpans_ok {spans : List ChunkSpan} {hashed out : Bytes}
    (h : Prog.Plays (storeSpans tmp spans hashed).run l (.ok out)) :
    (∀ e ∈ l, Feeding e) ∧ out = hashed ++ stored l ∧ stored l = readBytes l ∧
      (stored l).length = (spans.map ChunkSpan.len).sum := by
  induction spans generalizing hashed l with
  | nil =>
    obtain ⟨rfl, hout⟩ := plays_pure.mp h
    obtain rfl := Except.ok.inj hout
    exact ⟨fun _ hmem => absurd hmem not_mem_nil, (append_nil _).symm, rfl, rfl⟩
  | cons span rest ih =>
    obtain ⟨buf, l₁, l₂, rfl, hread, hwriting⟩ := plays_bind_ok.mp h
    obtain ⟨_, l₃, l₄, rfl, hwrite, hcharging⟩ := plays_bind_ok.mp hwriting
    obtain ⟨_, l₅, l₆, rfl, hcharge, hrest⟩ := plays_bind_ok.mp hcharging
    rw [plays_orRemove_ok, plays_readExact_ok] at hread
    rw [plays_orRemove_ok, plays_perform] at hwrite
    obtain ⟨_, rfl, -⟩ := plays_unit.mp hcharge
    obtain ⟨hfeeding, hout, hsource, hlen⟩ := ih hrest
    subst hread hwrite
    have hstored : stored ([⟨.other (.readExact span.len), .ok buf⟩] ++
        ([op (.write buf.1) (.ok ())] ++ ([⟨.other (.charge span.len), ()⟩] ++ l₆))) =
          buf.1 ++ stored l₆ := rfl
    refine ⟨?_, ?_, ?_, ?_⟩
    · simp only [forall_mem_append, forall_mem_singleton]
      exact ⟨⟨buf, rfl⟩, rfl, trivial, hfeeding⟩
    · rw [hout, hstored, append_assoc]
    · rw [hstored, hsource]
      rfl
    · rw [hstored, length_append, hlen, buf.2, map_cons, sum_cons]

theorem putStream_eq (incoming : Incoming) : putStream digest remote tmp incoming stamp =
    staged remote tmp (storeSpans tmp (chunkSpans incoming.total incoming.chunk)
      [] >>= fun hashed =>
      orRemove tmp (requireMatch incoming.expected
        (compute digest incoming.expected.algo hashed)) >>= fun _ =>
        publish tmp remote stamp >>= fun _ =>
          pure ⟨incoming.total, compute digest incoming.expected.algo hashed⟩) := rfl

theorem undone_putStream {incoming : Incoming}
    (h : Prog.Plays (putStream digest remote tmp incoming stamp).run l (.error e)) :
    Undone tmp l := by
  rw [putStream_eq] at h
  refine undone_staged ?_ h
  refine (cleans_storeSpans _ _).bind (tame_storeSpans _ _) fun hashed => ?_
  exact cleans_requireMatch.bind (tame_orRemove tame_requireMatch) fun _ => cleans_publish.map

theorem stored_putStream {incoming : Incoming}
    (h : Prog.Plays (putStream digest remote tmp incoming stamp).run l (.ok outcome)) :
    Stored digest (.putStream incoming) remote tmp stamp l outcome.verified := by
  rw [putStream_eq] at h
  obtain ⟨l₁, rfl, hrest⟩ := plays_staged_ok h
  obtain ⟨hashed, fed, l₃, rfl, hspans, hmatching⟩ := plays_bind_ok.mp hrest
  obtain ⟨_, l₄, l₅, rfl, hmatch, hend⟩ := plays_bind_ok.mp hmatching
  obtain ⟨_, l₆, l₇, rfl, hpublish, hpure⟩ := plays_bind_ok.mp hend
  obtain ⟨rfl, houtcome⟩ := plays_pure.mp hpure
  obtain rfl := Except.ok.inj houtcome
  obtain ⟨hfeeding, rfl, hsource, hlen⟩ := plays_storeSpans_ok hspans
  obtain ⟨rfl, hexpected⟩ := plays_requireMatch (plays_orRemove_ok.mp hmatch)
  refine ⟨fed, ?_, hfeeding, hsource, ?_, hexpected rfl, ?_⟩
  · rw [plays_publish_ok hpublish, append_nil, nil_append, append_assoc]
  · rfl
  · rw [hlen, chunkSpans, spansFrom_len, Nat.sub_zero]

/-! ### An object that is still being produced -/

def following (len : Nat) (algo : HashAlgo) (handed : Bytes) : ObjectStream :=
  { ObjectStream.new len algo with hasher := some handed, consumed := handed.length % 2 ^ 64 }

variable {len : Nat} {algo : HashAlgo} {handed : Bytes}

theorem following_take (b : Bytes) :
    (following len algo handed).take b = following len algo (handed ++ b) := by
  simp [following, ObjectStream.take, ObjectStream.new]

theorem plays_window {x : Streamed (Option Bytes)}
    (h : Prog.Plays (following len algo handed).window l x) :
    ∃ message : Option Window, l = [⟨.recv, message⟩] ∧ x = match message with
      | some (.bytes b _) => (.ok (some b), following len algo (handed ++ b))
      | some (.done d) =>
        (.ok none, { following len algo handed with declared := some d, ended := true })
      | some (.failed why) => (.error (.backend why), following len algo handed)
      | none => (.error (.backend producerVanished), following len algo handed) := by
  obtain ⟨message, l', rfl, hend⟩ := plays_ask.mp h
  refine ⟨message, ?_⟩
  match message, hend with
  | some (.bytes b hb), hend =>
    obtain ⟨rfl, rfl⟩ := plays_done.mp hend
    exact ⟨rfl, congrArg (fun s => (Except.ok (some b), s)) (following_take b)⟩
  | some (.done d), hend =>
    obtain ⟨rfl, rfl⟩ := plays_done.mp hend
    exact ⟨rfl, rfl⟩
  | some (.failed why), hend =>
    obtain ⟨rfl, rfl⟩ := plays_done.mp hend
    exact ⟨rfl, rfl⟩
  | none, hend =>
    obtain ⟨rfl, rfl⟩ := plays_done.mp hend
    exact ⟨rfl, rfl⟩

def finished (len : Nat) (algo : HashAlgo) (handed : Bytes) (d : ContentHash) : ObjectStream :=
  { following len algo handed with declared := some d, ended := true }

def stepOn (tmp : Text) (fuel len : Nat) (algo : HashAlgo) (handed b : Bytes) (written : Nat) :
    WriteM (Option (ObjectStream × Nat)) :=
  orRemove tmp (perform (.write b)) >>= fun _ => charge b.length >>= fun _ =>
    storeWindows tmp fuel (following len algo (handed ++ b)) ((written + b.length) % 2 ^ 64)

variable {fuel written : Nat}

theorem plays_storeWindows {x : Except StoreError (Option (ObjectStream × Nat))}
    (h : Prog.Plays (storeWindows tmp (fuel + 1) (following len algo handed) written).run l x) :
    (∃ b hb l', l = ⟨.recv, some (.bytes b hb)⟩ :: l' ∧
        Prog.Plays (stepOn tmp fuel len algo handed b written).run l' x) ∨
      (∃ d, l = [⟨.recv, some (.done d)⟩] ∧ x = .ok (some (finished len algo handed d, written))) ∨
      ∃ message e, l = [⟨.recv, message⟩, removal tmp] ∧ x = .error e := by
  rw [storeWindows] at h
  rcases plays_fallible_bind.mp h with ⟨e, -, hlift⟩ | ⟨⟨next, source⟩, l₁, l₂, rfl, hlift, hmore⟩
  · exact absurd hlift not_plays_lift_error
  obtain ⟨message, rfl, hnext⟩ := plays_window (plays_lift.mp hlift)
  rcases plays_orRemove_ofExcept hmore with ⟨e, rfl, rfl, rfl⟩ | ⟨window, rfl, hstep⟩
  · exact .inr (.inr ⟨message, e, rfl, rfl⟩)
  match message, hnext with
  | some (.bytes b hb), hnext =>
    cases hnext
    exact .inl ⟨b, hb, l₂, rfl, hstep⟩
  | some (.done d), hnext =>
    cases hnext
    obtain ⟨rfl, rfl⟩ := plays_pure.mp hstep
    exact .inr (.inl ⟨d, rfl, rfl⟩)
  | some (.failed why), hnext => cases hnext
  | none, hnext => cases hnext

theorem plays_stepOn_ok {b : Bytes} {a : Option (ObjectStream × Nat)}
    (h : Prog.Plays (stepOn tmp fuel len algo handed b written).run l (.ok a)) :
    ∃ l', l = op (.write b) (.ok ()) :: ⟨.other (.charge b.length), ()⟩ :: l' ∧
      Prog.Plays (storeWindows tmp fuel (following len algo (handed ++ b))
        ((written + b.length) % 2 ^ 64)).run l'
        (.ok a) := by
  obtain ⟨_, l₁, l₂, rfl, hwrite, hcharging⟩ := plays_bind_ok.mp h
  obtain ⟨_, l₃, l', rfl, hcharge, hrest⟩ := plays_bind_ok.mp hcharging
  rw [plays_orRemove_ok, plays_perform] at hwrite
  obtain ⟨_, rfl, -⟩ := plays_unit.mp hcharge
  exact ⟨l', by rw [hwrite]; rfl, hrest⟩

theorem unrenamed_recv {message : Option Window} : Unrenamed [⟨.recv, message⟩] := by
  intro source target answer hmem
  rw [mem_singleton] at hmem
  cases hmem

theorem cleans_storeWindows (fuel written : Nat) (handed : Bytes) :
    Cleans tmp (storeWindows tmp fuel (following len algo handed) written) := by
  induction fuel generalizing handed written with
  | zero => exact cleans_pure none
  | succ fuel ih =>
    intro l e h
    rcases plays_storeWindows h with ⟨b, hb, l', rfl, hstep⟩ | ⟨d, -, hx⟩ | ⟨message, e', rfl, -⟩
    · have hclean : Cleans tmp (stepOn tmp fuel len algo handed b written) :=
        cleans_perform.bind (tame_orRemove tame_write) fun _ =>
          cleans_request.bind tame_charge fun _ => ih _ _
      exact (hclean l' e hstep).append unrenamed_recv
    · cases hx
    · exact ⟨unrenamed_append.mpr ⟨unrenamed_recv, unrenamed_removal⟩, rfl⟩

theorem tame_storeWindows (fuel written : Nat) (handed : Bytes) :
    Tame (storeWindows tmp fuel (following len algo handed) written) := by
  induction fuel generalizing handed written with
  | zero => exact tame_pure none
  | succ fuel ih =>
    intro l a h
    rcases plays_storeWindows h with ⟨b, hb, l', rfl, hstep⟩ | ⟨d, rfl, -⟩ | ⟨message, e, -, hx⟩
    · have htame : Tame (stepOn tmp fuel len algo handed b written) :=
        (tame_orRemove tame_write).bind fun _ => tame_charge.bind fun _ => ih _ _
      exact unrenamed_append.mpr ⟨unrenamed_recv, htame l' a hstep⟩
    · exact unrenamed_recv
    · cases hx

theorem plays_storeWindows_ok {total : Nat} {source : ObjectStream}
    (h : Prog.Plays (storeWindows tmp fuel (following len algo handed) written).run l
      (.ok (some (source, total)))) :
    (∀ e ∈ l, Feeding e) ∧ stored l = Incoming.windowBytes (received l) ∧
      ∃ d, (received l).getLast? = some (.done d) ∧
        source = finished len algo (handed ++ stored l) d := by
  induction fuel generalizing handed written l with
  | zero => cases (plays_pure.mp h).2
  | succ fuel ih =>
    rcases plays_storeWindows h with ⟨b, hb, l', rfl, hstep⟩ | ⟨d, rfl, hx⟩ | ⟨message, e, -, hx⟩
    · obtain ⟨l₁, rfl, hrest⟩ := plays_stepOn_ok hstep
      obtain ⟨hfeeding, hsource, d, hlast, rfl⟩ := ih hrest
      refine ⟨?_, ?_, d, ?_, ?_⟩
      · rw [forall_mem_cons, forall_mem_cons, forall_mem_cons]
        exact ⟨trivial, rfl, trivial, hfeeding⟩
      · change b ++ stored l₁ = Incoming.windowBytes (.bytes b hb :: received l₁)
        rw [Incoming.windowBytes_cons, hsource]
      · change (.bytes b hb :: received l₁).getLast? = some (.done d)
        rw [List.getLast?_cons, hlast]
        rfl
      · rw [append_assoc]
        rfl
    · cases hx
      refine ⟨forall_mem_singleton.mpr trivial, rfl, d, rfl, ?_⟩
      change _ = finished len algo (handed ++ []) d
      rw [append_nil]
    · cases hx

theorem agreed_finished {d verified : ContentHash}
    (h : ((finished len algo handed d).agreed digest).1 = .ok verified) :
    verified = ⟨algo, digest algo handed⟩ ∧ verified = d ∧ handed.length % 2 ^ 64 = len := by
  unfold ObjectStream.agreed at h
  split at h
  next hended => exact absurd rfl hended
  split at h
  next => cases h
  next hlen =>
    change (if (⟨algo, digest algo handed⟩ : ContentHash) = d then _ else _) = _ at h
    split at h
    next hagree =>
      cases h
      exact ⟨rfl, hagree, not_not.mp hlen⟩
    next => cases h

/-- What follows the loop over the windows. -/
def sealing (digest : HashAlgo → Bytes → Bytes) (remote tmp : Text) (stamp : Option Times) :
    Option (ObjectStream × Nat) → WriteM (Option PutOutcome)
  | none => pure none
  | some (source, written) =>
    orRemove tmp (Prog.ofExcept (source.agreed digest).1) >>= fun verified =>
      publish tmp remote stamp >>= fun _ =>
      pure (some ⟨written, verified⟩)

theorem putObjectStream_eq (fuel : Nat) :
    putObjectStream digest fuel remote tmp (.new len algo) stamp =
    staged remote tmp (storeWindows tmp fuel (following len algo []) 0 >>=
      sealing digest remote tmp stamp) := by
  unfold putObjectStream staged
  congr 3

theorem undone_putObjectStream
    (h :
      Prog.Plays (putObjectStream digest fuel remote tmp (.new len algo) stamp).run l (.error e)) :
    Undone tmp l := by
  rw [putObjectStream_eq] at h
  refine undone_staged ?_ h
  refine (cleans_storeWindows _ _ _).bind (tame_storeWindows _ _ _) fun out => ?_
  match out with
  | none => exact cleans_pure none
  | some (source, written) => exact cleans_ofExcept.bind (tame_orRemove tame_ofExcept) fun _ =>
    cleans_publish.map

theorem stored_putObjectStream
    (h : Prog.Plays (putObjectStream digest fuel remote tmp (.new len algo) stamp).run l
      (.ok (some outcome))) :
    Stored digest (.putObjectStream fuel len algo) remote tmp stamp l outcome.verified := by
  rw [putObjectStream_eq] at h
  obtain ⟨l₁, rfl, hrest⟩ := plays_staged_ok h
  obtain ⟨out, fed, l₃, rfl, hwindows, hsealing⟩ := plays_bind_ok.mp hrest
  match out, hsealing with
  | none, hsealing => cases (plays_pure.mp hsealing).2
  | some (source, written), hsealing =>
    obtain ⟨hfeeding, hsource, d, hlast, rfl⟩ := plays_storeWindows_ok hwindows
    rcases plays_orRemove_ofExcept hsealing with ⟨e, -, -, hx⟩ | ⟨verified, hagreed, hend⟩
    · cases hx
    obtain ⟨_, l₄, l₅, rfl, hpublish, hpure⟩ := plays_bind_ok.mp hend
    obtain ⟨rfl, houtcome⟩ := plays_pure.mp hpure
    obtain rfl := Option.some.inj (Except.ok.inj houtcome)
    obtain ⟨hdigest, rfl, hlen⟩ := agreed_finished hagreed
    refine ⟨fed, ?_, hfeeding, hsource, ?_, ?_, hlast, hlen⟩
    · rw [plays_publish_ok hpublish, append_nil, append_assoc]
    · rw [hdigest]
      rfl
    · rw [hdigest]

end

/-! ### What a write has done -/

variable {l : List Exchange} {p : WriteM PutOutcome}

theorem plays_some {outcome : PutOutcome} (h : Prog.Plays (some <$> p).run l (.ok (some outcome))) :
    Prog.Plays p.run l (.ok outcome) := by
  rw [map_eq_pure_bind] at h
  obtain ⟨found, l₁, l₂, rfl, hp, hpure⟩ := plays_bind_ok.mp h
  obtain ⟨rfl, hfound⟩ := plays_pure.mp hpure
  rwa [append_nil, Option.some.inj (Except.ok.inj hfound)]

theorem plays_some_error {e : StoreError} (h : Prog.Plays (some <$> p).run l (.error e)) :
    Prog.Plays p.run l (.error e) := by
  rw [map_eq_pure_bind] at h
  rcases plays_fallible_bind.mp h with ⟨e', he, hp⟩ | ⟨found, l₁, l₂, rfl, hp, hpure⟩
  · cases he
    exact hp
  · cases (plays_pure.mp hpure).2

/-- A write that fails has carried no rename out and removed what it had staged; one that succeeds
has put the source's bytes under its name, flushed, closed and stamped. -/
theorem staged_write (writer : Writer) (remote tmp : Text) (modified : Option Int) (now : Int)
    (l : List Exchange) :
    (∀ e, Prog.Plays (writer.run digest remote tmp (times modified now)).run l (.error e) →
      Undone tmp l) ∧
      ∀ outcome, Prog.Plays (writer.run digest remote tmp (times modified now)).run l
        (.ok (some outcome)) →
        Stored digest writer remote tmp (times modified now) l outcome.verified := by
  cases writer with
  | putBytes data expected =>
    exact ⟨fun e h => undone_putBytes (plays_some_error h),
      fun outcome h => stored_putBytes (plays_some h)⟩
  | putStream incoming =>
    exact ⟨fun e h => undone_putStream (plays_some_error h),
      fun outcome h => stored_putStream (plays_some h)⟩
  | putObjectStream fuel len algo =>
    exact ⟨fun e h => undone_putObjectStream h, fun outcome h => stored_putObjectStream h⟩

def refusing (refused : Option Op) : (r : Receive Ask) → Receive.Answer Window Ask.Answer r
  | .recv => none
  | .other (.op o) => if some o = refused then .error (.backend "refused") else .ok ()
  | .other (.readExact n) => .ok ⟨List.replicate n 0, length_replicate⟩
  | .other (.mkdirP _) => ()
  | .other (.removeQuiet _) => ()
  | .other (.charge _) => ()

/-- Two bytes that are stored, and two that are removed when they cannot be flushed. -/
theorem staged_write_two :
    (let writer := Writer.putBytes [1, 2] ⟨.blake3, [1, 2]⟩
     let run := writer.run (fun _ data => data) ['f'] ['t'] (times (some 5) 9)
     Undone ['t'] (run.run.transcript (refusing (some .sync))) ∧
       Stored (fun _ data => data) writer ['f'] ['t'] (some ⟨9, 5⟩)
         (run.run.transcript (refusing none))
         ⟨.blake3, [1, 2]⟩) :=
  ⟨(staged_write (fun _ data => data) (.putBytes [1, 2] ⟨.blake3, [1, 2]⟩) ['f'] ['t']
    (some 5) 9 _).1
      (.backend "refused") (plays_transcript _ _),
    (staged_write (fun _ data => data) (.putBytes [1, 2] ⟨.blake3, [1, 2]⟩) ['f'] ['t']
      (some 5) 9 _).2
      ⟨2, ⟨.blake3, [1, 2]⟩⟩ (plays_transcript _ _)⟩

/-- A rename that the server refuses has been issued. -/
theorem rename_issued : ¬∀ (digest : HashAlgo → Bytes → Bytes) (writer : Writer) (remote tmp : Text)
    (stamp : Option Times) (l : List Exchange) (e : StoreError),
    Prog.Plays (writer.run digest remote tmp stamp).run l (.error e) →
      ∀ source target answer, op (.rename source target) answer ∉ l := by
  intro h
  have hplays := plays_transcript (refusing (some (.rename ['t'] ['f'])))
    ((Writer.putBytes [] ⟨.blake3, []⟩).run (fun _ data => data) ['f'] ['t'] none).run
  exact h _ _ _ _ _ _ (.backend "refused") hplays ['t'] ['f'] (.error (.backend "refused"))
    (mem_of_getElem? (i := 5) rfl)

end Dctl.Store.Sftp.Write
