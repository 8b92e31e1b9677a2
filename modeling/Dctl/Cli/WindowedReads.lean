import Dctl.ProofKit.Windows
import Dctl.Store.VerifiedWrite

/-! The four reads of a plain remote that walk an object in windows (`source/plain.rs`,
`remote/plain.rs`).  The size is the one that the backend declares, and each answer moves the walk
on by its length, whatever it is. -/

namespace Dctl.Cli.WindowedReads

open ProofKit Dctl.Store List Prog
open Dctl.Store.LocalFs (compute)

def readBackWindowBytes : Nat := 8 * 1024 * 1024

inductive StoredChecksum where
  | recorded (hash : ContentHash)
  | absent (reason : String)

inductive Failure where
  | store (e : StoreError)
  | io (e : IoError)
  | cli (e : CliError)

/-- Why a read has no answer: it failed, or its loop needs more rounds. -/
inductive Halt where
  | failed (e : Failure)
  | rounds

inductive Ask where
  | head
  | getRange (offset want : Nat)
  | write (bytes : Bytes)
  | flush
  | storedChecksum

@[reducible] def Ask.Answer : Ask → Type
  | .head => Except StoreError UInt64
  | .getRange _ _ => Except StoreError Bytes
  | .write _ => Except IoError Unit
  | .flush => Except IoError Unit
  | .storedChecksum => Except StoreError StoredChecksum

abbrev ReadM (α : Type) := Prog.Fallible Ask Ask.Answer Halt α

abbrev Exchange := Prog.Exchange Ask.Answer

def ofStore {α : Type} (x : Except StoreError α) : ReadM α :=
  Prog.ofExcept (x.mapError fun e => .failed (.store e))

def ofIo {α : Type} (x : Except IoError α) : ReadM α :=
  Prog.ofExcept (x.mapError fun e => .failed (.io e))

def head : ReadM UInt64 := Prog.query .head >>= fun x => ofStore x

def getRange (offset want : Nat) : ReadM Bytes :=
  Prog.query (.getRange offset want) >>= fun x => ofStore x

def writeAll (bytes : Bytes) : ReadM Unit := Prog.query (.write bytes) >>= fun x => ofIo x

def flush : ReadM Unit := Prog.query .flush >>= fun x => ofIo x

def storedChecksum : ReadM StoredChecksum := Prog.query .storedChecksum >>= fun x => ofStore x

def refuse {α : Type} (e : CliError) : ReadM α := throw (.failed (.cli e))

section Loop

variable {σ : Type} (size : Nat) (take : σ → Bytes → ReadM σ) (stopped : Nat → CliError)

/-- The loop over the windows of an object, for as many rounds.  The position is a `u64`. -/
def windows : (rounds : Nat) → (offset : Nat) → σ → ReadM (Nat × σ)
  | 0, _, _ => throw .rounds
  | rounds + 1, offset, s =>
    if offset < size then do
      let bytes ← getRange offset (min readBackWindowBytes (size - offset))
      if bytes = [] then refuse (stopped offset)
      else do
        let s ← take s bytes
        windows rounds ((offset + bytes.length) % 2 ^ 64) s
    else pure (offset, s)

end Loop

def stoppedServing (path : String) (size offset : Nat) : CliError :=
  ⟨.integrityFailure, "'" ++ path ++ "' stopped serving bytes at " ++ toString offset ++
    " of the " ++ toString size ++
    " it declares", none⟩

def endedAfter (path : String) (size offset : Nat) : CliError :=
  (CliError.mk .integrityFailure ("'" ++ path ++ "' ended after " ++ toString offset ++
    " bytes but the remote reports " ++
    toString size ++ " — the object is truncated") none).withHint
    ("The remote's own metadata disagrees with what it will serve. Restore this object from " ++
      "another copy.")

variable (digest : HashAlgo → Bytes → Bytes) (path : String) (rounds : Nat)

def fold (folded bytes : Bytes) : ReadM Bytes := pure (folded ++ bytes)

def streamTo : ReadM Nat := do
  let size ← head
  let (offset, _) ← windows size.toNat (fun _ bytes => writeAll bytes)
      (stoppedServing path size.toNat) rounds 0 ()
  flush
  return offset

def hashDeclared : Except StoreError UInt64 → ReadM (Option Bytes)
  | .error (.notFound _) => return none
  | .error e => throw (.failed (.store e))
  | .ok size => do
    let (_, folded) ← windows size.toNat fold (endedAfter path size.toNat) rounds 0 []
    return some (digest .blake3 folded)

def contentHash : ReadM (Option Bytes) :=
  Prog.query .head >>= fun x => hashDeclared digest path rounds x

def integrityFailureHint : String :=
  "Restore the affected objects from another copy, then run `dctl scrub` to check the rest of " ++
    "the dataset — corruption is seldom limited to one object."

def compareRecorded (size : Nat) (read : ContentHash) : StoredChecksum → ReadM Unit
  | .recorded recorded =>
    if read = recorded then pure ()
    else refuse ((CliError.mk .integrityFailure
      ("'" ++ path ++ "' does not match the digest recorded when it was written: " ++
      "the remote recorded " ++ hexEncode recorded.bytes ++ " and the " ++ toString size ++
        " bytes it served now hash to " ++
      hexEncode read.bytes) none).withHint integrityFailureHint)
  | .absent reason =>
    refuse ⟨.verificationNotPossible,
      "'" ++ path ++ "' came back whole and could not be checked — " ++ reason, none⟩

def foldSome (folded : Option Bytes) (bytes : Bytes) : ReadM (Option Bytes) :=
  pure (folded.map (· ++ bytes))

/-- `support` is the algorithm of the digests that the backend keeps. -/
def verify (support : Option HashAlgo) : ReadM Unit := do
  let size ← head
  let (_, folded) ← windows size.toNat foldSome (endedAfter path size.toNat) rounds 0
      (support.map fun _ => [])
  match support, folded with
  | some algo, some folded => do
    let stored ← storedChecksum
    compareRecorded path size.toNat (compute digest algo folded) stored
  | _, _ => return ()

def hashObject : ReadM String := do
  let size ← head
  let stopped := fun offset => (stoppedServing path size.toNat offset).withHint
    ("The provider returned an empty range inside the object. Re-run the check; if it persists " ++
      "the stored object is truncated.")
  let (_, folded) ← windows size.toNat fold stopped rounds 0 []
  return hexEncode (digest .blake3 folded)

inductive Reader where
  | streamTo
  | contentHash
  | verify (support : Option HashAlgo)
  | hashObject

inductive Outcome where
  | wrote (bytes : Nat)
  | hash (hash : Option Bytes)
  | verified
  | hex (hash : String)

def Reader.run : Reader → ReadM Outcome
  | .streamTo => WindowedReads.streamTo path rounds >>= fun bytes => pure (.wrote bytes)
  | .contentHash => WindowedReads.contentHash digest path rounds >>= fun hash => pure (.hash hash)
  | .verify support => WindowedReads.verify digest path rounds support >>= fun _ => pure .verified
  | .hashObject => WindowedReads.hashObject digest path rounds >>= fun hash => pure (.hex hash)

def answers (l : List Exchange) : List ReadWindow := l.filterMap fun
  | ⟨.getRange offset want, .ok bytes⟩ => some ⟨offset, want, bytes⟩
  | _ => none

def declared (l : List Exchange) : List Nat := l.filterMap fun
  | ⟨.head, .ok size⟩ => some size.toNat
  | _ => none

def written (l : List Exchange) : Bytes := l.flatMap fun
  | ⟨.write bytes, .ok _⟩ => bytes
  | _ => []

/-- What a reader hands out for an object of which these bytes were read. -/
def Reader.Gives (size : Nat) (read : Bytes) (l : List Exchange) : Reader → Outcome → Prop
  | .streamTo, outcome => outcome = .wrote size ∧ written l = read
  | .contentHash, outcome => outcome = .hash (some (digest .blake3 read))
  | .verify support, outcome => outcome = .verified ∧ ∀ algo, support = some algo →
      (⟨.storedChecksum, .ok (.recorded (compute digest algo read))⟩ : Exchange) ∈ l
  | .hashObject, outcome => outcome = .hex (hexEncode (digest .blake3 read))

/-- A success is about the whole object: the bytes that were consumed are as many as were declared,
each of them came in a window that covers its place, and they are what the reader gives. -/
def Reader.Sound (r : Reader) (l : List Exchange) (outcome : Outcome) : Prop :=
  outcome = .hash none ∧ answers l = [] ∨
    ∃ size, declared l = [size] ∧ WindowsCover size (answers l) ∧
      r.Gives digest size (windowBytes (answers l)) l outcome

/-- No answer is longer than its window. -/
def Windowed (l : List Exchange) : Prop := ∀ w ∈ answers l, w.bytes.length ≤ w.want

/-- No answer that is longer than its window takes the position past the end of `u64`. -/
def InReach (l : List Exchange) : Prop :=
  ∀ w ∈ answers l, w.bytes.length ≤ w.want ∨ w.offset + w.bytes.length < 2 ^ 64

section Requests

variable {α : Type} {l l' : List Exchange}

theorem answers_append : answers (l ++ l') = answers l ++ answers l' := filterMap_append

theorem declared_append : declared (l ++ l') = declared l ++ declared l' := filterMap_append

theorem written_append : written (l ++ l') = written l ++ written l' := flatMap_append

theorem plays_ofStore {y : Except StoreError α} {a : α} :
    Prog.Plays (ofStore y).run l (.ok a) ↔ l = [] ∧ y = .ok a := by
  rw [ofStore, plays_ofExcept, mapError_eq_ok]

theorem plays_request_ok {r : Ask} {check : r.Answer → ReadM α} {a : α}
    (h : Prog.Plays (Prog.query r >>= check).run l (.ok a)) :
    ∃ y l', l = ⟨r, y⟩ :: l' ∧ Prog.Plays (check y).run l' (.ok a) := by
  obtain ⟨y, l₁, l₂, rfl, hquery, hcheck⟩ := plays_bind_ok.mp h
  obtain ⟨_, rfl, hy⟩ := plays_query.mp hquery
  obtain rfl := Except.ok.inj hy
  exact ⟨_, _, rfl, hcheck⟩

theorem plays_head {size : UInt64} (h : Prog.Plays head.run l (.ok size)) :
    l = [⟨.head, .ok size⟩] := by
  obtain ⟨y, l', rfl, hstore⟩ := plays_request_ok h
  obtain ⟨rfl, rfl⟩ := plays_ofStore.mp hstore
  rfl

theorem plays_getRange {offset want : Nat} {b : Bytes}
    (h : Prog.Plays (getRange offset want).run l (.ok b)) :
    l = [⟨.getRange offset want, .ok b⟩] := by
  obtain ⟨y, l', rfl, hstore⟩ := plays_request_ok h
  obtain ⟨rfl, rfl⟩ := plays_ofStore.mp hstore
  rfl

theorem plays_storedChecksum {stored : StoredChecksum}
    (h : Prog.Plays storedChecksum.run l (.ok stored)) : l = [⟨.storedChecksum, .ok stored⟩] := by
  obtain ⟨y, l', rfl, hstore⟩ := plays_request_ok h
  obtain ⟨rfl, rfl⟩ := plays_ofStore.mp hstore
  rfl

theorem plays_ofIo {y : Except IoError α} {a : α} :
    Prog.Plays (ofIo y).run l (.ok a) ↔ l = [] ∧ y = .ok a := by
  rw [ofIo, plays_ofExcept, mapError_eq_ok]

theorem plays_writeAll {b : Bytes} {u : Unit} (h : Prog.Plays (writeAll b).run l (.ok u)) :
    l = [⟨.write b, .ok u⟩] := by
  obtain ⟨y, l', rfl, hio⟩ := plays_request_ok h
  obtain ⟨rfl, rfl⟩ := plays_ofIo.mp hio
  rfl

theorem plays_flush {u : Unit} (h : Prog.Plays flush.run l (.ok u)) : l = [⟨.flush, .ok u⟩] := by
  obtain ⟨y, l', rfl, hio⟩ := plays_request_ok h
  obtain ⟨rfl, rfl⟩ := plays_ofIo.mp hio
  rfl

theorem request_ends {r : Ask} {check : r.Answer → Except Halt α}
    (hcheck : ∀ y, check y ≠ .error .rounds) :
    ¬Prog.Plays (Prog.query r >>= fun y => Prog.ofExcept (check y) : ReadM α).run l
      (.error .rounds) := by
  intro h
  obtain ⟨y, -, hy⟩ := plays_request.mp h
  exact hcheck y hy

theorem ofStore_ne_rounds (y : Except StoreError α) :
    y.mapError (fun e => Halt.failed (.store e)) ≠ .error .rounds := by
  cases y <;> exact nofun

theorem ofIo_ne_rounds (y : Except IoError α) :
    y.mapError (fun e => Halt.failed (.io e)) ≠ .error .rounds := by
  cases y <;> exact nofun

end Requests

section Loop

variable {σ : Type} {size : Nat} {take : σ → Bytes → ReadM σ} {stopped : Nat →
  CliError} {keeps : σ → Bytes → Bytes → Prop}
  {l l' : List Exchange}

theorem plays_windows_ok
    (htake : ∀ {s b l s'}, Prog.Plays (take s b).run l (.ok s') → answers l = [] ∧ declared l = [] ∧
      ∀ read out, keeps s read out → keeps s' (read ++ b) (out ++ written l))
    {rounds offset stop : Nat} {s s' : σ} {l : List Exchange} {read out : Bytes}
    (h : Prog.Plays (windows size take stopped rounds offset s).run l (.ok (stop, s')))
    (hkeeps : keeps s read out) :
    WindowChain (2 ^ 64) readBackWindowBytes size offset (answers l) stop ∧ declared l = [] ∧
      keeps s' (read ++ windowBytes (answers l)) (out ++ written l) := by
  induction rounds generalizing offset s l read out with
  | zero => cases (plays_throw.mp h).2
  | succ rounds ih =>
    rw [windows] at h
    split at h
    next hlt =>
      obtain ⟨b, l₁, l₂, rfl, hrange, hmore⟩ := plays_bind_ok.mp h
      obtain rfl := plays_getRange hrange
      split at hmore
      next => cases (plays_throw.mp hmore).2
      next hne =>
        obtain ⟨s₁, l₃, l₄, rfl, htook, hrest⟩ := plays_bind_ok.mp hmore
        obtain ⟨hanswers, hdeclared, hkeep⟩ := htake htook
        obtain ⟨hchain, hnone, hend⟩ := ih hrest (hkeep _ _ hkeeps)
        have hall : answers
            ([⟨.getRange offset (min readBackWindowBytes (size - offset)), .ok b⟩] ++ (l₃ ++ l₄)) =
            ⟨offset, min readBackWindowBytes (size - offset), b⟩ :: answers l₄ := by
          rw [answers_append, answers_append, hanswers]
          rfl
        refine ⟨?_, ?_, ?_⟩
        · rw [hall]
          exact .next hlt hne hchain
        · rw [declared_append, declared_append, hdeclared, hnone]
          rfl
        · rw [hall, windowBytes_cons, written_append, written_append]
          rw [append_assoc, append_assoc] at hend
          exact hend
    next hge =>
      obtain ⟨rfl, hx⟩ := plays_pure.mp h
      cases hx
      refine ⟨.done hge, rfl, ?_⟩
      change keeps _ (read ++ []) (out ++ [])
      rwa [append_nil, append_nil]

theorem plays_windows (keeps : σ → Bytes → Bytes → Prop)
    (htake : ∀ {s b l s'}, Prog.Plays (take s b).run l (.ok s') → answers l = [] ∧ declared l = [] ∧
      ∀ read out, keeps s read out → keeps s' (read ++ b) (out ++ written l))
    {rounds stop : Nat} {s s' : σ}
    (h : Prog.Plays (windows size take stopped rounds 0 s).run l (.ok (stop, s')))
    (hkeeps : keeps s [] []) :
    WindowChain (2 ^ 64) readBackWindowBytes size 0 (answers l) stop ∧ declared l = [] ∧
      keeps s' (windowBytes (answers l)) (written l) := plays_windows_ok htake h hkeeps

theorem InReach.append (h : InReach (l ++ l')) : InReach l ∧ InReach l' := by
  unfold InReach at h ⊢
  rw [answers_append] at h
  exact forall_mem_append.mp h

theorem windows_ends (hsize : size < 2 ^ 64)
    (htake : ∀ {s b l}, ¬Prog.Plays (take s b).run l (.error .rounds)) {rounds offset : Nat} {s : σ}
    {l : List Exchange} (hrounds : size - offset < rounds) (hreach : InReach l) :
    ¬Prog.Plays (windows size take stopped rounds offset s).run l (.error .rounds) := by
  induction rounds generalizing offset s l with
  | zero => omega
  | succ rounds ih =>
    intro h
    rw [windows] at h
    split at h
    next hlt =>
      rcases plays_fallible_bind.mp h with ⟨e, he, hrange⟩ | ⟨b, l₁, l₂, rfl, hrange, hmore⟩
      · cases he
        exact request_ends ofStore_ne_rounds hrange
      · obtain rfl := plays_getRange hrange
        obtain ⟨hfirst, hrest⟩ := hreach.append
        split at hmore
        next => cases (plays_throw.mp hmore).2
        next hne =>
          rcases plays_fallible_bind.mp hmore with ⟨e, he, htook⟩ | ⟨s₁, l₃, l₄, rfl, htook, hloop⟩
          · cases he
            exact htake htook
          · have hpos : 0 < b.length := length_pos_iff.mpr hne
            have hpast : offset + b.length < 2 ^ 64 := by
              rcases hfirst _ mem_cons_self with hfit | hpast
              · dsimp only at hfit
                omega
              · exact hpast
            have hmod : (offset + b.length) % 2 ^ 64 = offset + b.length := Nat.mod_eq_of_lt hpast
            exact ih (by rw [hmod]; omega) hrest.append.2 hloop
    next => cases (plays_pure.mp h).2

end Loop

section Readers

variable {digest : HashAlgo → Bytes → Bytes} {path : String} {rounds : Nat} {l l' : List Exchange}

/-- The object was read in windows from its start up to `stop`. -/
structure Walked (l : List Exchange) (size stop : Nat) : Prop where
  bounded : size < 2 ^ 64
  declared : declared l = [size]
  chain : WindowChain (2 ^ 64) readBackWindowBytes size 0 (answers l) stop

theorem walked_append {size : UInt64} {stop : Nat} {rest : List Exchange}
    (hchain : WindowChain (2 ^ 64) readBackWindowBytes size.toNat 0 (answers l) stop)
    (hnone : WindowedReads.declared l = []) (hanswers : answers rest = [])
    (hrest : WindowedReads.declared rest = []) :
    Walked ([⟨.head, .ok size⟩] ++ (l ++ rest)) size.toNat stop where
  bounded := size.toNat_lt
  declared := by
    rw [declared_append, declared_append, hnone, hrest]
    rfl
  chain := by
    rw [answers_append, answers_append, hanswers, append_nil]
    exact hchain

theorem fold_takes {s b s' : Bytes} (h : Prog.Plays (fold s b).run l (.ok s')) :
    answers l = [] ∧ WindowedReads.declared l = [] ∧
      ∀ read out : Bytes, s = read ∧ out = [] → s' = read ++ b ∧ out ++ written l = [] := by
  obtain ⟨rfl, hx⟩ := plays_pure.mp h
  cases hx
  refine ⟨rfl, rfl, fun read out hkeeps => ?_⟩
  obtain ⟨rfl, rfl⟩ := hkeeps
  exact ⟨rfl, rfl⟩

theorem foldSome_takes {support : Option HashAlgo} {s s' : Option Bytes} {b : Bytes}
    (h : Prog.Plays (foldSome s b).run l (.ok s')) :
    answers l = [] ∧ WindowedReads.declared l = [] ∧
      ∀ read out : Bytes, s = support.map (fun _ => read) ∧ out = [] →
        s' = support.map (fun _ => read ++ b) ∧ out ++ written l = [] := by
  obtain ⟨rfl, hx⟩ := plays_pure.mp h
  cases hx
  refine ⟨rfl, rfl, fun read out hkeeps => ?_⟩
  obtain ⟨rfl, rfl⟩ := hkeeps
  exact ⟨by rw [Option.map_map]; rfl, rfl⟩

theorem writeAll_takes {b : Bytes} {u : Unit} (h : Prog.Plays (writeAll b).run l (.ok u)) :
    answers l = [] ∧ WindowedReads.declared l = [] ∧ ∀ read out : Bytes, out = read →
      out ++ written l = read ++ b := by
  obtain rfl := plays_writeAll h
  refine ⟨rfl, rfl, fun read out hkeeps => ?_⟩
  rw [hkeeps]
  exact congrArg (read ++ ·) (append_nil b)

theorem plays_streamTo_ok {n : Nat} (h : Prog.Plays (streamTo path rounds).run l (.ok n)) :
    ∃ size, Walked l size n ∧ written l = windowBytes (answers l) := by
  obtain ⟨size, l₁, l₂, rfl, hhead, hmore⟩ := plays_bind_ok.mp h
  obtain ⟨⟨stop, s⟩, l₃, l₄, rfl, hloop, hmore₁⟩ := plays_bind_ok.mp hmore
  obtain ⟨u, hflush, rfl⟩ := plays_map_ok.mp hmore₁
  obtain rfl := plays_head hhead
  obtain rfl := plays_flush hflush
  obtain ⟨hchain, hnone, hwritten⟩ :=
    plays_windows (fun _ read out => out = read) writeAll_takes hloop rfl
  refine ⟨_, walked_append hchain hnone rfl rfl, ?_⟩
  rw [written_append, written_append, answers_append, answers_append, hwritten]
  change windowBytes (answers l₃) ++ [] = windowBytes (answers l₃ ++ [])
  rw [append_nil, append_nil]

theorem plays_hashDeclared_ok {size : UInt64} {hash : Option Bytes}
    (h : Prog.Plays (hashDeclared digest path rounds (.ok size)).run l (.ok hash)) :
    ∃ stop, Walked (⟨.head, .ok size⟩ :: l) size.toNat stop ∧
      hash = some (digest .blake3 (windowBytes (answers l))) := by
  obtain ⟨⟨stop, folded⟩, hloop, rfl⟩ := plays_map_ok.mp h
  obtain ⟨hchain, hnone, rfl, -⟩ :=
    plays_windows (fun folded read out => folded = read ∧ out = []) fold_takes hloop ⟨rfl, rfl⟩
  have hwalked := walked_append hchain hnone (rfl : answers [] = []) rfl
  rw [append_nil] at hwalked
  exact ⟨stop, hwalked, rfl⟩

theorem plays_hashObject_ok {hash : String}
    (h : Prog.Plays (hashObject digest path rounds).run l (.ok hash)) :
    ∃ size stop, Walked l size stop ∧
      hash = hexEncode (digest .blake3 (windowBytes (answers l))) := by
  obtain ⟨size, l₁, l₂, rfl, hhead, hmore⟩ := plays_bind_ok.mp h
  obtain ⟨⟨stop, folded⟩, hloop, rfl⟩ := plays_map_ok.mp hmore
  obtain rfl := plays_head hhead
  obtain ⟨hchain, hnone, rfl, -⟩ :=
    plays_windows (fun folded read out => folded = read ∧ out = []) fold_takes hloop ⟨rfl, rfl⟩
  have hwalked := walked_append hchain hnone (rfl : answers [] = []) rfl
  rw [append_nil] at hwalked
  exact ⟨_, stop, hwalked, rfl⟩

theorem plays_compareRecorded_ok {size : Nat} {read : ContentHash} {stored : StoredChecksum}
    {u : Unit} (h : Prog.Plays (compareRecorded path size read stored).run l (.ok u)) :
    l = [] ∧ stored = .recorded read := by
  cases stored with
  | recorded hash =>
    rw [compareRecorded] at h
    split at h
    next hsame => exact ⟨(plays_pure.mp h).1, by rw [hsame]⟩
    next => cases (plays_throw.mp h).2
  | absent reason => cases (plays_throw.mp h).2

theorem plays_verify_ok {support : Option HashAlgo} {u : Unit}
    (h : Prog.Plays (verify digest path rounds support).run l (.ok u)) :
    ∃ size stop, Walked l size stop ∧ ∀ algo, support = some algo →
      (⟨.storedChecksum, .ok (.recorded (compute digest algo (windowBytes (answers l))))⟩ :
        Exchange) ∈ l := by
  obtain ⟨size, l₁, l₂, rfl, hhead, hmore⟩ := plays_bind_ok.mp h
  obtain ⟨⟨stop, folded⟩, l₃, l₄, rfl, hloop, hmore₁⟩ := plays_bind_ok.mp hmore
  obtain rfl := plays_head hhead
  obtain ⟨hchain, hnone, rfl, -⟩ :=
    plays_windows (fun folded read out => folded = support.map (fun _ => read) ∧ out = [])
      foldSome_takes hloop ⟨rfl, rfl⟩
  cases support with
  | none =>
    obtain ⟨rfl, -⟩ := plays_pure.mp hmore₁
    exact ⟨_, stop, walked_append hchain hnone rfl rfl, fun _ halgo => by cases halgo⟩
  | some algo =>
    obtain ⟨stored, l₅, l₆, rfl, hstored, hcompare⟩ := plays_bind_ok.mp hmore₁
    obtain rfl := plays_storedChecksum hstored
    obtain ⟨rfl, rfl⟩ := plays_compareRecorded_ok hcompare
    refine ⟨_, stop, walked_append hchain hnone rfl rfl, fun algo' halgo => ?_⟩
    obtain rfl := Option.some.inj halgo
    have hread : answers ([⟨.head, .ok size⟩] ++ (l₃ ++
        ([⟨.storedChecksum, .ok (.recorded (compute digest algo (windowBytes (answers l₃))))⟩] ++
          []))) = answers l₃ := by
      rw [answers_append, answers_append]
      exact append_nil _
    rw [hread]
    exact mem_append_right _ (mem_append_right _ mem_cons_self)

theorem plays_hashDeclared_error {e : StoreError} {hash : Option Bytes}
    (h : Prog.Plays (hashDeclared digest path rounds (.error e)).run l (.ok hash)) :
    l = [] ∧ hash = none := by
  generalize hx : (.error e : Except StoreError UInt64) = x at h
  unfold hashDeclared at h
  split at h
  next =>
    obtain ⟨rfl, heq⟩ := plays_pure.mp h
    exact ⟨rfl, Except.ok.inj heq⟩
  next => cases (plays_throw.mp h).2
  next => cases hx

theorem plays_run_ok {r : Reader} {outcome : Outcome}
    (h : Prog.Plays (r.run digest path rounds).run l (.ok outcome)) :
    outcome = .hash none ∧ answers l = [] ∨ ∃ size stop, Walked l size stop ∧
      (stop = size → r.Gives digest size (windowBytes (answers l)) l outcome) := by
  cases r with
  | streamTo =>
    obtain ⟨n, hread, rfl⟩ := plays_map_ok.mp h
    obtain ⟨size, hwalked, hwritten⟩ := plays_streamTo_ok hread
    exact .inr ⟨size, n, hwalked, fun hstop => ⟨congrArg _ hstop, hwritten⟩⟩
  | contentHash =>
    obtain ⟨hash, hread, rfl⟩ := plays_map_ok.mp h
    obtain ⟨x, l', rfl, hdeclared⟩ := plays_request_ok hread
    match x, hdeclared with
    | .ok size, hdeclared =>
      obtain ⟨stop, hwalked, rfl⟩ := plays_hashDeclared_ok hdeclared
      exact .inr ⟨_, stop, hwalked, fun _ => rfl⟩
    | .error e, hdeclared =>
      obtain ⟨rfl, rfl⟩ := plays_hashDeclared_error hdeclared
      exact .inl ⟨rfl, rfl⟩
  | verify support =>
    obtain ⟨u, hread, rfl⟩ := plays_map_ok.mp h
    obtain ⟨size, stop, hwalked, hrecorded⟩ := plays_verify_ok hread
    exact .inr ⟨size, stop, hwalked, fun _ => ⟨rfl, hrecorded⟩⟩
  | hashObject =>
    obtain ⟨hash, hread, rfl⟩ := plays_map_ok.mp h
    obtain ⟨size, stop, hwalked, rfl⟩ := plays_hashObject_ok hread
    exact .inr ⟨size, stop, hwalked, fun _ => rfl⟩

theorem writeAll_ends {b : Bytes} :
    ¬Prog.Plays (writeAll b).run l (.error .rounds) := request_ends ofIo_ne_rounds

theorem pure_ends {α : Type} {a : α} : ¬Prog.Plays (pure a : ReadM α).run l (.error .rounds) :=
  fun h => nomatch (plays_pure.mp h).2

theorem bind_ends {α β : Type} {p : ReadM α} {f : α → ReadM β}
    (hp : ¬Prog.Plays p.run l (.error .rounds))
    (hf : ∀ {a l}, ¬Prog.Plays (f a).run l (.error .rounds)) :
    ¬Prog.Plays (p >>= f).run l (.error .rounds) := by
  intro h
  rcases plays_fallible_bind.mp h with ⟨e, he, hfail⟩ | ⟨a, l₁, l₂, rfl, -, hmore⟩
  · cases he
    exact hp hfail
  · exact hf hmore

theorem loop_ends {α σ : Type} {take : σ → Bytes → ReadM σ} {stopped : Nat → CliError} {s : σ}
    {next : Nat × σ → ReadM α} {size : UInt64}
    (htake : ∀ {s b l}, ¬Prog.Plays (take s b).run l (.error .rounds))
    (hnext : ∀ {found l}, ¬Prog.Plays (next found).run l (.error .rounds)) (hreach : InReach l)
    (hrounds : size.toNat < rounds) :
    ¬Prog.Plays (windows size.toNat take stopped rounds 0 s >>= next).run l (.error .rounds) :=
  bind_ends (windows_ends size.toNat_lt htake hrounds hreach) hnext

theorem compareRecorded_ends {size : Nat} {read : ContentHash} {stored : StoredChecksum} :
    ¬Prog.Plays (compareRecorded path size read stored).run l (.error .rounds) := by
  intro h
  cases stored with
  | recorded hash =>
    rw [compareRecorded] at h
    split at h
    next => exact pure_ends h
    next => cases (plays_throw.mp h).2
  | absent reason => cases (plays_throw.mp h).2

theorem head_ends {α : Type} {next : UInt64 → ReadM α} (hreach : InReach l)
    (hrounds : ∀ size ∈ declared l, size < rounds)
    (hnext : ∀ {size l}, InReach l → size.toNat < rounds →
      ¬Prog.Plays (next size).run l (.error .rounds)) :
    ¬Prog.Plays (head >>= next).run l (.error .rounds) := by
  intro h
  rcases plays_fallible_bind.mp h with ⟨e, he, hhead⟩ | ⟨size, l₁, l₂, rfl, hhead, hmore⟩
  · cases he
    exact request_ends ofStore_ne_rounds hhead
  · obtain rfl := plays_head hhead
    exact hnext hreach.append.2 (hrounds _ mem_cons_self) hmore

theorem hashDeclared_ends {x : Except StoreError UInt64} (hreach : InReach l)
    (hrounds : ∀ size, x = .ok size → size.toNat < rounds) :
    ¬Prog.Plays (hashDeclared digest path rounds x).run l (.error .rounds) := by
  intro h
  unfold hashDeclared at h
  split at h
  next => exact pure_ends h
  next => cases (plays_throw.mp h).2
  next => exact loop_ends pure_ends pure_ends hreach (hrounds _ rfl) h

theorem run_ends {r : Reader} (hreach : InReach l) (hrounds : ∀ size ∈ declared l, size < rounds) :
    ¬Prog.Plays (r.run digest path rounds).run l (.error .rounds) := by
  cases r with
  | streamTo =>
    refine bind_ends (head_ends hreach hrounds fun hreach hrounds =>
      loop_ends writeAll_ends ?_ hreach hrounds) pure_ends
    exact bind_ends (request_ends ofIo_ne_rounds) pure_ends
  | contentHash =>
    refine bind_ends (fun h => ?_) pure_ends
    rcases plays_fallible_bind.mp h with ⟨e, -, hquery⟩ | ⟨x, l₁, l₂, rfl, hquery, hmore⟩
    · obtain ⟨_, -, he⟩ := plays_query.mp hquery
      cases he
    · obtain ⟨y, rfl, hy⟩ := plays_query.mp hquery
      obtain rfl := Except.ok.inj hy
      exact hashDeclared_ends hreach.append.2 (fun size hsize =>
        hrounds _ (by rw [hsize]; exact mem_cons_self)) hmore
  | verify support =>
    refine bind_ends (head_ends hreach hrounds fun hreach hrounds =>
      loop_ends pure_ends ?_ hreach hrounds) pure_ends
    intro found l
    obtain ⟨stop, folded⟩ := found
    cases support with
    | none => exact pure_ends
    | some algo =>
      cases folded with
      | none => exact pure_ends
      | some folded => exact bind_ends (request_ends ofStore_ne_rounds) compareRecorded_ends
  | hashObject =>
    exact bind_ends (head_ends hreach hrounds fun hreach hrounds =>
      loop_ends pure_ends pure_ends hreach hrounds) pure_ends

/-- A success is about the whole object exactly if no answer was longer than its window, and every
read ends unless such an answer takes its position past the end of `u64`. -/
theorem reads_sound_iff {r : Reader} {x : Except Halt Outcome}
    (h : Prog.Plays (r.run digest path rounds).run l x) :
    (∀ outcome, x = .ok outcome → (r.Sound digest l outcome ↔ Windowed l)) ∧
      (InReach l → (∀ size ∈ declared l, size < rounds) → x ≠ .error .rounds) := by
  refine ⟨?_, ?_⟩
  · rintro outcome rfl
    rcases plays_run_ok h with ⟨rfl, hnone⟩ | ⟨size, stop, hwalked, hgives⟩
    · exact iff_of_true (.inl ⟨rfl, hnone⟩) fun w hw => by rw [hnone] at hw; cases hw
    · constructor
      · rintro (⟨-, hnone⟩ | ⟨size', hdeclared, hcover, -⟩)
        · exact fun w hw => by rw [hnone] at hw; cases hw
        · rw [hwalked.declared] at hdeclared
          obtain rfl := (List.cons.inj hdeclared).1
          exact (hwalked.chain.cover_iff hwalked.bounded).mp hcover
      · intro hfit
        obtain ⟨hstop, -⟩ := hwalked.chain.cover (.inr hwalked.bounded) (Nat.zero_le _) hfit
        exact .inr ⟨size, hwalked.declared, (hwalked.chain.cover_iff hwalked.bounded).mpr hfit,
          hgives hstop⟩
  · rintro hreach hrounds rfl
    exact run_ends hreach hrounds h

end Readers

def lengthDigest (_ : HashAlgo) (data : Bytes) : Bytes := [UInt8.ofNat data.length]

def ignoredRange : List Exchange :=
  [⟨.head, .ok 5⟩, ⟨.getRange 0 5, .ok [1, 2, 3]⟩, ⟨.write [1, 2, 3], .ok ()⟩,
    ⟨.getRange 3 2, .ok [1, 2, 3, 4, 5]⟩,
    ⟨.write [1, 2, 3, 4, 5], .ok ()⟩, ⟨.flush, .ok ()⟩]

def shortAnswers : List Exchange :=
  [⟨.head, .ok 5⟩, ⟨.getRange 0 5, .ok [1, 2, 3]⟩, ⟨.write [1, 2, 3], .ok ()⟩,
    ⟨.getRange 3 2, .ok [4, 5]⟩,
    ⟨.write [4, 5], .ok ()⟩, ⟨.flush, .ok ()⟩]

theorem reads_sound_iff_short :
    Reader.streamTo.Sound lengthDigest shortAnswers (.wrote 5) ↔ Windowed shortAnswers := by
  have hplays :
      Prog.Plays (Reader.streamTo.run lengthDigest "a" 6).run shortAnswers (.ok (.wrote 5)) :=
    .ask (.ask (.ask (.ask (.ask (.ask (.done _))))))
  exact (reads_sound_iff hplays).1 _ rfl

/-- Eight bytes of an object of five are written, and the read succeeds. -/
theorem overlong_answer_written :
    Prog.Plays (Reader.streamTo.run lengthDigest "a" 6).run ignoredRange (.ok (.wrote 8)) ∧
      (written ignoredRange).length = 8 ∧
        ¬Reader.streamTo.Sound lengthDigest ignoredRange (.wrote 8) := by
  refine ⟨.ask (.ask (.ask (.ask (.ask (.ask (.done _)))))), rfl, ?_⟩
  rintro (⟨h, -⟩ | ⟨size, hdeclared, hcover, -⟩)
  · cases h
  · obtain rfl : 5 = size := (List.cons.inj hdeclared).1
    exact absurd hcover.1 (by decide)

end Dctl.Cli.WindowedReads
