import Dctl.Store.RangeRead
import Dctl.Store.SftpPath
import Mathlib.Data.List.Nodup

/-! Reads of an SFTP backend that keep the remote file open (`sftp/handles.rs`, `sftp/mod.rs`), and
the writes that make them forget it.  Every request and every access to the cache is a step of its
own, and the steps of any number of calls interleave.  The server is POSIX: an open handle keeps
serving the file it was opened on. -/

namespace Dctl.Store.Sftp

open ProofKit RangeRead List Function

/-- A file on the server.  A later one at the same path has another `id`. -/
structure File where
  id : Nat
  object : Bytes
  deriving DecidableEq

/-- An open handle, with what its `fstat` said. -/
structure OpenFile where
  file : File
  size : Nat
  fits : size = file.object.length

def cachedReadHandles : Nat := 16

abbrev HandleCache := List (Text × OpenFile)

namespace HandleCache

variable {cache cache' : HandleCache} {path : Text} {handle : OpenFile} {e : Text × OpenFile}

def forPath (path : Text) (e : Text × OpenFile) : Bool := e.1 = path

def get (cache : HandleCache) (path : Text) : Option (OpenFile × HandleCache) :=
  (cache.find? (forPath path)).map fun e => (e.2, e :: cache.eraseP (forPath path))

def put (cache : HandleCache) (path : Text) (handle : OpenFile) : HandleCache :=
  ((path, handle) :: cache.eraseP (forPath path)).take cachedReadHandles

def evict (cache : HandleCache) (path : Text) : HandleCache := cache.eraseP (forPath path)

/-- No path has two handles. -/
def Single (cache : HandleCache) : Prop := (cache.map Prod.fst).Nodup

theorem mem_of_mem_evict (h : e ∈ cache.evict path) : e ∈ cache := mem_of_mem_eraseP h

theorem Single.evict (h : cache.Single) (path : Text) : (cache.evict path).Single :=
  h.sublist (eraseP_sublist.map _)

theorem Single.evict_ne (h : cache.Single) (he : e ∈ cache.evict path) : e.1 ≠ path := by
  unfold HandleCache.evict at he
  induction cache with
  | nil => cases he
  | cons first rest ih =>
    rw [Single, map_cons, nodup_cons] at h
    rw [eraseP_cons] at he
    cases hfirst : forPath path first with
    | true =>
      rw [hfirst, cond_true] at he
      have hpath : first.1 = path := by simpa [forPath] using hfirst
      exact fun heq => h.1 (hpath.trans heq.symm ▸ mem_map_of_mem he)
    | false =>
      rw [hfirst, cond_false] at he
      rcases mem_cons.mp he with rfl | he
      · simpa [forPath] using hfirst
      · exact ih h.2 he

theorem mem_put (h : e ∈ cache.put path handle) : e = (path, handle) ∨ e ∈ cache := by
  rcases mem_cons.mp (mem_of_mem_take h) with rfl | h
  · exact .inl rfl
  · exact .inr (mem_of_mem_eraseP h)

theorem Single.front (h : cache.Single) (handle : OpenFile) :
    Single ((path, handle) :: cache.eraseP (forPath path)) := by
  rw [Single, map_cons, nodup_cons]
  refine ⟨fun hmem => ?_, h.evict path⟩
  obtain ⟨e, he, hpath⟩ := mem_map.mp hmem
  exact h.evict_ne he hpath

theorem Single.put (h : cache.Single) (path : Text) (handle : OpenFile) :
    (cache.put path handle).Single :=
  (h.front handle).sublist ((take_sublist _ _).map _)

theorem get_eq_some (h : cache.get path = some (handle, cache')) :
    (path, handle) ∈ cache ∧ ∀ e, e ∈ cache' → e ∈ cache := by
  obtain ⟨found, hfound, heq⟩ := Option.map_eq_some_iff.mp h
  have hmem := mem_of_find?_eq_some hfound
  have hpath : found.1 = path := by simpa [forPath] using List.find?_some hfound
  cases heq
  refine ⟨hpath ▸ hmem, fun e he => ?_⟩
  rcases mem_cons.mp he with rfl | he
  · exact hmem
  · exact mem_of_mem_eraseP he

theorem Single.get (h : cache.Single) (hget : cache.get path = some (handle, cache')) :
    cache'.Single := by
  obtain ⟨found, hfound, heq⟩ := Option.map_eq_some_iff.mp hget
  have hpath : found.1 = path := by simpa [forPath] using List.find?_some hfound
  cases heq
  exact hpath ▸ h.front found.2

end HandleCache

/-- How far a `get_range` is, on the session it took. -/
inductive Reading where
  | started
  | linked (link : Nat)
  | missed (link : Nat)
  | opened (link : Nat) (handle : OpenFile)
  | holding (link : Nat) (handle : OpenFile)

/-- A call, and how far it is. -/
inductive Call where
  | idle
  | reading (remote : Text) (range : ByteRange) (stage : Reading)
  | got (remote : Text) (range : ByteRange) (result : Except StoreError Bytes)
  | writing (remote : Text) (object : Bytes)
  | renamed (remote : Text) (file : File)
  | stored (remote : Text) (file : File)
  | deleting (remote : Text)
  | forgotten (remote : Text)
  | deleted (remote : Text)
  | failed

def Call.running : Call → Bool
  | .reading .. | .writing .. | .renamed .. | .deleting .. | .forgotten .. => true
  | _ => false

/-- The server's files, the sessions and their handles, and the calls.  `settled` says of a path
that the write which its file is from, or which removed it, has returned. -/
structure State where
  files : Text → Option File
  made : Nat
  cell : Option Nat
  dialled : Nat
  dead : Nat → Bool
  caches : Nat → HandleCache
  calls : Nat → Call
  settled : Text → Bool

namespace State

variable (σ : State)

def setCall (i : Nat) (call : Call) : State := { σ with calls := update σ.calls i call }

def setCache (link : Nat) (cache : HandleCache) : State :=
  { σ with caches := update σ.caches link cache }

def dial : State := { σ with cell := some σ.dialled, dialled := σ.dialled + 1 }

/-- `forget_handle`: on the live session, whichever it is. -/
def forget (remote : Text) : State :=
  match σ.cell with
  | none => σ
  | some link => σ.setCache link ((σ.caches link).evict remote)

def setFile (remote : Text) (file : Option File) (settled : Bool) : State :=
  { σ with files := update σ.files remote file, settled := update σ.settled remote settled }

def settle (remote : Text) (file : File) : State :=
  if σ.files remote = some file then { σ with settled := update σ.settled remote true } else σ

/-- The live session, opened if the last one ended. -/
inductive Link : Nat → State → Prop
  | live {link : Nat} : σ.cell = some link → σ.dead link = false → Link link σ
  | dialled : (∀ link, σ.cell = some link → σ.dead link = true) → Link σ.dialled σ.dial

end State

/-- What of a step matters to the handles. -/
inductive Label where
  | keep (remote : Text) (file : File)
  | rename (remote : Text)
  | unlink (remote : Text)
  | other

/-- One step of a call, or the loss of a session. -/
inductive Step (σ : State) : Label → State → Prop
  | get (i : Nat) (remote : Text) (range : ByteRange) : σ.calls i = .idle →
      Step σ .other (σ.setCall i (.reading remote range .started))
  | link (i : Nat) {remote : Text} {range : ByteRange} {link : Nat} {σ' : State} :
      σ.calls i = .reading remote range .started → σ.Link link σ' →
      Step σ .other (σ'.setCall i (.reading remote range (.linked link)))
  | hit (i : Nat) {remote : Text} {range : ByteRange} {link : Nat} {handle : OpenFile}
    {cache : HandleCache} :
      σ.calls i = .reading remote range (.linked link) →
        (σ.caches link).get remote = some (handle, cache) →
      Step σ .other ((σ.setCache link cache).setCall i
        (.reading remote range (.holding link handle)))
  | miss (i : Nat) {remote : Text} {range : ByteRange} {link : Nat} :
      σ.calls i = .reading remote range (.linked link) → (σ.caches link).get remote = none →
      Step σ .other (σ.setCall i (.reading remote range (.missed link)))
  | openFile (i : Nat) {remote : Text} {range : ByteRange} {link : Nat} {file : File} :
      σ.calls i = .reading remote range (.missed link) → σ.files remote = some file →
      Step σ .other
        (σ.setCall i (.reading remote range (.opened link ⟨file, file.object.length, rfl⟩)))
  | notFound (i : Nat) {remote : Text} {range : ByteRange} {link : Nat} :
      σ.calls i = .reading remote range (.missed link) → σ.files remote = none →
      Step σ .other (σ.setCall i (.got remote range (.error (.notFound (String.ofList remote)))))
  | keep (i : Nat) {remote : Text} {range : ByteRange} {link : Nat} {handle : OpenFile} :
      σ.calls i = .reading remote range (.opened link handle) →
      Step σ (.keep remote handle.file)
        ((σ.setCache link ((σ.caches link).put remote handle)).setCall i
        (.reading remote range (.holding link handle)))
  | read (i : Nat) {remote : Text} {range : ByteRange} {link : Nat} {handle : OpenFile} :
      σ.calls i = .reading remote range (.holding link handle) →
      Step σ .other
        (σ.setCall i (.got remote range (readRange handle.file.object handle.size range)))
  | readFailed (i : Nat) {remote : Text} {range : ByteRange} {link : Nat} {handle : OpenFile} :
      σ.calls i = .reading remote range (.holding link handle) →
      Step σ .other ((σ.setCache link ((σ.caches link).evict remote)).setCall i .failed)
  | put (i : Nat) (remote : Text) (object : Bytes) : σ.calls i = .idle →
      Step σ .other (σ.setCall i (.writing remote object))
  | rename (i : Nat) {remote : Text} {object : Bytes} : σ.calls i = .writing remote object →
      Step σ (.rename remote)
        (({ σ with made := σ.made + 1 }.setFile remote (some ⟨σ.made, object⟩) false).setCall i
        (.renamed remote ⟨σ.made, object⟩))
  | forget (i : Nat) {remote : Text} {file : File} : σ.calls i = .renamed remote file →
      Step σ .other (((σ.forget remote).settle remote file).setCall i (.stored remote file))
  | delete (i : Nat) (remote : Text) : σ.calls i = .idle →
    Step σ .other (σ.setCall i (.deleting remote))
  | evict (i : Nat) {remote : Text} {link : Nat} {σ' : State} : σ.calls i = .deleting remote →
    σ.Link link σ' →
      Step σ .other ((σ'.setCache link ((σ'.caches link).evict remote)).setCall i
        (.forgotten remote))
  | unlink (i : Nat) {remote : Text} (answered : Bool) : σ.calls i = .forgotten remote →
      Step σ (.unlink remote) ((σ.setFile remote none true).setCall i (if answered
        then .deleted remote else .failed))
  /-- A call ends with an error.  Some writes forget the handle even then. -/
  | fail (i : Nat) : (σ.calls i).running = true → Step σ .other (σ.setCall i .failed)
  | failForgetting (i : Nat) {remote : Text} :
      (∃ object, σ.calls i = .writing remote object) ∨ (∃ file, σ.calls i = .renamed remote file) →
      Step σ .other ((σ.forget remote).setCall i .failed)
  | lose (link : Nat) : Step σ .other { σ with dead := update σ.dead link true }
  | discard (link : Nat) : σ.dead link = true → σ.cell = some link →
    Step σ .other { σ with cell := none }

/-- A step that leaves no handle to a superseded file behind.  A handle that is kept is of the file
that the path names, unless the write of that file has not returned; and when a file is removed, the
live session holds no handle for it. -/
def Label.Careful (σ : State) : Label → Prop
  | .keep remote file => σ.settled remote = true → σ.files remote = some file
  | .unlink remote => ∀ link, σ.cell = some link → ∀ handle, (remote, handle) ∉ σ.caches link
  | _ => True

/-- The step neither renames to the path nor unlinks it. -/
def Label.Spares (remote : Text) : Label → Prop
  | .rename path => path ≠ remote
  | .unlink path => path ≠ remote
  | _ => True

/-- Some steps that are `ok`. -/
def Run (ok : State → Label → Prop) : State → State → Prop :=
  Relation.ReflTransGen fun σ σ' => ∃ label, Step σ label σ' ∧ ok σ label

end Dctl.Store.Sftp
