import Dctl.ProofKit.Prog
import Dctl.Core.Get

/-! What a vault asks of its two stores, and how they may answer.  An operation of the vault is a
program over these requests; one request is one step of a backend or of an index. -/

namespace Dctl.Core

open ProofKit Crypto Index Prog

structure Page where
  items : List String
  nextCursor : Option String
  deriving DecidableEq

inductive Request where
  | get (key : String)
  | getRange (key : String) (offset length : Nat)
  | put (key : String) (data : Bytes)
  | delete (key : String)
  | listPage (start : String) (cursor : Option String)
  | indexGet (path : String)
  | indexPut (record : Record)
  | indexDelete (path : String)

@[reducible] def Request.Answer : Request → Type
  | .get _ | .getRange .. => Except StoreError Bytes
  | .put .. | .delete _ => Except StoreError Unit
  | .listPage .. => Except StoreError Page
  | .indexGet _ => Except IndexError (Option Record)
  | .indexPut _ | .indexDelete _ => Except IndexError Unit

abbrev VaultM (α : Type) := Prog.Fallible Request Request.Answer CoreError α

structure Stores where
  objects : Backend
  rows : Rows

/-- A key of the listing behind the cursor. -/
structure Listed (objects : Backend) (start : String) (cursor : Option String) (key : String) :
    Prop where
  present : key ∈ objects
  start : (stripPrefix start key).isSome
  after : ∀ c ∈ cursor, c < key

/-- A page holds the listed keys up to its next cursor, each once. -/
structure PageOf (objects : Backend) (start : String) (cursor : Option String) (page : Page) :
    Prop where
  nodup : page.items.Nodup
  mem_iff : ∀ key, key ∈ page.items ↔
    Listed objects start cursor key ∧ ∀ c ∈ page.nextCursor, key ≤ c
  next_mem : ∀ c ∈ page.nextCursor, c ∈ page.items

namespace Stores

variable (s : Stores)

/-- What a store that does as it is asked answers, and what it is afterwards. -/
def Honest : (r : Request) → r.Answer → Stores → Prop
  | .get key, x, s' => x = s.objects.get key ∧ s' = s
  | .getRange key offset length, x, s' => x = s.objects.getRange key offset length ∧ s' = s
  | .put key data, x, s' => x = .ok () ∧ s' = { s with objects := s.objects.insert key data }
  | .delete key, x, s' => x = .ok () ∧ s' = { s with objects := s.objects.erase key }
  | .listPage start cursor, x, s' =>
    (∃ page, x = .ok page ∧ PageOf s.objects start cursor page) ∧ s' = s
  | .indexGet path, x, s' => x = .ok s.rows[path]? ∧ s' = s
  | .indexPut record, x, s' => x = .ok () ∧ s' = { s with rows := s.rows.insert record.path record }
  | .indexDelete path, x, s' => x = .ok () ∧ s' = { s with rows := s.rows.erase path }

end Stores

def honest : Prog.Server Stores Request Request.Answer := fun s r x s' => s.Honest r x s'

def StoreError.transient : StoreError → Bool
  | .io _ | .backend _ => true
  | .notFound _ | .rangeOutOfBounds _ => false

def Request.Fails : (r : Request) → r.Answer → Prop
  | .get _, x | .getRange .., x => ∃ e, x = .error e ∧ e.transient
  | .put .., x | .delete _, x => ∃ e, x = .error e ∧ e.transient
  | .listPage .., x => ∃ e, x = .error e ∧ e.transient
  | .indexGet _, x => ∃ e, x = .error e
  | .indexPut _, x | .indexDelete _, x => ∃ e, x = .error e

/-- Requests may fail, and one that fails has had no effect. -/
def mayFail : Prog.Server Stores Request Request.Answer := fun s r x s' =>
  s.Honest r x s' ∨ (r.Fails x ∧ s' = s)

/-- Requests may fail, before they take effect or after. -/
def mayLoseAnswer : Prog.Server Stores Request Request.Answer := fun s r x s' =>
  s.Honest r x s' ∨ (r.Fails x ∧ (s' = s ∨ ∃ y, s.Honest r y s'))

/-- How a request goes: it takes effect and is answered, or it fails before it takes effect, or
after. -/
inductive Fault where
  | none
  | before
  | after
  deriving DecidableEq

/-- Stores of which each request goes as `fault` says.  An operation that makes no request twice can
meet every failure here. -/
def faulty (fault : Request → Fault) : Prog.Server Stores Request Request.Answer := fun s r x s' =>
  match fault r with
  | .none => s.Honest r x s'
  | .before => r.Fails x ∧ s' = s
  | .after => r.Fails x ∧ ∃ y, s.Honest r y s'

theorem honest_le_mayLoseAnswer (s : Stores) (r : Request) (x : r.Answer) (s' : Stores)
    (h : honest s r x s') : mayLoseAnswer s r x s' := Or.inl h

theorem mayFail_le_mayLoseAnswer (s : Stores) (r : Request) (x : r.Answer) (s' : Stores)
    (h : mayFail s r x s') : mayLoseAnswer s r x s' := by
  rcases h with hhonest | ⟨hfails, hs⟩
  · exact Or.inl hhonest
  · exact Or.inr ⟨hfails, Or.inl hs⟩

def liftStore {α : Type} (x : Except StoreError α) : VaultM α := Prog.ofExcept (ofStore x)

def liftIndex {α : Type} (x : Except IndexError α) : VaultM α := Prog.ofExcept (x.mapError .index)

def liftCrypto {α : Type} (x : Except CryptoError α) : VaultM α := Prog.ofExcept (ofCrypto x)

abbrev ask (r : Request) : VaultM r.Answer := Prog.query r

def tryFetch (key : String) : VaultM (Except StoreError Bytes) := ask (.get key)

def fetch (key : String) : VaultM Bytes := do
  let answer ← tryFetch key
  liftStore answer

def fetchRange (key : String) (offset length : Nat) : VaultM Bytes := do
  let answer ← ask (.getRange key offset length)
  liftStore answer

def putObject (key : String) (data : Bytes) : VaultM Unit := do
  let answer ← ask (.put key data)
  liftStore answer

def deleteObject (key : String) : VaultM Unit := do
  let answer ← ask (.delete key)
  liftStore answer

def indexGet (path : String) : VaultM (Option Record) := do
  let answer ← ask (.indexGet path)
  liftIndex answer

def indexPut (record : Record) : VaultM Unit := do
  let answer ← ask (.indexPut record)
  liftIndex answer

def indexDelete (path : String) : VaultM Unit := do
  let answer ← ask (.indexDelete path)
  liftIndex answer

def Request.WritesOnly (keys : String → Prop) : Request → Prop
  | .put key _ | .delete key => keys key
  | .indexPut _ | .indexDelete _ => False
  | .get _ | .getRange .. | .listPage .. | .indexGet _ => True

/-- The rows are the same, and so is every object but those under these keys. -/
structure Stores.SameOff (keys : String → Prop) (s s' : Stores) : Prop where
  rows : s'.rows = s.rows
  objects : ∀ key, ¬keys key → s'.objects[key]? = s.objects[key]?

section WritesOnly

variable {keys : String → Prop} {s s' s'' : Stores}

theorem Stores.SameOff.refl (s : Stores) : s.SameOff keys s := ⟨rfl, fun _ _ => rfl⟩

theorem Stores.SameOff.trans (h : s.SameOff keys s') (h' : s'.SameOff keys s'') :
    s.SameOff keys s'' :=
  ⟨h'.rows.trans h.rows, fun key hkey => (h'.objects key hkey).trans (h.objects key hkey)⟩

theorem Stores.SameOff.eq (h : s.SameOff (fun _ => False) s') : s' = s := by
  have hobjects : s'.objects = s.objects := by
    apply Std.ExtTreeMap.ext_getElem?
    intro key
    exact h.objects key not_false
  cases s
  cases s'
  cases h.rows
  cases hobjects
  rfl

theorem Stores.SameOff.honest {r : Request} {x : r.Answer} (hr : r.WritesOnly keys)
    (h : s.Honest r x s') : s.SameOff keys s' := by
  have hput : ∀ key value, keys key →
      s.SameOff keys { s with objects := s.objects.insert key value } := by
    intro key value hkey
    refine ⟨rfl, fun other hother => ?_⟩
    have hne : key ≠ other := fun heq => hother (heq ▸ hkey)
    rw [Std.ExtTreeMap.getElem?_insert, if_neg (by simpa using hne)]
  have hdelete : ∀ key, keys key → s.SameOff keys { s with objects := s.objects.erase key } := by
    intro key hkey
    refine ⟨rfl, fun other hother => ?_⟩
    have hne : key ≠ other := fun heq => hother (heq ▸ hkey)
    rw [Std.ExtTreeMap.getElem?_erase, if_neg (by simpa using hne)]
  cases r with
  | get key | getRange key offset length | indexGet path =>
    obtain ⟨-, rfl⟩ := h
    exact refl s'
  | listPage start cursor =>
    obtain ⟨-, rfl⟩ := h
    exact refl s'
  | put key value =>
    obtain ⟨-, rfl⟩ := h
    exact hput key value hr
  | delete key =>
    obtain ⟨-, rfl⟩ := h
    exact hdelete key hr
  | indexPut record => exact absurd hr not_false
  | indexDelete path => exact absurd hr not_false

theorem Stores.SameOff.lossy {r : Request} {x : r.Answer} (hr : r.WritesOnly keys)
    (h : mayLoseAnswer s r x s') : s.SameOff keys s' := by
  rcases h with hhonest | ⟨-, rfl | ⟨y, hhonest⟩⟩
  · exact SameOff.honest hr hhonest
  · exact refl s'
  · exact SameOff.honest hr hhonest

theorem Stores.SameOff.run_lossy {α : Type} {p : Prog Request Request.Answer α} {a : α}
    (hp : p.Asks (Request.WritesOnly keys)) (h : Prog.Run mayLoseAnswer p s a s') :
    s.SameOff keys s' := by
  refine Prog.Run.invariant_of_asks (I := fun t => s.SameOff keys t) ?_ hp h (refl s)
  intro t r x t' hr ht hserve
  exact ht.trans (SameOff.lossy hr hserve)

theorem Stores.SameOff.run {α : Type} {p : Prog Request Request.Answer α} {a : α}
    (hp : p.Asks (Request.WritesOnly keys)) (h : Prog.Run Dctl.Core.honest p s a s') :
    s.SameOff keys s' :=
  run_lossy hp (h.mono honest_le_mayLoseAnswer)

end WritesOnly

section Honest

variable {β : Type} {s s' : Stores} {x : Except CoreError β} {key path : String}

@[simp] theorem honest_tryFetch_bind {f : Except StoreError Bytes → VaultM β} :
    Prog.Run honest (tryFetch key >>= f).run s x s' ↔
      Prog.Run honest (f (s.objects.get key)).run s x s' := by
  rw [tryFetch, run_query_bind]
  constructor
  · intro h
    obtain ⟨_, _, ⟨rfl, rfl⟩, h⟩ := h
    exact h
  · intro h
    exact ⟨_, _, ⟨rfl, rfl⟩, h⟩

@[simp] theorem honest_putObject_bind {data : Bytes} {f : Unit → VaultM β} :
    Prog.Run honest (putObject key data >>= f).run s x s' ↔
      Prog.Run honest (f ()).run { s with objects := s.objects.insert key data } x s' := by
  unfold putObject liftStore
  exact run_request_of (fun _ _ => Iff.rfl) rfl

@[simp] theorem honest_deleteObject_bind {f : Unit → VaultM β} :
    Prog.Run honest (deleteObject key >>= f).run s x s' ↔
      Prog.Run honest (f ()).run { s with objects := s.objects.erase key } x s' := by
  unfold deleteObject liftStore
  exact run_request_of (fun _ _ => Iff.rfl) rfl

@[simp] theorem honest_indexGet_bind {f : Option Record → VaultM β} :
    Prog.Run honest (indexGet path >>= f).run s x s' ↔
      Prog.Run honest (f s.rows[path]?).run s x s' := by
  unfold indexGet liftIndex
  exact run_request_of (fun _ _ => Iff.rfl) rfl

@[simp] theorem honest_indexPut_bind {record : Record} {f : Unit → VaultM β} :
    Prog.Run honest (indexPut record >>= f).run s x s' ↔
      Prog.Run honest (f ()).run { s with rows := s.rows.insert record.path record } x s' := by
  unfold indexPut liftIndex
  exact run_request_of (fun _ _ => Iff.rfl) rfl

@[simp] theorem honest_indexDelete_bind {f : Unit → VaultM β} :
    Prog.Run honest (indexDelete path >>= f).run s x s' ↔
      Prog.Run honest (f ()).run { s with rows := s.rows.erase path } x s' := by
  unfold indexDelete liftIndex
  exact run_request_of (fun _ _ => Iff.rfl) rfl

end Honest

section Faulty

variable {β : Type} {fault : Request → Fault} {s s' : Stores}

theorem faulty_putObject_bind {x : Except CoreError β} {key : String} {data : Bytes}
    {f : Unit → VaultM β} :
    Prog.Run (faulty fault) (putObject key data >>= f).run s x s' ↔
      match fault (.put key data) with
      | .none => Prog.Run (faulty fault) (f ()).run
        { s with objects := s.objects.insert key data } x s'
      | .before => (∃ e, e.transient ∧ x = .error (.store e)) ∧ s' = s
      | .after => (∃ e, e.transient ∧ x = .error (.store e)) ∧
          s' = { s with objects := s.objects.insert key data } := by
  unfold putObject liftStore
  rw [run_request_bind]
  unfold faulty
  cases fault (.put key data) with
  | none =>
    constructor
    · intro h
      obtain ⟨_, _, ⟨rfl, rfl⟩, ⟨e, he, -⟩ | ⟨_, -, h⟩⟩ := h
      · cases he
      · exact h
    · intro h
      exact ⟨_, _, ⟨rfl, rfl⟩, Or.inr ⟨(), rfl, h⟩⟩
  | before =>
    constructor
    · intro h
      obtain ⟨_, _, ⟨⟨e, rfl, he⟩, rfl⟩, ⟨_, hx, rfl, rfl⟩ | ⟨_, hx, -⟩⟩ := h
      · cases hx
        exact ⟨⟨e, he, rfl⟩, rfl⟩
      · cases hx
    · intro h
      obtain ⟨⟨e, he, rfl⟩, rfl⟩ := h
      exact ⟨_, _, ⟨⟨e, rfl, he⟩, rfl⟩, Or.inl ⟨_, rfl, rfl, rfl⟩⟩
  | after =>
    constructor
    · intro h
      obtain ⟨_, _, ⟨⟨e, rfl, he⟩, _, -, rfl⟩, ⟨_, hx, rfl, rfl⟩ | ⟨_, hx, -⟩⟩ := h
      · cases hx
        exact ⟨⟨e, he, rfl⟩, rfl⟩
      · cases hx
    · intro h
      obtain ⟨⟨e, he, rfl⟩, rfl⟩ := h
      exact ⟨_, _, ⟨⟨e, rfl, he⟩, _, rfl, rfl⟩, Or.inl ⟨_, rfl, rfl, rfl⟩⟩

theorem faulty_indexPut {x : Except CoreError Unit} {record : Record} :
    Prog.Run (faulty fault) (indexPut record).run s x s' ↔
      match fault (.indexPut record) with
      | .none => x = .ok () ∧ s' = { s with rows := s.rows.insert record.path record }
      | .before => (∃ e, x = .error (.index e)) ∧ s' = s
      | .after => (∃ e, x = .error (.index e)) ∧
          s' = { s with rows := s.rows.insert record.path record } := by
  unfold indexPut liftIndex ask
  rw [run_query_bind]
  simp only [run_ofExcept]
  unfold faulty
  cases fault (.indexPut record) with
  | none =>
    constructor
    · intro h
      obtain ⟨_, _, ⟨rfl, rfl⟩, hx, rfl⟩ := h
      exact ⟨hx.symm, rfl⟩
    · intro h
      obtain ⟨rfl, rfl⟩ := h
      exact ⟨_, _, ⟨rfl, rfl⟩, rfl, rfl⟩
  | before =>
    constructor
    · intro h
      obtain ⟨_, _, ⟨⟨e, rfl⟩, rfl⟩, hx, rfl⟩ := h
      exact ⟨⟨e, hx.symm⟩, rfl⟩
    · intro h
      obtain ⟨⟨e, rfl⟩, rfl⟩ := h
      exact ⟨_, _, ⟨⟨e, rfl⟩, rfl⟩, rfl, rfl⟩
  | after =>
    constructor
    · intro h
      obtain ⟨_, _, ⟨⟨e, rfl⟩, _, -, rfl⟩, hx, rfl⟩ := h
      exact ⟨⟨e, hx.symm⟩, rfl⟩
    · intro h
      obtain ⟨⟨e, rfl⟩, rfl⟩ := h
      exact ⟨_, _, ⟨⟨e, rfl⟩, _, rfl, rfl⟩, rfl, rfl⟩

end Faulty

section Lossy

variable {s s' : Stores} {key path : String}

theorem lossy_read (r : Request) {x : r.Answer} (hr : r.WritesOnly fun _ => False)
    (h : mayLoseAnswer s r x s') : s' = s ∧ (s.Honest r x s ∨ r.Fails x) := by
  have hs := (Stores.SameOff.lossy hr h).eq
  subst hs
  rcases h with hhonest | ⟨hfails, -⟩
  · exact ⟨rfl, Or.inl hhonest⟩
  · exact ⟨rfl, Or.inr hfails⟩

theorem lossy_tryFetch {x : Except CoreError (Except StoreError Bytes)}
    (h : Prog.Run mayLoseAnswer (tryFetch key).run s x s') :
    s' = s ∧ ∃ answer, x = .ok answer ∧
      (answer = s.objects.get key ∨ ∃ e, answer = .error e ∧ e.transient) := by
  unfold tryFetch at h
  rw [← bind_pure (ask (.get key)), run_query_bind] at h
  obtain ⟨answer, s1, hserve, hx⟩ := h
  obtain ⟨rfl, rfl⟩ := run_pure.mp hx
  obtain ⟨rfl, hanswer⟩ := lossy_read (.get key) trivial hserve
  refine ⟨rfl, answer, rfl, ?_⟩
  rcases hanswer with hhonest | hfails
  · exact Or.inl hhonest.1
  · exact Or.inr hfails

theorem lossy_fetchRange {offset length : Nat} {x : Except CoreError Bytes}
    (h : Prog.Run mayLoseAnswer (fetchRange key offset length).run s x s') :
    s' = s ∧ ∀ bytes, x = .ok bytes → s.objects.getRange key offset length = .ok bytes := by
  unfold fetchRange liftStore at h
  rw [run_query_bind] at h
  obtain ⟨answer, s1, hserve, hx⟩ := h
  obtain ⟨rfl, rfl⟩ := run_ofExcept.mp hx
  obtain ⟨rfl, hanswer⟩ := lossy_read (.getRange key offset length) trivial hserve
  refine ⟨rfl, ?_⟩
  intro bytes hok
  rw [ofStore_eq_ok] at hok
  subst hok
  rcases hanswer with hhonest | ⟨_, hfails, -⟩
  · exact hhonest.1.symm
  · cases hfails

theorem lossy_indexGet {x : Except CoreError (Option Record)}
    (h : Prog.Run mayLoseAnswer (indexGet path).run s x s') :
    s' = s ∧ ∀ row, x = .ok row → row = s.rows[path]? := by
  unfold indexGet liftIndex at h
  rw [run_query_bind] at h
  obtain ⟨answer, s1, hserve, hx⟩ := h
  obtain ⟨rfl, rfl⟩ := run_ofExcept.mp hx
  obtain ⟨rfl, hanswer⟩ := lossy_read (.indexGet path) trivial hserve
  refine ⟨rfl, ?_⟩
  intro row hok
  rw [mapError_eq_ok] at hok
  subst hok
  rcases hanswer with hhonest | ⟨_, hfails⟩
  · exact Except.ok.inj hhonest.1
  · cases hfails

theorem lossy_putObject {data : Bytes} {x : Except CoreError Unit}
    (h : Prog.Run mayLoseAnswer (putObject key data).run s x s') :
    (x = .ok () ∧ s' = { s with objects := s.objects.insert key data }) ∨
      (∃ e, x = .error e) ∧ (s' = s ∨ s' = { s with objects := s.objects.insert key data }) := by
  unfold putObject liftStore at h
  rw [run_query_bind] at h
  obtain ⟨answer, s1, hserve, hx⟩ := h
  obtain ⟨rfl, rfl⟩ := run_ofExcept.mp hx
  rcases hserve with ⟨rfl, hs⟩ | ⟨⟨e, rfl, -⟩, rfl | ⟨_, -, hs⟩⟩
  · exact Or.inl ⟨rfl, hs⟩
  · exact Or.inr ⟨⟨_, rfl⟩, Or.inl rfl⟩
  · exact Or.inr ⟨⟨_, rfl⟩, Or.inr hs⟩

theorem lossy_deleteObject {x : Except CoreError Unit}
    (h : Prog.Run mayLoseAnswer (deleteObject key).run s x s') :
    s' = { s with objects := s.objects.erase key } ∨ (∃ e, x = .error e) ∧ s' = s := by
  unfold deleteObject liftStore at h
  rw [run_query_bind] at h
  obtain ⟨answer, s1, hserve, hx⟩ := h
  obtain ⟨rfl, rfl⟩ := run_ofExcept.mp hx
  rcases hserve with ⟨rfl, hs⟩ | ⟨⟨e, rfl, -⟩, rfl | ⟨_, -, hs⟩⟩
  · exact Or.inl hs
  · exact Or.inr ⟨⟨_, rfl⟩, rfl⟩
  · exact Or.inl hs

end Lossy

end Dctl.Core
