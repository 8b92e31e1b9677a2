import Dctl.Store.Trees

/-! The walk of a local directory tree (`local/tree.rs`, `links/cycle.rs`).  Paths are kept relative
to the root of the walk. -/

namespace Dctl.Store.LocalFs

open ProofKit Transfer

/-- What `metadata` says of what a path leads to: which directory it is, and its type. -/
structure Metadata where
  id : Nat
  type : EntryType
  deriving DecidableEq

structure DirEntry where
  name : Name
  fileType : Except IoError EntryType

inductive FsRequest where
  | metadata (path : List Name)
  | canonicalize (path : List Name)
  | readDir (path : List Name)
  | describe (path : List Name)
  deriving DecidableEq

/-- The entries of a directory come with the error that ends them, if any. -/
@[reducible] def FsRequest.Answer : FsRequest → Type
  | .metadata _ => Except IoError Metadata
  | .canonicalize _ => Except IoError (List Name)
  | .readDir _ => Except IoError (List DirEntry × Option IoError)
  | .describe _ => Except IoError SpecialKind

abbrev WalkM (α : Type) := Prog.Fallible FsRequest FsRequest.Answer StoreError α

/-- A directory waiting to be read, with the directories above it if they are kept. -/
structure Pending where
  path : List Name
  ancestors : Option (List Nat)
  deriving DecidableEq

/-- A path's key: forward slashes, and a replacement for what is no UTF-8. -/
def relativeKey (path : List Name) : String :=
  String.ofList ((toStringLossy (joinNames path)).toList.map fun c => if c = '\\' then '/' else c)

/-- One file's key, if it is the kind of file this walk was asked for. -/
def emit (want : Want) (key : String) : List (Finding String) :=
  if want.keeps key then [.object key] else []

abbrev Given := List (Finding String) × List Pending

variable (policy : LinkPolicy) (want : Want) (confine : Option (List Name))

def land (path : List Name) : WalkM LinkTarget :=
  match confine with
  | none => return .inside
  | some base => Prog.query (.canonicalize path) >>= fun (x : Except IoError (List Name)) =>
    match x with
    | .ok resolved => return if base.isPrefixOf resolved then .inside else .outside
    | .error _ => return .missing

def enter (ancestors : Option (List Nat)) (path : List Name) (key : String) (target : Metadata) :
    Given :=
  match target.type with
  | .dir =>
    if ancestors.any (target.id ∈ ·) then ([.link key .cycle], [])
    else ([.link key .followed], [⟨path, ancestors.map (target.id :: ·)⟩])
  | .file => (.link key .followed :: emit want key, [])
  | _ => ([.link key .notStorable], [])

def follow (ancestors : Option (List Nat)) (path : List Name) (key : String) : WalkM Given :=
  if ¬policy.follows then return ([.link key (policy.decide .unread)], [])
  else Prog.query (.metadata path) >>= fun (x : Except IoError Metadata) => match x with
    | .error _ => return ([.link key (policy.decide .missing)], [])
    | .ok target => do
      let verdict := policy.decide (← land confine path)
      if verdict ≠ .followed then return ([.link key verdict], [])
      else return enter want ancestors path key target

def descend (ancestors : Option (List Nat)) (path : List Name) : WalkM (Option (List Nat)) :=
  match ancestors with
  | none => return none
  | some chain => Prog.query (.metadata path) >>= fun (x : Except IoError Metadata) => match x with
    | .ok meta' => return some (meta'.id :: chain)
    | .error _ => return some chain

def kindOf (path : List Name) : WalkM SpecialKind :=
  Prog.query (.describe path) >>= fun (x : Except IoError SpecialKind) => return match x with
    | .ok kind => kind
    | .error _ => .unknown

def visitEntry (p : Pending) (entry : DirEntry) : WalkM Given :=
  let path := p.path ++ [entry.name]
  let key := relativeKey path
  match entry.fileType with
  | .error e => throw (.io e)
  | .ok .symlink => follow policy want confine p.ancestors path key
  | .ok .dir => do return ([], [⟨path, ← descend p.ancestors path⟩])
  | .ok .file => return (emit want key, [])
  | .ok .special => do return ([.special key (← kindOf path)], [])

def visit (p : Pending) : WalkM Given :=
  Prog.query (.readDir p.path) >>= fun (x : Except IoError (List DirEntry × Option IoError)) =>
  match x with
  | .error e => if e.kind = .notFound then return ([], []) else throw (.io e)
  | .ok (entries, broke) => do
    let given ← gather (visitEntry policy want confine p) entries
    match broke with
    | none => return given
    | some e => throw (.io e)

def confinement : WalkM (Option (List Name)) :=
  if policy.confined then
    Prog.query (.canonicalize []) >>= fun (x : Except IoError (List Name)) => return x.toOption
  else return none

def rootPending : WalkM (Option Pending) :=
  if policy.follows then
    Prog.query (.metadata []) >>= fun (x : Except IoError Metadata) => match x with
    | .ok meta' => return some ⟨[], some [meta'.id]⟩
    | .error e => if e.kind = .notFound then return none else throw (.io e)
  else return some ⟨[], none⟩

/-- What the walk begins with: the resolved root, and the first directory. -/
def start : WalkM (Option (List Name) × Option Pending) := do
  let confine ← confinement policy
  return (confine, ← rootPending policy)

variable {policy want confine}

def visits {S : Type} (serve : Prog.Server S FsRequest FsRequest.Answer) (policy : LinkPolicy)
    (want : Want) (confine : Option (List Name)) :
      Walk.Visits S Pending (Finding String) StoreError :=
  fun s p x s' => Prog.Run serve (visit policy want confine p).run s x s'

/-- What collecting ends with: an error, nothing for a missing root, or what the walk found. -/
inductive Collects {S : Type} (serve : Prog.Server S FsRequest FsRequest.Answer)
    (policy : LinkPolicy)
    (want : Want) (s : S) : Except StoreError (List (Finding String)) → S → Prop
  | failed {e : StoreError} {s' : S} :
      Prog.Run serve (start policy).run s (.error e) s' → Collects serve policy want s (.error e) s'
  | missing {confine : Option (List Name)} {s' : S} :
      Prog.Run serve (start policy).run s (.ok (confine, none)) s' →
      Collects serve policy want s (.ok []) s'
  | walked {confine : Option (List Name)} {p : Pending} {s' s'' : S}
      {trace : List (Walk.Visit Pending (Finding String))} {end' : Except StoreError Unit} :
      Prog.Run serve (start policy).run s (.ok (confine, some p)) s' →
      Walk.Walks (visits serve policy want confine) s' [p] trace end' s'' →
      Collects serve policy want s (end'.map fun _ => Walk.findings trace) s''

/-- A machine: its tree, where the root of the store leads, and what tells directories apart. -/
structure Machine where
  tree : Tree
  root : List Name
  ident : List Name → Nat

namespace Machine

variable (m : Machine)

/-- The path leads to this place, where this node is. -/
def At (path place : List Name) (node : DiskNode Name Leaf) : Prop :=
  m.tree.Leads m.root path place ∧ m.tree.disk place = some node

/-- The path leads to something. -/
def Exists (path : List Name) : Prop := ∃ place node, m.At path place node

/-- The entries are those of the directory at the place; all of them, if nothing cut them short. -/
structure Lists (place : List Name) (entries : List DirEntry) (broke : Option IoError) : Prop where
  nodup : (entries.map (·.name)).Nodup
  truthful : ∀ e ∈ entries, ∃ node, m.tree.disk (place ++ [e.name]) = some node ∧
    ∀ type, e.fileType = .ok type → type = entryType node
  whole : broke = none → ∀ n, m.tree.disk (place ++ [n]) ≠ none → ∃ e ∈ entries, e.name = n

/-- What is answered is so. -/
def Truthful : (r : FsRequest) → r.Answer → Prop
  | .metadata path, .ok found => ∃ place node, m.At path place node ∧
      found = ⟨m.ident place, entryType node⟩
  | .canonicalize path, .ok place => ∃ node, m.At path place node
  | .readDir path, .ok (entries, broke) => ∃ place, m.At path place .dir ∧
      m.Lists place entries broke
  | _, _ => True

/-- An answer that nothing is there is true. -/
def Missing : (r : FsRequest) → r.Answer → Prop
  | .metadata path, .error e | .readDir path, .error e => e.kind = .notFound → ¬m.Exists path
  | _, _ => True

def mayFail : Prog.Server Unit FsRequest FsRequest.Answer := fun _ r x _ => m.Truthful r x

/-- The system answers truthfully, and fails for what is missing only by saying so. -/
def serve : Prog.Server Unit FsRequest FsRequest.Answer :=
  fun _ r x _ => m.Truthful r x ∧ m.Missing r x

end Machine

end Dctl.Store.LocalFs
