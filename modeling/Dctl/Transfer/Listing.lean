import Mathlib.Algebra.Group.Int.Defs
import Mathlib.Algebra.GroupWithZero.Nat
import Mathlib.Data.String.Basic
import Dctl.Filter.FilterSet
import Dctl.Transfer.Compare

/-! The enumeration of one side of a transfer (`listing.rs`), with the names it can represent
(`platform/path.rs`), the links it follows (`dctl-store`, `links/mod.rs`) and the names that
collapse onto one path (`platform/collision.rs`). -/

namespace Dctl.Transfer

open Cli ProofKit

structure OsName where
  text : Option String
  nonempty : text ≠ some ""
  deriving DecidableEq

inductive Unrepresentable where
  | notUtf8
  | separator (c : Char)
  deriving DecidableEq, Repr

def isAscii (s : String) : Bool := s.toList.all fun c => c.toNat < 128

def normalizeUnicode (nfc : String → String) (path : String) : String :=
  if isAscii path then path else nfc path

def toLogicalComponent (nfc : String → String) (name : OsName) : Except Unrepresentable String :=
  match name.text with
  | none => .error .notUtf8
  | some text =>
    match text.toList.find? fun c => c ∈ logicalPathSeparators with
    | some found => .error (.separator found)
    | none => .ok (normalizeUnicode nfc text)

inductive LinkPolicy where
  | skip
  | follow
  | inTree
  deriving DecidableEq, Repr

namespace LinkPolicy

def follows : LinkPolicy → Bool
  | follow | inTree => true
  | skip => false

/-- Whether a followed target must stay under the walk root. -/
def confined : LinkPolicy → Bool
  | inTree => true
  | _ => false

end LinkPolicy

/-- What was found behind a link, once a policy that follows went to look. -/
inductive LinkTarget where
  | unread
  | missing
  | inside
  | outside
  deriving DecidableEq, Repr

/-- What a walk did about one link, and why. -/
inductive LinkVerdict where
  | notFollowed
  | followed
  | broken
  | outOfTree
  | cycle
  | notStorable
  deriving DecidableEq, Repr

def LinkPolicy.decide : LinkPolicy → LinkTarget → LinkVerdict
  | .skip, _ => .notFollowed
  | _, .unread => .notFollowed
  | _, .missing => .broken
  | .follow, _ => .followed
  | .inTree, .inside => .followed
  | .inTree, .outside => .outOfTree

/-- What stands under a name.  The walk of a directory may fail; a link says what is behind it,
where its target resolves to (`none`: it does not resolve), and whether the target is a directory
that the link lies in. -/
inductive Node where
  | file (len : Nat) (modified : Option SystemTime) (digest : Except CliError String)
  | dir (children : List (OsName × Bool × Node))
  | unlistable (error : CliError)
  | special
  | link (target : Option Node) (inside : Option Bool) (cycle : Bool)

/-- An entry of a directory: its name, whether its metadata can be read, and what it is. -/
abbrev Child : Type := OsName × Bool × Node

mutual

/-- The number of nodes that a walk can come to. -/
def Node.weight : Node → Nat
  | .dir children => weightOf children + 1
  | .link (some target) _ _ => target.weight + 1
  | _ => 1

def weightOf : List (OsName × Bool × Node) → Nat
  | [] => 0
  | (_, _, node) :: rest => node.weight + weightOf rest

end

/-- Which entries a walk keeps, and how hard it works to describe them. -/
structure ListOptions where
  filter : Filter.FilterSet
  includeEmptyDirs : Bool
  hashContents : Bool
  links : LinkPolicy

namespace ListOptions

variable (o : ListOptions)

def acceptsFile (path : String) (size : Nat) (modified : Option Int) : Bool :=
  o.filter.admitsEnumerated ((Filter.Candidate.ofFile path size).withTime modified)

def acceptsUnmeasuredFile (path : String) (modified : Option Int) : Bool :=
  o.filter.admitsEnumerated ((Filter.Candidate.unmeasuredFile path).withTime modified)

def mayDescend (path : String) : Bool := o.filter.mayDescend path

def acceptsDir (path : String) : Bool := o.filter.admitsDir path

end ListOptions

/-- The components of a path of this machine, the walk root first. -/
abbrev NativePath := List String

/-- Several local files that share one logical path. -/
structure Collision where
  logical : String
  natives : List NativePath
  deriving DecidableEq, Repr

def Collision.escaped (path : NativePath) : String :=
  let escape (c : Char) : List Char :=
    if c.toNat < 128 then [c]
    else
      let digits := Nat.toDigits 16 c.toNat
      "\\u\x7b".toList ++ List.replicate (4 - digits.length) '0' ++ digits ++ ['\x7d']
  String.ofList ((pathSeparator.toString.intercalate path).toList.flatMap escape)

def Collision.describe (collision : Collision) : String :=
  toString collision.natives.length ++
    " local files normalise to this one vault path, so storing them all would keep only " ++
    "the last: " ++
    ", ".intercalate (collision.natives.map fun native => "'" ++ Collision.escaped native ++ "'")

def collisionHint : String :=
  "because they look identical on screen. A vault path is Unicode-NFC so that one file has " ++
  "one key on every platform, which means these can only be stored as one object — and " ++
  "storing them would keep the last while reporting every one of them as transferred. " ++
  "Rename all but one at the source, then run the command again. Nothing has been stored."

/-- Stop the run, unless there is nothing to stop it for.  `listed` says whether the caller has
already printed the collisions. -/
def Collision.refuse (collisions : List Collision) (listed : Bool) : Except CliError Unit :=
  if collisions.isEmpty then .ok ()
  else
    let files := (collisions.map fun collision => collision.natives.length).sum
    let opening :=
      if listed then
        "Each group is listed above with its names spelled out escape by escape, "
      else
        String.join (collisions.map fun collision =>
          "'" ++ collision.logical ++ "': " ++ collision.describe ++ "\n") ++
        "The names are spelled out escape by escape "
    .error ((⟨.fatalError, toString files ++ " local file(s) share " ++
      toString collisions.length ++ " vault path(s) once their names are normalised",
      none⟩ : CliError).withHint (opening ++ collisionHint))

/-- What one side of a transfer turned out to contain.  `observed` are the names that were offered
to the collision detector. -/
structure Listing where
  entries : List Entry := []
  isSingleFile : Bool := false
  existing : Bool := false
  links : List (String × LinkVerdict) := []
  specials : List String := []
  unrepresentableSkipped : Nat := 0
  observed : List (String × NativePath) := []
  deriving DecidableEq, Repr

def Listing.collisions (l : Listing) : List Collision :=
  let shared := (l.observed.map Prod.fst).dedup.filter fun logical =>
    !isAscii logical && 2 ≤ (l.observed.filter fun x => x.1 = logical).length
  (shared.map fun logical =>
    { logical := logical
      natives := ((l.observed.filter fun x => x.1 = logical).map Prod.snd).mergeSort
        fun a b => a ≤ b : Collision }).mergeSort fun a b => a.logical ≤ b.logical

def Listing.sort (l : Listing) : Listing :=
  { l with entries := l.entries.mergeSort fun a b => a.path ≤ b.path }

def i64Max : Int := 2 ^ 63 - 1

def localModified (modified : Option SystemTime) : Option Int :=
  modified.bind fun t =>
    let seconds := t.tdiv 1000000000
    if seconds.natAbs ≤ i64Max then some seconds else none

/-- Build a file entry from filesystem metadata. -/
def Listing.fileEntry (o : ListOptions) (path : String) (len : Nat) (modified : Option SystemTime)
    (digest : Except CliError String) : Except CliError Entry := do
  let entry := { Entry.ofFile path len with modified := modified }
  if o.hashContents then
    let hash ← digest
    pure { entry with hash := some hash }
  else pure entry

def LinkPolicy.landed (policy : LinkPolicy) (inside : Option Bool) : LinkTarget :=
  if !policy.confined then .inside
  else match inside with
    | some true => .inside
    | some false => .outside
    | none => .missing

def leadTo (node : Node) (cycle : Bool) : Option Node × LinkVerdict :=
  match node with
  | .dir _ | .unlistable _ => if cycle then (none, .cycle) else (some node, .followed)
  | .file .. => (some node, .followed)
  | .special | .link .. => (none, .notStorable)

def resolveLink (policy : LinkPolicy) (target : Option Node) (inside : Option Bool) (cycle : Bool) :
    Option Node × LinkVerdict :=
  if !policy.follows then (none, policy.decide .unread)
  else match target with
    | none => (none, policy.decide .missing)
    | some node =>
      let verdict := policy.decide (policy.landed inside)
      if verdict ≠ .followed then (none, verdict) else leadTo node cycle

/-- A directory that waits to be read: where it is, its logical path, and its entries. -/
structure Pending where
  native : NativePath
  dir : String
  content : Except CliError (List Child)

def settle (o : ListOptions) (native : NativePath) (path : String) (listing : Listing)
    (stack : List Pending) : Node → Except CliError (Listing × List Pending)
  | .dir children =>
    .ok (listing, if o.mayDescend path then ⟨native, path, .ok children⟩ :: stack else stack)
  | .unlistable error =>
    .ok (listing, if o.mayDescend path then ⟨native, path, .error error⟩ :: stack else stack)
  | .file len modified digest =>
    if o.acceptsFile path len (localModified modified) then do
      let entry ← Listing.fileEntry o path len modified digest
      pure ({ listing with
        entries := listing.entries ++ [entry]
        observed := listing.observed ++ [(path, native)] }, stack)
    else .ok (listing, stack)
  | .special | .link .. => .ok ({ listing with specials := listing.specials ++ [path] }, stack)

def visitChild (nfc : String → String) (o : ListOptions) (native : NativePath) (dir : String)
    (state : Listing × List Pending) (child : Child) : Except CliError (Listing × List Pending) :=
  let (listing, stack) := state
  match toLogicalComponent nfc child.1 with
  | .error _ =>
    .ok ({ listing with unrepresentableSkipped := listing.unrepresentableSkipped + 1 }, stack)
  | .ok name =>
    let path := LogicalPath.join dir name
    let native := native ++ [child.1.text.getD ""]
    -- An entry whose metadata cannot be read is passed over without a word.
    if !child.2.1 then .ok (listing, stack)
    else match child.2.2 with
      | .link target inside cycle =>
        let (resolved, verdict) := resolveLink o.links target inside cycle
        let listing := { listing with links := listing.links ++ [(path, verdict)] }
        match resolved with
        | none => .ok (listing, stack)
        | some node => settle o native path listing stack node
      | node => settle o native path listing stack node

def weightOfPending (p : Pending) : Nat :=
  match p.content with
  | .ok children => weightOf children + 1
  | .error _ => 1

def weightOfStack (stack : List Pending) : Nat := (stack.map weightOfPending).sum

def Node.found (links : LinkPolicy) : Node → Option Node
  | .link target inside cycle => (resolveLink links target inside cycle).1
  | node => some node

theorem leadTo_eq_some {node found : Node} {cycle : Bool}
    (h : (leadTo node cycle).1 = some found) : node = found := by
  cases node with
  | dir children => cases cycle <;> cases h; rfl
  | unlistable error => cases cycle <;> cases h; rfl
  | file => cases h; rfl
  | special => cases h
  | link => cases h

theorem target_of_resolveLink {policy : LinkPolicy} {target : Option Node} {inside : Option Bool}
    {cycle : Bool} {node : Node} (h : (resolveLink policy target inside cycle).1 = some node) :
    target = some node := by
  cases hf : policy.follows
  · simp [resolveLink, hf] at h
  cases target with
  | none => simp [resolveLink, hf] at h
  | some found =>
    simp only [resolveLink, hf, Bool.not_true, Bool.false_eq_true, if_false] at h
    split at h
    · cases h
    · exact congrArg some (leadTo_eq_some h)

theorem weight_le_of_found {links : LinkPolicy} {node found : Node}
    (h : node.found links = some found) : found.weight ≤ node.weight := by
  cases node with
  | link target inside cycle =>
    obtain rfl := target_of_resolveLink h
    exact Nat.le_succ _
  | file => cases h; exact Nat.le_refl _
  | dir => cases h; exact Nat.le_refl _
  | unlistable => cases h; exact Nat.le_refl _
  | special => cases h; exact Nat.le_refl _

variable {nfc : String → String} {o : ListOptions} {native : NativePath} {path dir : String}
  {listing : Listing} {stack : List Pending}

@[simp] theorem weightOfPending_ok (children : List Child) :
    weightOfPending ⟨native, dir, .ok children⟩ = weightOf children + 1 := rfl

@[simp] theorem weightOfPending_error (error : CliError) :
    weightOfPending ⟨native, dir, .error error⟩ = 1 := rfl

@[simp] theorem weightOfStack_cons (p : Pending) :
    weightOfStack (p :: stack) = weightOfPending p + weightOfStack stack := by
  simp [weightOfStack]

variable {state : Listing × List Pending}

theorem weight_of_settle {node : Node} (h : settle o native path listing stack node = .ok state) :
    weightOfStack state.2 ≤ weightOfStack stack + node.weight := by
  cases node with
  | dir children =>
    cases h
    show weightOfStack (if o.mayDescend path = true then _ else _) ≤ _
    split
    · rw [weightOfStack_cons, weightOfPending_ok, Node.weight]
      omega
    · exact Nat.le_add_right _ _
  | unlistable error =>
    cases h
    show weightOfStack (if o.mayDescend path = true then _ else _) ≤ _
    split
    · rw [weightOfStack_cons, weightOfPending_error, Node.weight]
      · omega
      all_goals simp
    · exact Nat.le_add_right _ _
  | file len modified digest =>
    rw [settle] at h
    split at h
    · obtain ⟨entry, -, h⟩ := bind_eq_ok.mp h
      cases h
      exact Nat.le_add_right _ _
    · cases h
      exact Nat.le_add_right _ _
  | special => cases h; exact Nat.le_add_right _ _
  | link target inside cycle => cases h; exact Nat.le_add_right _ _

theorem visitChild_cases {child : Child}
    (h : visitChild nfc o native dir (listing, stack) child = .ok state) :
    (∃ name node links, toLogicalComponent nfc child.1 = .ok name ∧ child.2.1 = true ∧
      child.2.2.found o.links = some node ∧
      settle o (native ++ [child.1.text.getD ""]) (LogicalPath.join dir name)
        { listing with links := links } stack node = .ok state) ∨
    ((∀ name, toLogicalComponent nfc child.1 = .ok name → child.2.1 = true →
      child.2.2.found o.links = none) ∧
      ∃ links skipped,
        state = ({ listing with links := links, unrepresentableSkipped := skipped }, stack)) := by
  obtain ⟨name, readable, node⟩ := child
  rw [visitChild] at h
  cases hname : toLogicalComponent nfc name with
  | error e =>
    rw [hname] at h
    cases h
    exact Or.inr ⟨fun _ h => (by cases h), _, _, rfl⟩
  | ok component =>
    rw [hname] at h
    cases readable
    · cases h
      exact Or.inr ⟨fun _ _ h => (by cases h), _, _, rfl⟩
    · cases node with
      | link target inside cycle =>
        cases hres : (resolveLink o.links target inside cycle).1 with
        | none =>
          simp only [Bool.not_true, Bool.false_eq_true, if_false, hres] at h
          cases h
          exact Or.inr ⟨fun _ _ _ => hres, _, _, rfl⟩
        | some found =>
          simp only [Bool.not_true, Bool.false_eq_true, if_false, hres] at h
          exact Or.inl ⟨_, found, _, rfl, rfl, hres, h⟩
      | file => exact Or.inl ⟨_, _, listing.links, rfl, rfl, rfl, h⟩
      | dir => exact Or.inl ⟨_, _, listing.links, rfl, rfl, rfl, h⟩
      | unlistable => exact Or.inl ⟨_, _, listing.links, rfl, rfl, rfl, h⟩
      | special => exact Or.inl ⟨_, _, listing.links, rfl, rfl, rfl, h⟩

theorem weight_of_foldlM {children : List Child}
    (h : children.foldlM (visitChild nfc o native dir) (listing, stack) = .ok state) :
    weightOfStack state.2 ≤ weightOfStack stack + weightOf children := by
  induction children generalizing listing stack with
  | nil =>
    cases h
    exact Nat.le_add_right _ _
  | cons child rest ih =>
    rw [List.foldlM_cons] at h
    obtain ⟨⟨listing', stack'⟩, hvisit, hrest⟩ := bind_eq_ok.mp h
    have hle : weightOfStack stack' ≤ weightOfStack stack + child.2.2.weight := by
      rcases visitChild_cases hvisit with ⟨name, node, links, -, -, hfound, hset⟩ |
        ⟨-, links, skipped, hstate⟩
      · exact Nat.le_trans (weight_of_settle hset)
          (Nat.add_le_add_left (weight_le_of_found hfound) _)
      · cases hstate
        exact Nat.le_add_right _ _
    have := ih hrest
    obtain ⟨name, readable, node⟩ := child
    rw [weightOf]
    simp only at hle
    omega

def closeDir (o : ListOptions) (dir : String) (children : List Child) (listing : Listing) :
    Listing :=
  if children.isEmpty && dir ≠ "" && o.includeEmptyDirs && o.acceptsDir dir then
    { listing with entries := listing.entries ++ [Entry.ofEmptyDir dir] }
  else listing

def walkLoop (nfc : String → String) (o : ListOptions) (listing : Listing) :
    List Pending → Except CliError Listing
  | [] => .ok listing
  | ⟨native, _, .error error⟩ :: _ => .error (error.withHint ("Could not read " ++
      pathSeparator.toString.intercalate native))
  | ⟨native, dir, .ok children⟩ :: stack =>
    match _h : children.foldlM (visitChild nfc o native dir) (listing, stack) with
    | .error error => .error error
    | .ok (listing', stack') => walkLoop nfc o (closeDir o dir children listing') stack'
termination_by stack => weightOfStack stack
decreasing_by
  have hle : weightOfStack stack' ≤ weightOfStack stack + weightOf children := weight_of_foldlM _h
  rw [weightOfStack_cons, weightOfPending_ok]
  omega

structure LocalRoot where
  native : String
  name : Option OsName
  node : Option Node

def Node.resolved : Node → Option Node
  | .link target _ _ => target
  | node => some node

def walkLocal (nfc : String → String) (o : ListOptions) (root : LocalRoot) :
    Except CliError Listing := do
  let start : Listing := { existing := true }
  match root.node.bind Node.resolved with
  | none => pure {}
  | some (.file len modified digest) =>
    let start := { start with isSingleFile := true }
    match root.name.map (toLogicalComponent nfc) with
    | some (.ok name) =>
      if o.acceptsFile name len (localModified modified) then
        let entry ← Listing.fileEntry o name len modified digest
        pure { start with entries := [entry] }
      else pure start
    | _ => pure { start with unrepresentableSkipped := 1 }
  | some (.dir children) =>
    let listing ← walkLoop nfc o start [⟨[root.native], "", .ok children⟩]
    pure listing.sort
  | some (.unlistable error) =>
    let listing ← walkLoop nfc o start [⟨[root.native], "", .error error⟩]
    pure listing.sort
  | some .special | some (.link ..) =>
    pure { start with specials := [(root.name.bind OsName.text).getD root.native] }

/-- One enumerated object of a named remote.  `digest` is what the remote answers when it is asked
for the content hash of an object whose listing carries none. -/
structure RemoteObject where
  path : String
  size : Option Nat
  modifiedUnix : Option Int
  contentHash : Option String
  digest : Except CliError (Option String)
  objectMissing : Bool

/-- What the enumeration of a named remote turned out to be. -/
structure Cursor where
  objects : Except CliError (List RemoteObject)
  links : List (String × LinkVerdict) := []
  specials : List String := []

def unixSeconds (seconds : Int) : Option SystemTime :=
  if seconds = -2 ^ 63 then none else some (seconds * 1000000000)

def relativeTo (root path : String) : String :=
  if root = "" then path
  else if root.toList.isPrefixOf path.toList then
    String.ofList ((path.toList.drop root.length).dropWhile (· = pathSeparator))
  else path

/-- Ask the filter about one enumerated remote object, measured or not. -/
def accepts (o : ListOptions) (path : String) (size : Option Nat) (modified : Option Int) : Bool :=
  match size with
  | none => o.acceptsUnmeasuredFile path modified
  | some size => o.acceptsFile path size modified

def remoteEntry (o : ListOptions) (relative : String) (object : RemoteObject) :
    Except CliError Entry := do
  let entry := match object.size with
    | some size => Entry.ofFile relative size
    | none => Entry.unmeasuredFile relative
  let entry := { entry with
    objectMissing := object.objectMissing
    modified := object.modifiedUnix.bind unixSeconds }
  if o.hashContents then
    match object.contentHash with
    | some digest => pure { entry with hash := some digest }
    | none =>
      let digest ← object.digest
      pure { entry with hash := digest }
  else pure entry

def visitObject (o : ListOptions) (root : String) (state : Listing × Option RemoteObject)
    (object : RemoteObject) : Except CliError (Listing × Option RemoteObject) :=
  let listing := { state.1 with existing := true }
  if object.path = root then .ok (listing, some object)
  else
    let relative := relativeTo root object.path
    if accepts o relative object.size object.modifiedUnix then do
      let entry ← remoteEntry o relative object
      pure ({ listing with entries := listing.entries ++ [entry] }, state.2)
    else .ok (listing, state.2)

def takeExact (o : ListOptions) (root : String) (listing : Listing) :
    Option RemoteObject → Except CliError Listing
  | none => .ok listing
  | some object =>
    let listing := { listing with isSingleFile := true, entries := [] }
    let leaf := LogicalPath.fileName root
    if accepts o leaf object.size object.modifiedUnix then do
      let entry ← remoteEntry o leaf object
      pure { listing with entries := [entry] }
    else .ok listing

def walkRemote (o : ListOptions) (root : String) (cursor : Cursor) : Except CliError Listing := do
  let objects ← cursor.objects
  let (listing, exact) ← objects.foldlM (visitObject o root) ({}, none)
  let listing ← takeExact o root listing exact
  pure { listing with links := cursor.links, specials := cursor.specials }.sort

/-- One endpoint of a transfer, with what stands there. -/
inductive Endpoint where
  | «local» (root : LocalRoot)
  | named (root : String) (cursor : Cursor)

def Listing.enumerate (nfc : String → String) (o : ListOptions) : Endpoint → Except CliError Listing
  | .local root => walkLocal nfc o root
  | .named root cursor => walkRemote o root cursor

def Listing.source (nfc : String → String) (o : ListOptions) (display : String)
    (endpoint : Endpoint) :
    Except CliError Listing := do
  let listing ← Listing.enumerate nfc o endpoint
  if !listing.existing then
    throw ((⟨.dirNotFound, "source not found: " ++ display, none⟩ : CliError).withHint
      "Check the path, and the remote name if one was given.")
  Collision.refuse listing.collisions false
  pure listing

def Listing.destination (nfc : String → String) (o : ListOptions) (endpoint : Endpoint) :
    Except CliError Listing := Listing.enumerate nfc o endpoint

def Listing.untraversed : Listing := { existing := true }

end Dctl.Transfer
