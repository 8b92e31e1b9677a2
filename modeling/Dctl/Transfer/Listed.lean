import Dctl.Filter.Walk
import Dctl.ProofKit.Pairing
import Dctl.Transfer.Listing

/-! What an enumeration lists: the files and the empty directories that stand below the root,
behind names, directories and links that the walk passes. -/

namespace Dctl.Transfer

open Cli ProofKit List

def Listing.keys (l : Listing) : List (String × Kind) := l.entries.map fun e => (e.path, e.kind)

theorem Listing.mem_keys {l : Listing} {path : String} {kind : Kind} :
    (path, kind) ∈ l.keys ↔ ∃ e ∈ l.entries, e.path = path ∧ e.kind = kind := by
  simp [Listing.keys]

@[simp] theorem Listing.mem_keys_sort {l : Listing} {key : String × Kind} :
    key ∈ l.sort.keys ↔ key ∈ l.keys := by
  obtain ⟨path, kind⟩ := key
  simp only [Listing.mem_keys, Listing.sort, mem_mergeSort]

/-! ### What stands at a path -/

section Tree

variable (nfc : String → String) (links : LinkPolicy) (passes : String → Bool → Node → Prop)

/-- `found` stands at `path` in the tree of a node that stands at `dir`, and every name on the way
passes: its path, whether its metadata can be read, and what is under it. -/
inductive NodeAt : String → Node → String → Node → Prop
  | here {path : String} {node : Node} : NodeAt path node path node
  | under {dir name path : String} {children : List Child} {child : Child} {node found : Node} :
    child ∈ children → toLogicalComponent nfc child.1 = .ok name →
    child.2.2.found links = some node → passes (LogicalPath.join dir name) child.2.1 node →
    NodeAt (LogicalPath.join dir name) node path found → NodeAt dir (.dir children) path found

variable {nfc links passes}

theorem NodeAt.mono {passes' : String → Bool → Node → Prop} {dir path : String} {node found : Node}
    (hpass : ∀ path readable node, passes path readable node → passes' path readable node)
    (h : NodeAt nfc links passes dir node path found) :
    NodeAt nfc links passes' dir node path found := by
  induction h with
  | here => exact .here
  | under hchild hname hfound hpasses _ ih =>
    exact .under hchild hname hfound (hpass _ _ _ hpasses) ih

section

variable {dir path : String} {node found : Node} (h : NodeAt nfc links passes dir node path found)
include h

theorem NodeAt.last : (path = dir ∧ found = node) ∨ ∃ readable, passes path readable found := by
  induction h with
  | here => exact Or.inl ⟨rfl, rfl⟩
  | under _ _ _ hpasses _ ih =>
    rcases ih with ⟨rfl, rfl⟩ | hlast
    · exact Or.inr ⟨_, hpasses⟩
    · exact Or.inr hlast

theorem NodeAt.eq_of_not_dir (hnode : ∀ children, node ≠ .dir children) :
    path = dir ∧ found = node := by
  cases h with
  | here => exact ⟨rfl, rfl⟩
  | under => exact absurd rfl (hnode _)

end

end Tree

def ListOptions.enters (o : ListOptions) (path : String) : Node → Bool
  | .dir _ | .unlistable _ => o.mayDescend path
  | _ => true

/-- The listing enters the node and can read it. -/
def Walked (o : ListOptions) (path : String) (readable : Bool) (node : Node) : Prop :=
  readable = true ∧ o.enters path node = true

/-- What the walk keeps of what it finds. -/
def Keeps (o : ListOptions) (path : String) : Node → Kind → Prop
  | .file len modified _, .file => o.acceptsFile path len (localModified modified) = true
  | .dir [], .emptyDir => path ≠ "" ∧ o.includeEmptyDirs = true ∧ o.acceptsDir path = true
  | _, _ => False

/-- The walk of a node that stands at `dir` makes an entry of this path and kind. -/
def Listed (nfc : String → String) (o : ListOptions) (dir : String) (node : Node)
    (key : String × Kind) : Prop :=
  ∃ found, NodeAt nfc o.links (Walked o) dir node key.1 found ∧ Keeps o key.1 found key.2

/-- The visit of a child of `dir` makes such an entry. -/
def ListedChild (nfc : String → String) (o : ListOptions) (dir : String) (child : Child)
    (key : String × Kind) : Prop :=
  ∃ name node, toLogicalComponent nfc child.1 = .ok name ∧ child.2.2.found o.links = some node ∧
    Walked o (LogicalPath.join dir name) child.2.1 node ∧
    Listed nfc o (LogicalPath.join dir name) node key

/-- The directories that wait will make such an entry. -/
def Waits (nfc : String → String) (o : ListOptions) (stack : List Pending) (key : String × Kind) :
    Prop :=
  ∃ p ∈ stack, ∃ children, p.content = .ok children ∧ Listed nfc o p.dir (.dir children) key

/-! ### One turn of the walk -/

variable {nfc : String → String} {o : ListOptions} {native : NativePath} {path dir : String}
  {listing : Listing} {stack : List Pending} {key : String × Kind} {children : List Child}

variable {node : Node}

theorem listed_of_not_dir (hnode : ∀ children, node ≠ .dir children) :
    Listed nfc o dir node key ↔ key.1 = dir ∧ Keeps o dir node key.2 := by
  constructor
  · rintro ⟨found, hat, hkept⟩
    obtain ⟨hpath, rfl⟩ := hat.eq_of_not_dir hnode
    exact ⟨hpath, hpath ▸ hkept⟩
  · rintro ⟨rfl, hkept⟩
    exact ⟨node, .here, hkept⟩

theorem listed_dir : Listed nfc o dir (.dir children) key ↔
    (key.1 = dir ∧ Keeps o dir (.dir children) key.2) ∨
      ∃ child ∈ children, ListedChild nfc o dir child key := by
  constructor
  · rintro ⟨found, hat, hkept⟩
    obtain ⟨path, kind⟩ := key
    cases hat with
    | here => exact Or.inl ⟨rfl, hkept⟩
    | under hchild hname hfound hpasses hat =>
      exact Or.inr ⟨_, hchild, _, _, hname, hfound, hpasses, found, hat, hkept⟩
  · rintro (⟨rfl, hkept⟩ | ⟨child, hchild, name, node, hname, hfound, hpasses, found, hat, hkept⟩)
    · exact ⟨_, .here, hkept⟩
    · exact ⟨found, .under hchild hname hfound hpasses hat, hkept⟩

theorem waits_cons {p : Pending} : Waits nfc o (p :: stack) key ↔
    (∃ children, p.content = .ok children ∧ Listed nfc o p.dir (.dir children) key) ∨
      Waits nfc o stack key := by
  simp only [Waits, mem_cons, exists_eq_or_imp]

theorem Listing.fileEntry_eq_ok {len : Nat} {modified : Option SystemTime}
    {digest : Except CliError String} {entry : Entry}
    (h : Listing.fileEntry o path len modified digest = .ok entry) :
    entry.path = path ∧ entry.kind = .file ∧ entry.objectMissing = false := by
  rw [Listing.fileEntry] at h
  split at h
  · obtain ⟨hash, -, h⟩ := bind_eq_ok.mp h
    cases h
    exact ⟨rfl, rfl, rfl⟩
  · cases h
    exact ⟨rfl, rfl, rfl⟩

variable {state : Listing × List Pending}

theorem keys_settle (h : settle o native path listing stack node = .ok state) :
    (key ∈ state.1.keys ∨ Waits nfc o state.2 key) ↔
      (key ∈ listing.keys ∨ Waits nfc o stack key) ∨
        (o.enters path node = true ∧ Listed nfc o path node key) := by
  cases node with
  | dir children =>
    cases h
    show (_ ∨ Waits nfc o (if o.mayDescend path = true then _ else _) key) ↔ _
    cases hd : o.mayDescend path
    · simp [ListOptions.enters, hd]
    · simp only [if_true, waits_cons, ListOptions.enters, hd, true_and, Except.ok.injEq,
        exists_eq_left']
      tauto
  | unlistable error =>
    cases h
    rw [listed_of_not_dir (by simp)]
    show (_ ∨ Waits nfc o (if o.mayDescend path = true then _ else _) key) ↔ _
    cases hd : o.mayDescend path
    · simp [ListOptions.enters, hd]
    · simp [waits_cons, Keeps]
  | file len modified digest =>
    rw [listed_of_not_dir (by simp)]
    rw [settle] at h
    split at h
    · rename_i haccept
      obtain ⟨entry, hentry, h⟩ := bind_eq_ok.mp h
      cases h
      obtain ⟨hpath, hkind, -⟩ := Listing.fileEntry_eq_ok hentry
      have hkeys : ({ listing with
          entries := listing.entries ++ [entry]
          observed := listing.observed ++ [(path, native)] } : Listing).keys =
          listing.keys ++ [(path, .file)] := by
        simp [Listing.keys, hpath, hkind]
      rw [hkeys, mem_append, mem_singleton]
      obtain ⟨p, kind⟩ := key
      cases kind
      · simp [Keeps, haccept, ListOptions.enters]
        tauto
      · simp [Keeps]
    · rename_i haccept
      cases h
      obtain ⟨p, kind⟩ := key
      cases kind <;> simp [Keeps, haccept]
  | special =>
    cases h
    rw [listed_of_not_dir (by simp)]
    simp [Keeps, Listing.keys]
  | link target inside cycle =>
    cases h
    rw [listed_of_not_dir (by simp)]
    simp [Keeps, Listing.keys]

variable {child : Child}

theorem keys_visitChild (h : visitChild nfc o native dir (listing, stack) child = .ok state) :
    (key ∈ state.1.keys ∨ Waits nfc o state.2 key) ↔
      (key ∈ listing.keys ∨ Waits nfc o stack key) ∨ ListedChild nfc o dir child key := by
  rcases visitChild_cases h with ⟨name, node, links, hname, hreadable, hfound, hset⟩ |
    ⟨hpassed, links, skipped, rfl⟩
  · rw [keys_settle hset]
    have hchild : ListedChild nfc o dir child key ↔
        o.enters (LogicalPath.join dir name) node = true ∧
          Listed nfc o (LogicalPath.join dir name) node key := by
      constructor
      · rintro ⟨name', node', hname', hfound', ⟨-, henters⟩, hlisted⟩
        rw [hname] at hname'
        rw [hfound] at hfound'
        cases hname'
        cases hfound'
        exact ⟨henters, hlisted⟩
      · rintro ⟨henters, hlisted⟩
        exact ⟨name, node, hname, hfound, ⟨hreadable, henters⟩, hlisted⟩
    rw [hchild]
    rfl
  · have hchild : ¬ListedChild nfc o dir child key := by
      rintro ⟨name, node, hname, hfound, ⟨hreadable, -⟩, -⟩
      rw [hpassed name hname hreadable] at hfound
      cases hfound
    rw [or_iff_left hchild]
    rfl

theorem keys_foldlM (h :
    children.foldlM (visitChild nfc o native dir) (listing, stack) = .ok state) :
    (key ∈ state.1.keys ∨ Waits nfc o state.2 key) ↔
      (key ∈ listing.keys ∨ Waits nfc o stack key) ∨
        ∃ child ∈ children, ListedChild nfc o dir child key := by
  induction children generalizing listing stack with
  | nil =>
    cases h
    simp
  | cons child rest ih =>
    rw [foldlM_cons] at h
    obtain ⟨⟨listing', stack'⟩, hvisit, hrest⟩ := bind_eq_ok.mp h
    have hone : (key ∈ listing'.keys ∨ Waits nfc o stack' key) ↔ _ := keys_visitChild hvisit
    rw [ih hrest, hone]
    simp only [mem_cons, exists_eq_or_imp, or_assoc]

theorem keys_closeDir : key ∈ (closeDir o dir children listing).keys ↔
    key ∈ listing.keys ∨ (key.1 = dir ∧ Keeps o dir (.dir children) key.2) := by
  obtain ⟨path, kind⟩ := key
  rw [closeDir]
  cases children with
  | cons child rest =>
    cases kind <;> simp [Keeps]
  | nil =>
    split
    · rename_i h
      have hkeys : ({ listing with
          entries := listing.entries ++ [Entry.ofEmptyDir dir] } : Listing).keys =
          listing.keys ++ [(dir, .emptyDir)] := by
        simp [Listing.keys, Entry.ofEmptyDir]
      rw [hkeys, mem_append, mem_singleton]
      cases kind
      · simp [Keeps]
      · simp only [isEmpty_nil, Bool.true_and, Bool.and_eq_true, decide_eq_true_eq] at h
        simp [Keeps, h]
    · rename_i h
      cases kind
      · simp [Keeps]
      · simp only [isEmpty_nil, Bool.true_and, Bool.and_eq_true, decide_eq_true_eq] at h
        rw [iff_self_or]
        rintro ⟨-, hdir, hinclude, haccept⟩
        exact absurd ⟨⟨hdir, hinclude⟩, haccept⟩ h

/-! ### The whole walk -/

theorem keys_walkLoop {l : Listing} (h : walkLoop nfc o listing stack = .ok l) :
    key ∈ l.keys ↔ key ∈ listing.keys ∨ Waits nfc o stack key := by
  induction listing, stack using walkLoop.induct nfc o with
  | case1 listing =>
    rw [walkLoop] at h
    cases h
    simp [Waits]
  | case2 listing native dir stack error =>
    rw [walkLoop] at h
    cases h
  | case3 listing native dir children stack error hfold =>
    rw [walkLoop, hfold] at h
    cases h
  | case4 listing native dir children stack listing' stack' hfold ih =>
    rw [walkLoop, hfold] at h
    have hturn : (key ∈ listing'.keys ∨ Waits nfc o stack' key) ↔ _ := keys_foldlM hfold
    rw [ih h, keys_closeDir, waits_cons]
    simp only [Except.ok.injEq, exists_eq_left', listed_dir]
    rw [or_right_comm, hturn]
    simp only [or_assoc, or_comm, or_left_comm]

/-! ### The two kinds of sides -/

def Listing.shape (l : Listing) : Bool × Bool := (l.existing, l.isSingleFile)

def LocalRoot.tree (nfc : String → String) (root : LocalRoot) : Option (String × Node) :=
  match root.node.bind Node.resolved with
  | none => none
  | some (.file len modified digest) =>
    match root.name.map (toLogicalComponent nfc) with
    | some (.ok name) => some (name, .file len modified digest)
    | _ => none
  | some node => some ("", node)

def exactObject (root : String) (objects : List RemoteObject) : Option RemoteObject :=
  (objects.filter fun object => object.path = root).getLast?

def Cursor.contents (root : String) (cursor : Cursor) : List (String × RemoteObject) :=
  match cursor.objects with
  | .error _ => []
  | .ok objects =>
    match exactObject root objects with
    | some object => [(LogicalPath.fileName root, object)]
    | none => objects.map fun object => (relativeTo root object.path, object)

namespace Endpoint

variable (nfc : String → String) (links : LinkPolicy) (passes : String → Bool → Node → Prop)

/-- The endpoint has the file, with this size and time. -/
def FileAt (path : String) (size : Option Nat) (modified : Option Int) : Endpoint → Prop
  | .local root => ∃ dir node len time digest, root.tree nfc = some (dir, node) ∧
    NodeAt nfc links passes dir node path (.file len time digest) ∧
    size = some len ∧ modified = localModified time
  | .named root cursor => ∃ object, (path, object) ∈ cursor.contents root ∧
    size = object.size ∧ modified = object.modifiedUnix

/-- A directory without entries stands at this path of a side, behind names that pass. -/
def EmptyDirAt (path : String) : Endpoint → Prop
  | .local root => ∃ dir node, root.tree nfc = some (dir, node) ∧
    NodeAt nfc links passes dir node path (.dir [])
  | .named .. => False

end Endpoint

variable {root : String} {cursor : Cursor} {objects : List RemoteObject} {l : Listing}
  {size : Option Nat} {modified : Option Int}

theorem accepts_eq : accepts o path size modified =
    o.filter.admitsEnumerated ⟨path, size, modified, false⟩ := by
  cases size <;> rfl

def Described (o : ListOptions) (x : String × RemoteObject) (entry : Entry) : Prop :=
  remoteEntry o x.1 x.2 = .ok entry

theorem Described.eq {x : String × RemoteObject} {entry : Entry} (h : Described o x entry) :
    entry.path = x.1 ∧ entry.kind = .file ∧ entry.objectMissing = x.2.objectMissing := by
  rw [Described, remoteEntry] at h
  split at h
  · split at h
    · cases h
      cases x.2.size <;> exact ⟨rfl, rfl, rfl⟩
    · obtain ⟨digest, -, h⟩ := bind_eq_ok.mp h
      cases h
      cases x.2.size <;> exact ⟨rfl, rfl, rfl⟩
  · cases h
    cases x.2.size <;> exact ⟨rfl, rfl, rfl⟩

def inScope (o : ListOptions) (contents : List (String × RemoteObject)) :
    List (String × RemoteObject) :=
  contents.filter fun x => accepts o x.1 x.2.size x.2.modifiedUnix

def below (root : String) (objects : List RemoteObject) : List (String × RemoteObject) :=
  (objects.filter fun object => object.path ≠ root).map fun object =>
    (relativeTo root object.path, object)

theorem visitObject_cases {state mid : Listing × Option RemoteObject} {object : RemoteObject}
    (h : visitObject o root state object = .ok mid) :
    (object.path = root ∧ mid = ({ state.1 with existing := true }, some object)) ∨
    (object.path ≠ root ∧ mid.2 = state.2 ∧ mid.1.shape = (true, state.1.isSingleFile) ∧
      ∃ entries, List.Forall₂ (Described o) (inScope o [(relativeTo root object.path, object)])
        entries ∧ mid.1.entries = state.1.entries ++ entries) := by
  rw [visitObject] at h
  by_cases hroot : object.path = root
  · rw [if_pos hroot] at h
    cases h
    exact Or.inl ⟨hroot, rfl⟩
  · rw [if_neg hroot] at h
    refine Or.inr ⟨hroot, ?_⟩
    by_cases hacc : accepts o (relativeTo root object.path) object.size object.modifiedUnix = true
    · simp only [hacc, if_true] at h
      obtain ⟨entry, hentry, h⟩ := bind_eq_ok.mp h
      cases h
      refine ⟨rfl, rfl, [entry], ?_, rfl⟩
      rw [inScope, filter_singleton, hacc]
      exact .cons hentry .nil
    · simp only [hacc] at h
      cases h
      refine ⟨rfl, rfl, [], ?_, (append_nil _).symm⟩
      rw [inScope, filter_singleton, Bool.eq_false_iff.mpr hacc]
      exact .nil

theorem foldlM_visitObject {state state' : Listing × Option RemoteObject}
    (h : objects.foldlM (visitObject o root) state = .ok state') :
    (∃ entries, List.Forall₂ (Described o) (inScope o (below root objects)) entries ∧
      state'.1.entries = state.1.entries ++ entries) ∧
    state'.2 = (exactObject root objects).or state.2 ∧
    state'.1.isSingleFile = state.1.isSingleFile ∧ (state'.1.existing = true ∨ objects = []) := by
  induction objects generalizing state with
  | nil =>
    cases h
    exact ⟨⟨[], .nil, (append_nil _).symm⟩, rfl, rfl, Or.inr rfl⟩
  | cons object rest ih =>
    rw [foldlM_cons] at h
    obtain ⟨mid, hvisit, hrest⟩ := bind_eq_ok.mp h
    obtain ⟨⟨entries, hall, hentries⟩, hexact, hsingle, hexisting⟩ := ih hrest
    have hmid : mid.1.existing = true → state'.1.existing = true := by
      intro hm
      rcases hexisting with hexisting | rfl
      · exact hexisting
      · cases hrest
        exact hm
    rw [hexact, hsingle, hentries]
    rcases visitObject_cases hvisit with ⟨hroot, rfl⟩ | ⟨hroot, hheld, hshape, first, hfirst, hmore⟩
    · refine ⟨⟨entries, ?_, rfl⟩, ?_, rfl, Or.inl (hmid rfl)⟩
      · simpa [below, hroot] using hall
      · simp [exactObject, hroot, List.getLast?_cons]
    · rw [Listing.shape, Prod.mk.injEq] at hshape
      refine ⟨⟨first ++ entries, ?_, ?_⟩, ?_, hshape.2, Or.inl (hmid hshape.1)⟩
      · have hsplit : inScope o (below root (object :: rest)) =
            inScope o [(relativeTo root object.path, object)] ++ inScope o (below root rest) := by
          rw [inScope, inScope, inScope, ← filter_append]
          simp [below, hroot]
        rw [hsplit]
        exact rel_append hfirst hall
      · rw [hmore, append_assoc]
      · rw [hheld]
        simp [exactObject, hroot]

theorem takeExact_some {object : RemoteObject} {listing' : Listing}
    (h : takeExact o root listing (some object) = .ok listing') :
    listing'.shape = (listing.existing, true) ∧ List.Forall₂ (Described o)
      (inScope o [(LogicalPath.fileName root, object)]) listing'.entries := by
  rw [takeExact] at h
  by_cases hacc : accepts o (LogicalPath.fileName root) object.size object.modifiedUnix = true
  · simp only [hacc, if_true] at h
    obtain ⟨entry, hentry, h⟩ := bind_eq_ok.mp h
    cases h
    refine ⟨rfl, ?_⟩
    rw [inScope, filter_singleton, hacc]
    exact .cons hentry .nil
  · simp only [hacc] at h
    cases h
    refine ⟨rfl, ?_⟩
    rw [inScope, filter_singleton, Bool.eq_false_iff.mpr hacc]
    exact .nil

/-- What the enumeration of a named side is: the accepted objects, described and sorted, and the
shape that the root gives it. -/
theorem walkRemote_eq_ok (h : walkRemote o root cursor = .ok l) :
    ∃ objects entries, cursor.objects = .ok objects ∧
      List.Forall₂ (Described o) (inScope o (cursor.contents root)) entries ∧
      l.entries = entries.mergeSort (fun a b => a.path ≤ b.path) ∧
      (l.isSingleFile = true ↔ ∃ object, exactObject root objects = some object) ∧
      (l.existing = true ∨ objects = []) := by
  rw [walkRemote] at h
  obtain ⟨objects, hobjects, h⟩ := bind_eq_ok.mp h
  obtain ⟨⟨listing, exact⟩, hfold, h⟩ := bind_eq_ok.mp h
  obtain ⟨listing', htake, h⟩ := bind_eq_ok.mp h
  cases h
  obtain ⟨⟨entries, hall, hentries⟩, hexact, hsingle, hexisting⟩ := foldlM_visitObject hfold
  simp only [nil_append, Option.or_none] at hentries hexact hsingle
  subst hexact
  cases hx : exactObject root objects with
  | none =>
    rw [hx] at htake
    cases htake
    have hcontents : cursor.contents root = below root objects := by
      have hne : ∀ object ∈ objects, object.path ≠ root := by simpa [exactObject] using hx
      rw [Cursor.contents, hobjects, below, filter_eq_self.mpr (by simpa using hne)]
      simp [hx]
    refine ⟨objects, entries, hobjects, hcontents ▸ hall, ?_, ?_, hexisting⟩
    · simp [Listing.sort, hentries]
    · simp [Listing.sort, hsingle, hx]
  | some object =>
    rw [hx] at htake
    obtain ⟨hshape, hone⟩ := takeExact_some htake
    rw [Listing.shape, Prod.mk.injEq] at hshape
    have hcontents : cursor.contents root = [(LogicalPath.fileName root, object)] := by
      simp [Cursor.contents, hobjects, hx]
    refine ⟨objects, listing'.entries, hobjects, hcontents ▸ hone, rfl, ?_, ?_⟩
    · simp [Listing.sort, hshape.2, hx]
    · rcases hexisting with hexisting | hnil
      · exact Or.inl (hshape.1.trans hexisting)
      · exact Or.inr hnil

theorem mem_keys_walkRemote {kind : Kind} (h : walkRemote o root cursor = .ok l) :
    (path, kind) ∈ l.keys ↔ kind = .file ∧ ∃ object, (path, object) ∈ cursor.contents root ∧
      accepts o path object.size object.modifiedUnix = true := by
  obtain ⟨-, entries, -, hall, hentries, -⟩ := walkRemote_eq_ok h
  simp only [Listing.mem_keys, hentries, mem_mergeSort]
  constructor
  · rintro ⟨entry, hmem, rfl, rfl⟩
    obtain ⟨x, hx, hdesc⟩ := forall₂_exists_left hall hmem
    obtain ⟨hin, hacc⟩ := mem_filter.mp hx
    obtain ⟨hpath, hkind, -⟩ := hdesc.eq
    exact ⟨hkind, x.2, hpath ▸ hin, hpath ▸ hacc⟩
  · rintro ⟨rfl, object, hin, hacc⟩
    obtain ⟨entry, hmem, hdesc⟩ := forall₂_exists_right hall (mem_filter.mpr ⟨hin, hacc⟩)
    exact ⟨entry, hmem, hdesc.eq.1, hdesc.eq.2.1⟩

variable {lr : LocalRoot}

theorem mem_keys_walkLocal (h : walkLocal nfc o lr = .ok l) :
    key ∈ l.keys ↔ ∃ dir node, lr.tree nfc = some (dir, node) ∧ Listed nfc o dir node key := by
  rw [walkLocal] at h
  rw [LocalRoot.tree]
  cases hnode : lr.node.bind Node.resolved with
  | none =>
    rw [hnode] at h
    cases h
    simp [Listing.keys]
  | some node =>
    rw [hnode] at h
    cases node with
    | file len modified digest =>
      cases hname : lr.name.map (toLogicalComponent nfc) with
      | none =>
        simp only [hname] at h
        cases h
        simp [Listing.keys]
      | some name =>
        cases name with
        | error e =>
          simp only [hname] at h
          cases h
          simp [Listing.keys]
        | ok name =>
          simp only [hname] at h
          obtain ⟨path, kind⟩ := key
          by_cases hacc : o.acceptsFile name len (localModified modified) = true
          · simp only [hacc, if_true] at h
            obtain ⟨entry, hentry, h⟩ := bind_eq_ok.mp h
            cases h
            obtain ⟨hpath, hkind, -⟩ := Listing.fileEntry_eq_ok hentry
            have hkeys : (path, kind) ∈ (⟨[entry], true, true, [], [], 0, []⟩ : Listing).keys ↔
                path = name ∧ kind = .file := by
              simp [Listing.keys, hpath, hkind]
            rw [hkeys]
            cases kind
            · simp [listed_of_not_dir, Keeps]
              rintro rfl
              exact hacc
            · simp [listed_of_not_dir, Keeps]
          · simp only [hacc] at h
            cases h
            cases kind <;> simp [Listing.keys, listed_of_not_dir, Keeps, hacc]
    | dir children =>
      obtain ⟨listing, hwalk, h⟩ := bind_eq_ok.mp h
      cases h
      rw [Listing.mem_keys_sort, keys_walkLoop hwalk]
      simp [Waits, Listing.keys]
    | unlistable error =>
      obtain ⟨listing, hwalk, -⟩ := bind_eq_ok.mp h
      rw [walkLoop] at hwalk
      cases hwalk
    | special =>
      cases h
      simp [Listing.keys, listed_of_not_dir, Keeps]
    | link target inside cycle =>
      cases h
      simp [Listing.keys, listed_of_not_dir, Keeps]

/-- The endpoint's listing names the path. -/
def Endpoint.Lists (nfc : String → String) (o : ListOptions) (endpoint : Endpoint) (path : String) :
    Prop :=
  ∃ size modified, endpoint.FileAt nfc o.links (Walked o) path size modified ∧
    o.filter.admitsEnumerated ⟨path, size, modified, false⟩ = true

section

variable {endpoint : Endpoint} (h : Listing.enumerate nfc o endpoint = .ok l)
include h

theorem file_mem_keys : (path, .file) ∈ l.keys ↔ endpoint.Lists nfc o path := by
  cases endpoint with
  | «local» lr =>
    rw [mem_keys_walkLocal h]
    constructor
    · rintro ⟨dir, node, htree, found, hat, hkept⟩
      cases found with
      | file len time digest =>
        exact ⟨_, _, ⟨dir, node, len, time, digest, htree, hat, rfl, rfl⟩, hkept⟩
      | dir children => cases children <;> exact hkept.elim
      | unlistable error => exact hkept.elim
      | special => exact hkept.elim
      | link target inside cycle => exact hkept.elim
    · rintro ⟨_, _, ⟨dir, node, len, time, digest, htree, hat, rfl, rfl⟩, hadm⟩
      exact ⟨dir, node, htree, _, hat, hadm⟩
  | named root cursor =>
    rw [mem_keys_walkRemote h]
    constructor
    · rintro ⟨-, object, hmem, hacc⟩
      exact ⟨_, _, ⟨object, hmem, rfl, rfl⟩, accepts_eq ▸ hacc⟩
    · rintro ⟨_, _, ⟨object, hmem, rfl, rfl⟩, hadm⟩
      exact ⟨rfl, object, hmem, accepts_eq ▸ hadm⟩

theorem emptyDir_mem_keys :
    (path, .emptyDir) ∈ l.keys ↔ endpoint.EmptyDirAt nfc o.links (Walked o) path ∧
      path ≠ "" ∧ o.includeEmptyDirs = true ∧ o.acceptsDir path = true := by
  cases endpoint with
  | «local» lr =>
    rw [mem_keys_walkLocal h]
    constructor
    · rintro ⟨dir, node, htree, found, hat, hkept⟩
      cases found with
      | dir children =>
        cases children with
        | nil => exact ⟨⟨dir, node, htree, hat⟩, hkept⟩
        | cons child rest => exact hkept.elim
      | file len time digest => exact hkept.elim
      | unlistable error => exact hkept.elim
      | special => exact hkept.elim
      | link target inside cycle => exact hkept.elim
    · rintro ⟨⟨dir, node, htree, hat⟩, hkept⟩
      exact ⟨dir, node, htree, _, hat, hkept⟩
  | named root cursor =>
    rw [mem_keys_walkRemote h]
    constructor
    · rintro ⟨hkind, -⟩
      cases hkind
    · rintro ⟨hempty, -⟩
      exact hempty.elim

end

/-! ### The shape of a side -/

/-- The endpoint is a single file. -/
def Endpoint.IsSingle : Endpoint → Prop
  | .local root => ∃ len modified digest, root.node.bind Node.resolved =
    some (.file len modified digest)
  | .named root cursor => ∃ objects object, cursor.objects = .ok objects ∧
    exactObject root objects = some object

structure Listing.Grows (l l' : Listing) : Prop where
  shape : l'.shape = l.shape
  entries : ∀ e ∈ l'.entries, e ∈ l.entries ∨ e.objectMissing = false

theorem Listing.Grows.refl (l : Listing) : l.Grows l := ⟨rfl, fun _ he => Or.inl he⟩

theorem Listing.Grows.trans {l₁ l₂ l₃ : Listing} (h : l₁.Grows l₂) (h' : l₂.Grows l₃) :
    l₁.Grows l₃ := by
  refine ⟨h'.shape.trans h.shape, fun e he => ?_⟩
  rcases h'.entries e he with he | he
  · exact h.entries e he
  · exact Or.inr he

theorem grows_settle (h : settle o native path listing stack node = .ok state) :
    listing.Grows state.1 := by
  cases node with
  | file len modified digest =>
    rw [settle] at h
    split at h
    · obtain ⟨entry, hentry, h⟩ := bind_eq_ok.mp h
      cases h
      refine ⟨rfl, fun e he => ?_⟩
      rcases mem_append.mp he with he | he
      · exact Or.inl he
      · rw [mem_singleton.mp he]
        exact Or.inr (Listing.fileEntry_eq_ok hentry).2.2
    · cases h
      exact .refl _
  | dir children => cases h; exact .refl _
  | unlistable error => cases h; exact .refl _
  | special => cases h; exact ⟨rfl, fun _ he => Or.inl he⟩
  | link target inside cycle => cases h; exact ⟨rfl, fun _ he => Or.inl he⟩

theorem grows_visitChild (h : visitChild nfc o native dir (listing, stack) child = .ok state) :
    listing.Grows state.1 := by
  rcases visitChild_cases h with ⟨name, node, links, -, -, -, hset⟩ | ⟨-, links, skipped, rfl⟩
  · have hgrows := grows_settle hset
    exact ⟨hgrows.shape, hgrows.entries⟩
  · exact ⟨rfl, fun _ he => Or.inl he⟩

theorem grows_foldlM
    (h : children.foldlM (visitChild nfc o native dir) (listing, stack) = .ok state) :
    listing.Grows state.1 := by
  induction children generalizing listing stack with
  | nil =>
    cases h
    exact .refl _
  | cons child rest ih =>
    rw [foldlM_cons] at h
    obtain ⟨⟨listing', stack'⟩, hvisit, hrest⟩ := bind_eq_ok.mp h
    exact (grows_visitChild hvisit).trans (ih hrest)

theorem grows_closeDir : listing.Grows (closeDir o dir children listing) := by
  rw [closeDir]
  split
  · refine ⟨rfl, fun e he => ?_⟩
    rcases mem_append.mp he with he | he
    · exact Or.inl he
    · rw [mem_singleton.mp he]
      exact Or.inr rfl
  · exact .refl _

theorem grows_walkLoop (h : walkLoop nfc o listing stack = .ok l) : listing.Grows l := by
  induction listing, stack using walkLoop.induct nfc o with
  | case1 listing =>
    rw [walkLoop] at h
    cases h
    exact .refl _
  | case2 listing native dir stack error =>
    rw [walkLoop] at h
    cases h
  | case3 listing native dir children stack error hfold =>
    rw [walkLoop, hfold] at h
    cases h
  | case4 listing native dir children stack listing' stack' hfold ih =>
    rw [walkLoop, hfold] at h
    exact ((grows_foldlM hfold).trans grows_closeDir).trans (ih h)

theorem walkLocal_eq_ok (h : walkLocal nfc o lr = .ok l) :
    (l.isSingleFile = true ↔ (Endpoint.local lr).IsSingle) ∧
      (l.existing = false → l.entries = []) ∧ ∀ e ∈ l.entries, e.objectMissing = false := by
  rw [walkLocal] at h
  rw [Endpoint.IsSingle]
  cases hnode : lr.node.bind Node.resolved with
  | none =>
    rw [hnode] at h
    cases h
    simp
  | some node =>
    rw [hnode] at h
    cases node with
    | file len modified digest =>
      have hgrows : ({ existing := true, isSingleFile := true } : Listing).Grows l := by
        simp only at h
        split at h
        · split at h
          · obtain ⟨entry, hentry, h⟩ := bind_eq_ok.mp h
            cases h
            refine ⟨rfl, fun e he => ?_⟩
            rw [mem_singleton.mp he]
            exact Or.inr (Listing.fileEntry_eq_ok hentry).2.2
          · cases h
            exact .refl _
        · cases h
          exact ⟨rfl, fun _ he => Or.inl he⟩
      have hshape : l.shape = (true, true) := hgrows.shape
      rw [Listing.shape, Prod.mk.injEq] at hshape
      refine ⟨by simp [hshape], by simp [hshape], fun e he => ?_⟩
      exact (hgrows.entries e he).resolve_left not_mem_nil
    | dir children =>
      obtain ⟨listing, hwalk, h⟩ := bind_eq_ok.mp h
      cases h
      have hgrows := grows_walkLoop hwalk
      have hshape : listing.shape = (true, false) := hgrows.shape
      rw [Listing.shape, Prod.mk.injEq] at hshape
      refine ⟨by simp [Listing.sort, hshape], by simp [Listing.sort, hshape], fun e he => ?_⟩
      exact (hgrows.entries e (mem_mergeSort.mp he)).resolve_left not_mem_nil
    | unlistable error =>
      obtain ⟨listing, hwalk, -⟩ := bind_eq_ok.mp h
      rw [walkLoop] at hwalk
      cases hwalk
    | special =>
      cases h
      simp
    | link target inside cycle =>
      cases h
      simp

theorem shape_enumerate {endpoint : Endpoint} (h : Listing.enumerate nfc o endpoint = .ok l) :
    (l.isSingleFile = true ↔ endpoint.IsSingle) ∧ (l.existing = false → l.entries = []) := by
  cases endpoint with
  | «local» lr =>
    obtain ⟨hsingle, hexisting, -⟩ := walkLocal_eq_ok h
    exact ⟨hsingle, hexisting⟩
  | named root cursor =>
    obtain ⟨objects, entries, hobjects, hall, hentries, hsingle, hexisting⟩ :=
      walkRemote_eq_ok (show walkRemote o root cursor = .ok l from h)
    constructor
    · rw [hsingle]
      constructor
      · rintro ⟨object, hobject⟩
        exact ⟨objects, object, hobjects, hobject⟩
      · rintro ⟨objects', object, hobjects', hobject⟩
        rw [hobjects] at hobjects'
        cases hobjects'
        exact ⟨object, hobject⟩
    · intro hmissing
      rcases hexisting with hexisting | rfl
      · rw [hmissing] at hexisting
        cases hexisting
      · have hnone : cursor.contents root = [] := by
          simp [Cursor.contents, hobjects, exactObject]
        rw [hnone] at hall
        cases hall
        simp [hentries]

/-! ### The directories on the way -/

/-- The names whose metadata can be read. -/
def Readable (_ : String) (readable : Bool) (_ : Node) : Prop := readable = true

/-- NFC makes a component of a component. -/
def KeepsComponents (nfc : String → String) : Prop :=
  ∀ s, LogicalPath.Component s → LogicalPath.Component (nfc s)

theorem component_of_toLogicalComponent (hnfc : KeepsComponents nfc) {name : OsName}
    {component : String} (h : toLogicalComponent nfc name = .ok component) :
    LogicalPath.Component component := by
  obtain ⟨text, hne⟩ := name
  rw [toLogicalComponent] at h
  cases text with
  | none => cases h
  | some text =>
    simp only at h
    split at h
    · cases h
    · rename_i hfind
      have hcomp : LogicalPath.Component text := by
        refine ⟨fun he => hne (congrArg some he), fun hsep => ?_⟩
        exact List.find?_eq_none.mp hfind pathSeparator hsep (by decide)
      cases h
      rw [normalizeUnicode]
      split
      · exact hcomp
      · exact hnfc text hcomp

theorem NodeAt.walked (hnfc : KeepsComponents nfc) {node found : Node}
    (h : NodeAt nfc o.links Readable dir node path found)
    (hreach : path ≠ "" → Filter.Reached o.filter path) (henters : o.enters path found = true) :
    (dir ≠ "" → Filter.Reached o.filter dir) ∧ o.enters dir node = true ∧
      NodeAt nfc o.links (Walked o) dir node path found := by
  induction h with
  | here => exact ⟨hreach, henters, .here⟩
  | @under dir name path children child node found hchild hname hfound hpass _ ih =>
    obtain ⟨hjoin, hnode, hat⟩ := ih hreach henters
    have hcomp := component_of_toLogicalComponent hnfc hname
    let component : Filter.Name := ⟨name, hcomp⟩
    have hreached : Filter.Reached o.filter (LogicalPath.join dir component) :=
      hjoin (LogicalPath.join_ne_empty hcomp)
    have hparent := Filter.reached_join.mp hreached
    exact ⟨hparent.1, hparent.2, .under hchild hname hfound ⟨hpass, hnode⟩ hat⟩

theorem NodeAt.readable {found : Node} (h : NodeAt nfc o.links (Walked o) dir node path found) :
    NodeAt nfc o.links Readable dir node path found := h.mono fun _ _ _ hp => hp.1

theorem LocalRoot.tree_file (h : lr.tree nfc = some (dir, node)) :
    dir = "" ∨ ∃ len time digest, node = .file len time digest := by
  rw [LocalRoot.tree] at h
  split at h
  · cases h
  · split at h
    · cases h
      exact Or.inr ⟨_, _, _, rfl⟩
    · cases h
  · cases h
    exact Or.inl rfl

theorem Endpoint.fileAt_walked (hnfc : KeepsComponents nfc) {endpoint : Endpoint}
    (hreach : Filter.Reached o.filter path) :
    endpoint.FileAt nfc o.links (Walked o) path size modified ↔
      endpoint.FileAt nfc o.links Readable path size modified := by
  cases endpoint with
  | named root cursor => exact Iff.rfl
  | «local» lr =>
    constructor
    · rintro ⟨dir, node, len, time, digest, htree, hat, rfl, rfl⟩
      exact ⟨dir, node, len, time, digest, htree, hat.readable, rfl, rfl⟩
    · rintro ⟨dir, node, len, time, digest, htree, hat, rfl, rfl⟩
      exact ⟨dir, node, len, time, digest, htree, (hat.walked hnfc (fun _ => hreach) rfl).2.2,
        rfl, rfl⟩

theorem Endpoint.emptyDirAt_walked (hnfc : KeepsComponents nfc) {endpoint : Endpoint}
    (hreach : Filter.Reached o.filter path) (hpath : path ≠ "") :
    endpoint.EmptyDirAt nfc o.links (Walked o) path ↔
      endpoint.EmptyDirAt nfc o.links Readable path ∧ o.mayDescend path = true := by
  cases endpoint with
  | named root cursor => simp [EmptyDirAt]
  | «local» lr =>
    constructor
    · rintro ⟨dir, node, htree, hat⟩
      refine ⟨⟨dir, node, htree, hat.readable⟩, ?_⟩
      rcases hat.last with ⟨rfl, rfl⟩ | ⟨_, hpass⟩
      · rcases LocalRoot.tree_file htree with hdir | ⟨_, _, _, hfile⟩
        · exact absurd hdir hpath
        · cases hfile
      · exact hpass.2
    · rintro ⟨⟨dir, node, htree, hat⟩, hdescend⟩
      exact ⟨dir, node, htree, (hat.walked hnfc (fun _ => hreach) hdescend).2.2⟩

/-! ### What a filter that admits a path lets be read there -/

/-- A regular file stands at this path of a side, whatever its metadata calls say. -/
def Endpoint.Holds (nfc : String → String) (links : LinkPolicy) (endpoint : Endpoint)
    (path : String) : Prop :=
  ∃ size modified, endpoint.FileAt nfc links (fun _ _ _ => True) path size modified

/-- The enumeration of a side can read a file at this path, of a size and an age inside the
windows. -/
def Endpoint.ReadsInWindows (nfc : String → String) (o : ListOptions) (endpoint : Endpoint)
    (path : String) : Prop :=
  ∃ size modified, endpoint.FileAt nfc o.links Readable path size modified ∧
    o.filter.inWindows ⟨path, size, modified, false⟩ = true

/-- The enumeration of a side can read an empty directory at this path, which it was asked for and
may enter. -/
def Endpoint.ReadsEmptyDir (nfc : String → String) (o : ListOptions) (endpoint : Endpoint)
    (path : String) : Prop :=
  path ≠ "" ∧ endpoint.EmptyDirAt nfc o.links Readable path ∧ o.includeEmptyDirs = true ∧
    o.acceptsDir path = true ∧ o.mayDescend path = true

variable {endpoint src : Endpoint} {s : Listing} {display : String}

section

variable (hnfc : KeepsComponents nfc) (h : Listing.enumerate nfc o endpoint = .ok l)
include hnfc h

theorem file_mem_keys_of_admits {modified : Option Int}
    (hadm : o.filter.admitsEnumerated ⟨path, size, modified, false⟩ = true) :
    (path, .file) ∈ l.keys ↔ endpoint.ReadsInWindows nfc o path := by
  obtain ⟨hadmits, hreach⟩ := Filter.admitsEnumerated_iff.mp hadm
  rw [file_mem_keys h]
  constructor
  · rintro ⟨size', modified', hat, hadm'⟩
    refine ⟨size', modified', (Endpoint.fileAt_walked hnfc hreach).mp hat, ?_⟩
    exact (Filter.FilterSet.admits_iff_inWindows hadmits).mp
      (Filter.admitsEnumerated_iff.mp hadm').1
  · rintro ⟨size', modified', hat, hwindows⟩
    refine ⟨size', modified', (Endpoint.fileAt_walked hnfc hreach).mpr hat, ?_⟩
    exact Filter.admitsEnumerated_iff.mpr
      ⟨(Filter.FilterSet.admits_iff_inWindows hadmits).mpr hwindows, hreach⟩

theorem emptyDir_mem_keys_of_reached (hreach : Filter.Reached o.filter path) :
    (path, .emptyDir) ∈ l.keys ↔ endpoint.ReadsEmptyDir nfc o path := by
  rw [emptyDir_mem_keys h]
  constructor
  · rintro ⟨hempty, hpath, hinclude, haccept⟩
    obtain ⟨hread, hdescend⟩ := (Endpoint.emptyDirAt_walked hnfc hreach hpath).mp hempty
    exact ⟨hpath, hread, hinclude, haccept, hdescend⟩
  · rintro ⟨hpath, hread, hinclude, haccept, hdescend⟩
    exact ⟨(Endpoint.emptyDirAt_walked hnfc hreach hpath).mpr ⟨hread, hdescend⟩, hpath, hinclude,
      haccept⟩

end

theorem enumerate_of_source (h : Listing.source nfc o display src = .ok s) :
    Listing.enumerate nfc o src = .ok s := by
  obtain ⟨listing, hlist, h⟩ := bind_eq_ok.mp h
  cases he : listing.existing
  · simp [he] at h
  · simp only [he] at h
    obtain ⟨-, -, h⟩ := bind_eq_ok.mp h
    cases h
    exact hlist

theorem exists_path_iff_keys : (∃ item ∈ l.entries, item.path = path) ↔
    (path, .file) ∈ l.keys ∨ (path, .emptyDir) ∈ l.keys := by
  simp only [Listing.mem_keys]
  constructor
  · rintro ⟨item, hmem, hpath⟩
    cases hkind : item.kind
    · exact Or.inl ⟨item, hmem, hpath, hkind⟩
    · exact Or.inr ⟨item, hmem, hpath, hkind⟩
  · rintro (⟨item, hmem, hpath, -⟩ | ⟨item, hmem, hpath, -⟩)
    · exact ⟨item, hmem, hpath⟩
    · exact ⟨item, hmem, hpath⟩

/-! ### A directory that holds one file -/

def lone (len : Nat) (readable : Bool) : Child :=
  (⟨some "a", by decide⟩, readable, .file len none (.ok ""))

def holding (child : Child) : Endpoint := .local ⟨"root", none, some (.dir [child])⟩

def noLarger (max : Option Nat) : ListOptions :=
  ⟨{ Filter.FilterSet.everything with sizes := ⟨none, max⟩ }, false, false, .skip⟩

def loneListing (len : Nat) : Listing :=
  { existing := true, entries := [Entry.ofFile "a" len], observed := [("a", ["root", "a"])] }

theorem enumerate_holding
    (hvisit : [child].foldlM (visitChild id o ["root"] "") ({ existing := true }, []) =
      .ok (listing, []))
    (hlen : listing.entries.length ≤ 1) : Listing.enumerate id o (holding child) = .ok listing := by
  have hwalk : walkLoop id o { existing := true } [⟨["root"], "", .ok [child]⟩] = .ok listing := by
    rw [walkLoop, hvisit]
    simp [closeDir, walkLoop]
  have hsort : listing.sort = listing := by
    obtain ⟨entries, _, _, _, _, _, _⟩ := listing
    cases entries with
    | nil => simp [Listing.sort]
    | cons entry rest =>
      have hrest : rest = [] := by simpa using hlen
      subst hrest
      simp [Listing.sort]
  show walkLocal id o ⟨"root", none, some (.dir [child])⟩ = _
  simp only [walkLocal, Option.bind_some, Node.resolved]
  rw [hwalk]
  show Except.ok listing.sort = _
  rw [hsort]

theorem source_of_enumerate (h : Listing.enumerate nfc o endpoint = .ok listing)
    (hexisting : listing.existing = true) (hcollisions : listing.collisions = []) :
    Listing.source nfc o display endpoint = .ok listing := by
  rw [Listing.source, h]
  simp [bind, Except.bind, hexisting, hcollisions, Collision.refuse, pure, Except.pure]

theorem collisions_loneListing (len : Nat) : (loneListing len).collisions = [] := by
  simp [Listing.collisions, loneListing, isAscii]

theorem holds_lone (len : Nat) (readable : Bool) :
    (holding (lone len readable)).Holds id .skip "a" :=
  ⟨_, _, "", _, len, none, .ok "", rfl,
    .under (mem_singleton.mpr rfl) rfl rfl trivial .here, rfl, rfl⟩

end Dctl.Transfer
