import Mathlib.Data.List.Sort
import Mathlib.Data.List.Lex
import Mathlib.Data.Char
import Dctl.ProofKit.Pairing
import Mathlib.Algebra.Group.Action.Defs
import Mathlib.Algebra.Order.BigOperators.Group.List
import Mathlib.Algebra.Order.Ring.Nat

/-! The tree that `dctl tree` draws (`tree/node.rs`): nodes in one vector, built from paths and
drawn from a stack. The texts are sequences of characters, and the indent is cut back by their
number.  The drawing depends on which paths the tree has and not on where its nodes are; so a
listing without a conflict is drawn the same in whatever order its entries arrive. -/

namespace Dctl.Listing.Drawing

open ProofKit List

abbrev Text := List Char

structure Node where
  name : Text
  isDir : Bool
  size : Option Nat
  children : List Nat
  deriving DecidableEq, Repr

structure Counts where
  directories : Nat
  files : Nat
  deriving DecidableEq, Repr

inductive Step where
  | draw (node : Nat) (last : Bool)
  | unwind (length : Nat)
  deriving DecidableEq, Repr

structure Glyphs where
  branch : Text
  lastBranch : Text
  vertical : Text
  indent : Text

def Glyphs.ascii : Glyphs := ⟨"|-- ".toList, "`-- ".toList, "|   ".toList, "    ".toList⟩

def Glyphs.unicode : Glyphs := ⟨"├── ".toList, "└── ".toList, "│   ".toList, "    ".toList⟩

def Glyphs.connector (g : Glyphs) (last : Bool) : Text := if last then g.lastBranch else g.branch

def Glyphs.continuation (g : Glyphs) (last : Bool) : Text := if last then g.indent else g.vertical

/-- How the palette of a run paints each kind of text. -/
structure Palette where
  directory : Text → Text
  path : Text → Text
  chrome : Text → Text

def Palette.plain : Palette := ⟨id, id, id⟩

structure Tree where
  nodes : List Node
  level : Option Nat
  deriving DecidableEq, Repr

def Tree.new (label : Text) (level : Option Nat) : Tree := ⟨[⟨label, true, some 0, []⟩], level⟩

def maxTotal : Nat := 2 ^ 64 - 1

def saturatingAdd (total added : Option Nat) : Option Nat :=
  total.bind fun total => added.map fun added => min (total + added) maxTotal

def Tree.addSize (t : Tree) (node : Nat) (size : Option Nat) : Tree :=
  { t with nodes := t.nodes.modify node fun n => { n with size := saturatingAdd n.size size } }

def Tree.hasName (t : Tree) (name : Text) (index : Nat) : Bool :=
  t.nodes[index]?.any fun n => n.name = name

def Tree.push (t : Tree) (parent : Nat) (node : Node) : Tree :=
  let linked := fun n : Node => { n with children := n.children ++ [t.nodes.length] }
  { t with nodes := (t.nodes ++ [node]).modify parent linked }

def Tree.child (t : Tree) (parent : Nat) (name : Text) (isDir : Bool) : Tree × Nat :=
  let recent := (t.nodes[parent]?.bind fun node => node.children.getLast?).filter (t.hasName name)
  let existing := t.nodes[parent]?.bind fun node => node.children.find? (t.hasName name)
  match recent.or existing with
  | some index => (t, index)
  | none => (t.push parent ⟨name, isDir, some 0, []⟩, t.nodes.length)

/-- The components of a path that is `total` components long, from one position on. -/
def Tree.descend (size : Option Nat) (total : Nat) : List Text → Nat → Tree → Nat → Tree
  | [], _, t, _ => t
  | name :: rest, index, t, current =>
    let (t, current) := t.child current name (index + 1 < total)
    descend size total rest (index + 1) (t.addSize current size) current

def components (relative : Text) : List Text := (relative.splitOn '/').filter (· ≠ [])

def keptLength (level : Option Nat) (total : Nat) : Nat := level.elim total (min total)

def Tree.insert (t : Tree) (relative : Text) (size : Option Nat) : Tree :=
  let components := components relative
  let kept := keptLength t.level components.length
  Tree.descend size components.length (components.take kept) 0 (t.addSize 0 size) 0

def Tree.totalBytes (t : Tree) : Option Nat := t.nodes[0]?.bind Node.size

def Tree.isEmpty (t : Tree) : Bool := t.nodes[0]?.all fun root => root.children.isEmpty

def Tree.nameOf (t : Tree) (node : Nat) : Text := t.nodes[node]?.elim [] Node.name

def Tree.visibleChildren (t : Tree) (node : Nat) (dirsOnly : Bool) : List Nat :=
  match t.nodes[node]? with
  | none => []
  | some parent =>
    (parent.children.filter fun index => !dirsOnly || t.nodes[index]?.any Node.isDir).insertionSort
      fun left right => t.nameOf left ≤ t.nameOf right

def queue (stack : List Step) (children : List Nat) : List Step :=
  children.zipIdx.foldr (fun child stack => .draw child.1 (child.2 = children.length - 1) :: stack)
    stack

abbrev Emit (σ ε : Type) : Type := σ → Text → Except ε σ

def drawnName (palette : Palette) (node : Node) : Text :=
  if node.isDir then palette.directory (node.name ++ ['/']) else palette.path node.name

def Counts.count (counts : Counts) (isDir : Bool) : Counts :=
  if isDir then { counts with directories := counts.directories + 1 }
  else { counts with files := counts.files + 1 }

variable {σ ε : Type}

def Tree.walk (t : Tree) (glyphs : Glyphs) (dirsOnly : Bool) (palette : Palette) (emit : Emit σ ε) :
    Nat → List Step → Text → Counts → σ → Option (Except ε (Counts × σ))
  | _, [], _, counts, out => some (.ok (counts, out))
  | 0, _ :: _, _, _, _ => none
  | fuel + 1, .unwind length :: stack, indent, counts, out =>
    walk t glyphs dirsOnly palette emit fuel stack (indent.take length) counts out
  | fuel + 1, .draw node last :: stack, indent, counts, out =>
    match t.nodes[node]? with
    | none => walk t glyphs dirsOnly palette emit fuel stack indent counts out
    | some current =>
      match emit out (palette.chrome (indent ++ glyphs.connector last) ++
        drawnName palette current) with
      | .error e => some (.error e)
      | .ok out =>
        let children := t.visibleChildren node dirsOnly
        if children = [] then
          walk t glyphs dirsOnly palette emit fuel stack indent (counts.count current.isDir) out
        else
          walk t glyphs dirsOnly palette emit fuel (queue (.unwind indent.length :: stack) children)
            (indent ++ glyphs.continuation last) (counts.count current.isDir) out

def Tree.render (t : Tree) (glyphs : Glyphs) (dirsOnly : Bool) (palette : Palette)
    (emit : Emit σ ε) (fuel : Nat)
    (out : σ) : Option (Except ε (Counts × σ)) :=
  match t.nodes[0]? with
  | none => some (.ok (⟨0, 0⟩, out))
  | some root =>
    match emit out (palette.directory root.name) with
    | .error e => some (.error e)
    | .ok out => t.walk glyphs dirsOnly palette emit fuel
      (queue [] (t.visibleChildren 0 dirsOnly)) [] ⟨0, 0⟩ out

def build (label : Text) (level : Option Nat) (entries : List (Text × Option Nat)) : Tree :=
  entries.foldl (fun t entry => t.insert entry.1 entry.2) (Tree.new label level)

def collect : Emit (List Text) Empty := fun lines line => .ok (lines ++ [line])

def drawing (entries : List (String × Option Nat)) : Option (Except Empty (Counts × List Text)) :=
  (build ['.'] none (entries.map fun entry => (entry.1.toList, entry.2))).render .ascii false
    .plain collect 20 []

example : drawing [("a/b.txt", some 1), ("c", none)] = some (.ok (⟨1, 2⟩,
    [".", "|-- a/", "|   `-- b.txt", "`-- c"].map String.toList)) := by decide

/-! ### Where the nodes are -/

variable {t t' : Tree} {paths paths' : List (List Text)} {path : List Text} {name : Text}
  {size : Option Nat} {i j : Nat}
  {node : Node} {isDir b : Bool}

/-- The path of each node, by its position: no path twice, each below another's, and the children of
a node are those one name further. -/
structure Placed (t : Tree) (paths : List (List Text)) : Prop where
  length : paths.length = t.nodes.length
  root : paths[0]? = some []
  nodup : paths.Nodup
  closed : ∀ {path : List Text} {name : Text}, path ++ [name] ∈ paths → path ∈ paths
  name : ∀ {i : Nat} {path : List Text} {name : Text} {node : Node},
    paths[i]? = some (path ++ [name]) →
    t.nodes[i]? = some node → node.name = name
  children : ∀ {i : Nat} {path : List Text} {node : Node}, paths[i]? = some path →
    t.nodes[i]? = some node →
    node.children.Nodup ∧ ∀ j, j ∈ node.children ↔ ∃ name, paths[j]? = some (path ++ [name])

/-- A node of the tree stands at the path, drawn as a directory or as a file. -/
def Holds (t : Tree) (paths : List (List Text)) (path : List Text) (isDir : Bool) : Prop :=
  ∃ (i : Nat) (node : Node), paths[i]? = some path ∧ t.nodes[i]? = some node ∧ node.isDir = isDir

theorem placed_new (label : Text) (level : Option Nat) : Placed (Tree.new label level) [[]] := by
  have hpath : ∀ {path : List Text} {name : Text}, path ++ [name] ∉ ([[]] : List (List Text)) := by
    intro path name hmem
    exact append_ne_nil_of_right_ne_nil path (cons_ne_nil name []) (mem_singleton.mp hmem)
  have hnodes : ∀ {i : Nat} {node : Node}, (Tree.new label level).nodes[i]? = some node →
      node.children = [] := by
    intro i node hnode
    have hmem := mem_of_getElem? hnode
    rw [Tree.new, mem_singleton] at hmem
    rw [hmem]
  refine ⟨rfl, rfl, nodup_singleton _, fun hmem => absurd hmem hpath,
    fun hi _ => absurd (mem_of_getElem? hi) hpath, fun _ hnode => ?_⟩
  rw [hnodes hnode]
  refine ⟨nodup_nil, fun j => iff_of_false not_mem_nil ?_⟩
  rintro ⟨name, hj⟩
  exact hpath (mem_of_getElem? hj)

theorem Placed.index_unique (h : Placed t paths) (hi : paths[i]? = some path)
    (hj : paths[j]? = some path) : i = j := by
  obtain ⟨hlt, -⟩ := List.getElem?_eq_some_iff.mp hi
  exact (List.getElem?_inj hlt h.nodup).mp (hi.trans hj.symm)

theorem Placed.exists_node (h : Placed t paths) (hi : paths[i]? = some path) :
    ∃ node, t.nodes[i]? = some node := by
  obtain ⟨hlt, -⟩ := List.getElem?_eq_some_iff.mp hi
  exact ⟨_, List.getElem?_eq_getElem (h.length ▸ hlt)⟩

def shape (node : Node) : Text × Bool × List Nat := (node.name, node.isDir, node.children)

def SameShape (t t' : Tree) : Prop := t.nodes.map shape = t'.nodes.map shape

theorem SameShape.symm (h : SameShape t t') : SameShape t' t := Eq.symm h

theorem SameShape.getElem? (h : SameShape t t') (i : Nat) :
    t.nodes[i]?.map shape = t'.nodes[i]?.map shape := by
  rw [← List.getElem?_map, ← List.getElem?_map, h]

theorem SameShape.exists_node (h : SameShape t t') (hnode : t'.nodes[i]? = some node) :
    ∃ node', t.nodes[i]? = some node' ∧ node'.name = node.name ∧ node'.isDir = node.isDir ∧
      node'.children = node.children := by
  have hmap := h.getElem? i
  rw [hnode, Option.map_some, Option.map_eq_some_iff] at hmap
  obtain ⟨node', hnode', heq⟩ := hmap
  simp only [shape, Prod.mk.injEq] at heq
  exact ⟨node', hnode', heq⟩

theorem Placed.of_sameShape (h : Placed t paths) (hshape : SameShape t t') : Placed t' paths where
  length := by
    have hlen := congrArg List.length hshape
    rw [length_map, length_map] at hlen
    rw [h.length, hlen]
  root := h.root
  nodup := h.nodup
  closed := h.closed
  name {i path name node} hpath hnode := by
    obtain ⟨node', hnode', hname, -⟩ := hshape.exists_node hnode
    rw [← hname]
    exact h.name hpath hnode'
  children {i path node} hpath hnode := by
    obtain ⟨node', hnode', -, -, hchildren⟩ := hshape.exists_node hnode
    rw [← hchildren]
    exact h.children hpath hnode'

theorem holds_of_sameShape (hshape : SameShape t t') :
    Holds t' paths path isDir ↔ Holds t paths path isDir := by
  constructor
  · rintro ⟨i, node, hpath, hnode, rfl⟩
    obtain ⟨node', hnode', -, hdir, -⟩ := hshape.exists_node hnode
    exact ⟨i, node', hpath, hnode', hdir⟩
  · rintro ⟨i, node, hpath, hnode, rfl⟩
    obtain ⟨node', hnode', -, hdir, -⟩ := hshape.symm.exists_node hnode
    exact ⟨i, node', hpath, hnode', hdir⟩

theorem sameShape_addSize (t : Tree) (i : Nat) (size : Option Nat) :
    SameShape t (t.addSize i size) := by
  refine ext_getElem? fun k => ?_
  rw [List.getElem?_map, List.getElem?_map, Tree.addSize, List.getElem?_modify]
  cases t.nodes[k]? with
  | none => rfl
  | some node =>
    show some (shape node) = some (shape (if i = k then _ else node))
    split <;> rfl

/-! ### Children -/

theorem hasName_iff :
    t.hasName name i = true ↔ ∃ node, t.nodes[i]? = some node ∧ node.name = name := by
  rw [Tree.hasName, Option.any_eq_true]
  simp

theorem child_eq (t : Tree) (parent : Nat) (name : Text) (isDir : Bool) :
    (∃ index node, t.nodes[parent]? = some node ∧ index ∈ node.children ∧
      t.hasName name index = true ∧
        t.child parent name isDir = (t, index)) ∨
      (∀ node, t.nodes[parent]? = some node → ∀ index ∈ node.children,
        t.hasName name index = false) ∧
        t.child parent name isDir = (t.push parent ⟨name, isDir, some 0, []⟩, t.nodes.length) := by
  unfold Tree.child
  dsimp only
  split
  next index hfound =>
    left
    rcases Option.or_eq_some_iff.mp hfound with hrecent | ⟨-, hexisting⟩
    · obtain ⟨hlast, hname⟩ := Option.filter_eq_some_iff.mp hrecent
      obtain ⟨node, hnode, hlast⟩ := Option.bind_eq_some_iff.mp hlast
      exact ⟨index, node, hnode, mem_of_getLast? hlast, hname, rfl⟩
    · obtain ⟨node, hnode, hfind⟩ := Option.bind_eq_some_iff.mp hexisting
      exact ⟨index, node, hnode, mem_of_find?_eq_some hfind, List.find?_some hfind, rfl⟩
  next hnone =>
    right
    refine ⟨fun node hnode index hindex => ?_, rfl⟩
    have hexisting := (Option.or_eq_none_iff.mp hnone).2
    rw [hnode, Option.bind_some, List.find?_eq_none] at hexisting
    exact Bool.eq_false_iff.mpr (hexisting index hindex)

variable {parent : Nat} {fresh : Node}

theorem getElem?_push {x : Node} (hnode : t.nodes[parent]? = some node) :
    (t.push parent fresh).nodes[i]? = some x ↔ i = parent ∧
      x = { node with children := node.children ++ [t.nodes.length] } ∨
      i ≠ parent ∧ t.nodes[i]? = some x ∨ i = t.nodes.length ∧ x = fresh := by
  have hlt : parent < t.nodes.length := (List.getElem?_eq_some_iff.mp hnode).1
  rw [Tree.push]
  dsimp only
  rw [List.getElem?_modify, Option.map_eq_map]
  by_cases hi : parent = i
  · subst hi
    rw [List.getElem?_append_left hlt, hnode, Option.map_some, if_pos rfl, Option.some.injEq]
    constructor
    · rintro rfl
      exact .inl ⟨rfl, rfl⟩
    · rintro (⟨-, rfl⟩ | ⟨hne, -⟩ | ⟨heq, -⟩)
      · rfl
      · exact absurd rfl hne
      · omega
  · simp only [if_neg hi, Option.map_id']
    rw [getElem?_append_singleton]
    constructor
    · rintro (h | ⟨rfl, rfl⟩)
      · exact .inr (.inl ⟨fun heq => hi heq.symm, h⟩)
      · exact .inr (.inr ⟨rfl, rfl⟩)
    · rintro (⟨rfl, -⟩ | ⟨-, h⟩ | ⟨rfl, rfl⟩)
      · exact absurd rfl hi
      · exact .inl h
      · exact .inr ⟨rfl, rfl⟩

section

variable (h : Placed t paths) (hparent : paths[parent]? = some path)
  (hnode : t.nodes[parent]? = some node) (hfresh : path ++ [fresh.name] ∉ paths)
include h hparent hnode hfresh

theorem Placed.made (hleaf : fresh.children = []) :
    Placed (t.push parent fresh) (paths ++ [path ++ [fresh.name]]) := by
  have hlt : parent < t.nodes.length := (List.getElem?_eq_some_iff.mp hnode).1
  have hzero : 0 < paths.length := (List.getElem?_eq_some_iff.mp h.root).1
  have hin : ∀ {i : Nat} {p : List Text}, paths[i]? = some p → i ≠ t.nodes.length := by
    intro i p hi
    rw [← h.length]
    exact Nat.ne_of_lt (List.getElem?_eq_some_iff.mp hi).1
  have hold : ∀ {i : Nat} {p : List Text}, i ≠ t.nodes.length →
      ((paths ++ [path ++ [fresh.name]])[i]? = some p ↔
      paths[i]? = some p) := by
    intro i p hi
    rw [getElem?_append_singleton, h.length]
    exact ⟨fun hp => hp.resolve_right fun hp => hi hp.1, .inl⟩
  have hnew : ∀ {p : List Text}, (paths ++ [path ++ [fresh.name]])[t.nodes.length]? = some p →
      p = path ++ [fresh.name] := by
    intro p hp
    rw [getElem?_append_singleton] at hp
    rcases hp with hp | ⟨-, rfl⟩
    · exact absurd rfl (hin hp)
    · rfl
  refine ⟨?_, ?_, ?_, ?_, ?_, ?_⟩
  · simp [Tree.push, h.length]
  · rw [hold (by omega), h.root]
  · exact nodup_append.mpr ⟨h.nodup, nodup_singleton _, fun a ha b hb => by
      rintro rfl
      exact hfresh (mem_singleton.mp hb ▸ ha)⟩
  · intro p nm hp
    rcases mem_append.mp hp with hp | hp
    · exact mem_append_left _ (h.closed hp)
    · obtain ⟨rfl, -⟩ := append_inj' (mem_singleton.mp hp) rfl
      exact mem_append_left _ (mem_of_getElem? hparent)
  · intro i p nm x hp hx
    rcases (getElem?_push hnode).mp hx with ⟨rfl, rfl⟩ | ⟨-, hx⟩ | ⟨rfl, rfl⟩
    · have hname := h.name ((hold (Nat.ne_of_lt hlt)).mp hp) hnode
      exact hname
    · exact h.name ((hold (Nat.ne_of_lt (List.getElem?_eq_some_iff.mp hx).1)).mp hp) hx
    · obtain ⟨-, heq⟩ := append_inj' (hnew hp) rfl
      exact (singleton_inj.mp heq).symm
  · intro i p x hp hx
    rcases (getElem?_push hnode).mp hx with ⟨rfl, rfl⟩ | ⟨hi, hx⟩ | ⟨rfl, rfl⟩
    · -- The parent has one child more.
      obtain ⟨hnodup, hmem⟩ := h.children hparent hnode
      obtain rfl : path = p :=
        Option.some.inj (hparent.symm.trans ((hold (Nat.ne_of_lt hlt)).mp hp))
      refine ⟨nodup_append.mpr ⟨hnodup, nodup_singleton _, fun a ha b hb => ?_⟩, fun j => ?_⟩
      · obtain ⟨name, ha⟩ := (hmem a).mp ha
        rw [mem_singleton.mp hb]
        exact hin ha
      · rw [mem_append, mem_singleton, hmem]
        constructor
        · rintro (⟨name, hj⟩ | rfl)
          · exact ⟨name, (hold (hin hj)).mpr hj⟩
          · exact ⟨fresh.name, by rw [← h.length]; exact List.getElem?_concat_length⟩
        · rintro ⟨name, hj⟩
          rw [getElem?_append_singleton, h.length] at hj
          exact hj.imp (fun hj => ⟨name, hj⟩) And.left
    · -- Every other node has those that it had.
      have hp := (hold (Nat.ne_of_lt (List.getElem?_eq_some_iff.mp hx).1)).mp hp
      obtain ⟨hnodup, hmem⟩ := h.children hp hx
      refine ⟨hnodup, fun j => (hmem j).trans (exists_congr fun name => ?_)⟩
      rw [getElem?_append_singleton]
      refine ⟨.inl, fun hj => hj.resolve_right fun hj => hi ?_⟩
      obtain ⟨rfl, -⟩ := append_inj' hj.2 rfl
      exact h.index_unique hp hparent
    · -- The new one has none.
      rw [hleaf]
      refine ⟨nodup_nil, fun j => iff_of_false not_mem_nil ?_⟩
      rintro ⟨name, hj⟩
      rw [hnew hp, getElem?_append_singleton] at hj
      rcases hj with hj | ⟨-, heq⟩
      · exact hfresh (h.closed (mem_of_getElem? hj))
      · have hlen := congrArg List.length heq
        simp at hlen

theorem Placed.holds_push {q : List Text} :
    Holds (t.push parent fresh) (paths ++ [path ++ [fresh.name]]) q b ↔
      Holds t paths q b ∨ (¬∃ b', Holds t paths q b') ∧ q = path ++ [fresh.name] ∧
        b = fresh.isDir := by
  have hlt : parent < t.nodes.length := (List.getElem?_eq_some_iff.mp hnode).1
  have hold : ∀ {i : Nat} {p : List Text}, i < t.nodes.length →
      (paths ++ [path ++ [fresh.name]])[i]? = some p →
      paths[i]? = some p := by
    intro i p hi hp
    rw [getElem?_append_singleton, h.length] at hp
    exact hp.resolve_right fun hp => Nat.ne_of_lt hi hp.1
  constructor
  · rintro ⟨i, x, hp, hx, rfl⟩
    rcases (getElem?_push hnode).mp hx with ⟨rfl, rfl⟩ | ⟨-, hx⟩ | ⟨rfl, rfl⟩
    · exact .inl ⟨i, node, hold hlt hp, hnode, rfl⟩
    · exact .inl ⟨i, x, hold (List.getElem?_eq_some_iff.mp hx).1 hp, hx, rfl⟩
    · rw [← h.length, List.getElem?_concat_length, Option.some.injEq] at hp
      refine .inr ⟨?_, hp.symm, rfl⟩
      rintro ⟨b', i, x', hi, -⟩
      exact hfresh (hp ▸ mem_of_getElem? hi)
  · rintro (⟨i, x, hp, hx, rfl⟩ | ⟨-, rfl, rfl⟩)
    · have hp' : (paths ++ [path ++ [fresh.name]])[i]? = some q :=
        getElem?_append_singleton.mpr (.inl hp)
      by_cases hi : i = parent
      · subst hi
        obtain rfl : node = x := Option.some.inj (hnode.symm.trans hx)
        exact ⟨i, _, hp', (getElem?_push hnode).mpr (.inl ⟨rfl, rfl⟩), rfl⟩
      · exact ⟨i, x, hp', (getElem?_push hnode).mpr (.inr (.inl ⟨hi, hx⟩)), rfl⟩
    · refine ⟨t.nodes.length, fresh, ?_, (getElem?_push hnode).mpr (.inr (.inr ⟨rfl, rfl⟩)), rfl⟩
      rw [← h.length]
      exact List.getElem?_concat_length

end

/-- What two trees have in common that differ below the root only. -/
structure SameRoot (t t' : Tree) : Prop where
  level : t'.level = t.level
  label : t'.nodes[0]?.map Node.name = t.nodes[0]?.map Node.name
  total : t'.totalBytes = t.totalBytes

theorem SameRoot.trans {t'' : Tree} (h : SameRoot t t') (h' : SameRoot t' t'') : SameRoot t t'' :=
  ⟨h'.level.trans h.level, h'.label.trans h.label, h'.total.trans h.total⟩

theorem sameRoot_push {root : Node} (hroot : t.nodes[0]? = some root)
    (hnode : t.nodes[parent]? = some node) : SameRoot t (t.push parent fresh) := by
  obtain ⟨root', hroot', hname, hsize⟩ : ∃ root', (t.push parent fresh).nodes[0]? = some root' ∧
      root'.name = root.name ∧ root'.size = root.size := by
    by_cases hzero : 0 = parent
    · subst hzero
      obtain rfl : node = root := Option.some.inj (hnode.symm.trans hroot)
      exact ⟨_, (getElem?_push hnode).mpr (.inl ⟨rfl, rfl⟩), rfl, rfl⟩
    · exact ⟨root, (getElem?_push hnode).mpr (.inr (.inl ⟨hzero, hroot⟩)), rfl, rfl⟩
  refine ⟨rfl, ?_, ?_⟩
  · rw [hroot', hroot, Option.map_some, Option.map_some, hname]
  · rw [Tree.totalBytes, Tree.totalBytes, hroot', hroot, Option.bind_some, Option.bind_some, hsize]

theorem sameRoot_addSize (hne : i ≠ 0) : SameRoot t (t.addSize i size) := by
  have hzero : (t.addSize i size).nodes[0]? = t.nodes[0]? := by
    rw [Tree.addSize]
    exact List.getElem?_modify_ne _ _ hne
  exact ⟨rfl, by rw [hzero], by rw [Tree.totalBytes, hzero]; rfl⟩

theorem child_spec (h : Placed t paths) (hparent : paths[parent]? = some path) (name : Text)
    (isDir : Bool) :
    ∃ paths', Placed (t.child parent name isDir).1 paths' ∧
      paths'[(t.child parent name isDir).2]? = some (path ++ [name]) ∧
        SameRoot t (t.child parent name isDir).1 ∧
      ∀ q b, Holds (t.child parent name isDir).1 paths' q b ↔
        Holds t paths q b ∨ (¬∃ b', Holds t paths q b') ∧ q = path ++ [name] ∧ b = isDir := by
  obtain ⟨node, hnode⟩ := h.exists_node hparent
  obtain ⟨-, hmem⟩ := h.children hparent hnode
  rcases child_eq t parent name isDir with ⟨index, node', hnode', hindex, hname, heq⟩ | ⟨hnone, heq⟩
  · obtain rfl : node = node' := Option.some.inj (hnode.symm.trans hnode')
    obtain ⟨child, hchild, rfl⟩ := hasName_iff.mp hname
    obtain ⟨name', hplace⟩ := (hmem index).mp hindex
    obtain rfl := h.name hplace hchild
    rw [heq]
    refine ⟨paths, h, hplace, ⟨rfl, rfl, rfl⟩, fun q b => ⟨.inl, ?_⟩⟩
    rintro (hq | ⟨hnot, rfl, -⟩)
    · exact hq
    · exact absurd ⟨child.isDir, index, child, hplace, hchild, rfl⟩ hnot
  · have hfresh : path ++ [name] ∉ paths := by
      intro hin
      obtain ⟨k, hk⟩ := mem_iff_getElem?.mp hin
      obtain ⟨child, hchild⟩ := h.exists_node hk
      have hnamed := hnone node hnode k ((hmem k).mpr ⟨name, hk⟩)
      rw [hasName_iff.mpr ⟨child, hchild, h.name hk hchild⟩] at hnamed
      cases hnamed
    obtain ⟨root, hroot⟩ := h.exists_node h.root
    rw [heq]
    refine ⟨paths ++ [path ++ [name]], h.made hparent hnode hfresh rfl, ?_,
      sameRoot_push hroot hnode, fun q b => h.holds_push hparent hnode hfresh⟩
    rw [← h.length]
    exact List.getElem?_concat_length

/-! ### Insertion -/

/-- The entry has the path among those that it goes through, as a directory or as its end. -/
def Mentions (level : Option Nat) (relative : Text) (path : List Text) (isDir : Bool) : Prop :=
  path ≠ [] ∧ path <+: (components relative).take (keptLength level (components relative).length) ∧
    isDir = decide (path.length < (components relative).length)

/-- The walk down the names that are kept makes what is missing. -/
theorem descend_spec (size : Option Nat) (total : Nat) (rest : List Text) {current : Nat}
    (h : Placed t paths) (hcurrent : paths[current]? = some path) : ∃ paths',
      Placed (Tree.descend size total rest path.length t current) paths' ∧
      SameRoot t (Tree.descend size total rest path.length t current) ∧
      ∀ q b, Holds (Tree.descend size total rest path.length t current) paths' q b ↔
        Holds t paths q b ∨
        (¬∃ b', Holds t paths q b') ∧ (∃ more, more ≠ [] ∧ more <+: rest ∧ q = path ++ more) ∧
          b = decide (q.length < total) := by
  induction rest generalizing t paths path current with
  | nil =>
    refine ⟨paths, h, ⟨rfl, rfl, rfl⟩, fun q b => ⟨.inl, fun hq => hq.resolve_right ?_⟩⟩
    rintro ⟨-, ⟨more, hne, hmore, -⟩, -⟩
    exact hne (prefix_nil.mp hmore)
  | cons name rest ih =>
    obtain ⟨made, hmade, hplace, hroot, hholds⟩ :=
      child_spec h hcurrent name (decide (path.length + 1 < total))
    have hne : (t.child current name (decide (path.length + 1 < total))).2 ≠ 0 := by
      intro hzero
      rw [hzero, hmade.root, Option.some.injEq] at hplace
      exact append_ne_nil_of_right_ne_nil path (cons_ne_nil name []) hplace.symm
    have hshape := sameShape_addSize (t.child current name (decide (path.length + 1 < total))).1
      (t.child current name (decide (path.length + 1 < total))).2 size
    obtain ⟨paths', hplaced, hroot', hholds'⟩ := ih (hmade.of_sameShape hshape) hplace
    rw [length_append, length_singleton] at hplaced hroot' hholds'
    refine ⟨paths', hplaced, (hroot.trans (sameRoot_addSize hne)).trans hroot', fun q b => ?_⟩
    rw [Tree.descend]
    dsimp only
    simp only [hholds', holds_of_sameShape hshape, hholds]
    constructor
    · rintro ((hq | ⟨hnot, rfl, rfl⟩) | ⟨hnot, ⟨more, hmore, hprefix, rfl⟩, rfl⟩)
      · exact .inl hq
      · refine .inr ⟨hnot, ⟨[name], cons_ne_nil _ _, ?_, rfl⟩, ?_⟩
        · exact cons_prefix_cons.mpr ⟨rfl, nil_prefix⟩
        · rw [length_append, length_singleton]
      · refine .inr ⟨?_, ⟨name :: more, cons_ne_nil _ _,
          cons_prefix_cons.mpr ⟨rfl, hprefix⟩, ?_⟩, rfl⟩
        · rintro ⟨b', hb'⟩
          exact hnot ⟨b', .inl hb'⟩
        · rw [append_assoc, singleton_append]
    · rintro (hq | ⟨hnot, ⟨more, hmore, hprefix, rfl⟩, rfl⟩)
      · exact .inl (.inl hq)
      · cases more with
        | nil => exact absurd rfl hmore
        | cons first more =>
          obtain ⟨rfl, hrest⟩ := cons_prefix_cons.mp hprefix
          cases more with
          | nil =>
            refine .inl (.inr ⟨hnot, rfl, ?_⟩)
            rw [length_append, length_singleton]
          | cons second more =>
            refine .inr ⟨?_, ⟨second :: more, cons_ne_nil _ _, hrest, ?_⟩, rfl⟩
            · rintro ⟨b', hb' | ⟨-, heq, -⟩⟩
              · exact hnot ⟨b', hb'⟩
              · have hlen := congrArg List.length heq
                simp at hlen
            · rw [append_assoc, singleton_append]

theorem insert_spec (h : Placed t paths) (relative : Text) (size : Option Nat) : ∃ paths',
    Placed (t.insert relative size) paths' ∧ (t.insert relative size).level = t.level ∧
      (t.insert relative size).nodes[0]?.map Node.name = t.nodes[0]?.map Node.name ∧
      (t.insert relative size).totalBytes = saturatingAdd t.totalBytes size ∧
      ∀ q b, Holds (t.insert relative size) paths' q b ↔
        Holds t paths q b ∨ (¬∃ b', Holds t paths q b') ∧ Mentions t.level relative q b := by
  have hshape := sameShape_addSize t 0 size
  obtain ⟨root, hroot⟩ := h.exists_node h.root
  have hzero :
      (t.addSize 0 size).nodes[0]? = some { root with size := saturatingAdd root.size size } := by
    rw [Tree.addSize]
    dsimp only
    rw [List.getElem?_modify, hroot]
    rfl
  obtain ⟨paths', hplaced, hsame, hholds⟩ := descend_spec size (components relative).length
    ((components relative).take (keptLength t.level (components relative).length))
    (h.of_sameShape hshape) h.root
  refine ⟨paths', hplaced, hsame.level, ?_, ?_, fun q b => ?_⟩
  · refine hsame.label.trans ?_
    rw [hzero, hroot]
    rfl
  · refine hsame.total.trans ?_
    rw [Tree.totalBytes, Tree.totalBytes, hzero, hroot]
    rfl
  · refine (hholds q b).trans ?_
    simp only [holds_of_sameShape hshape, nil_append, Mentions]
    refine or_congr Iff.rfl (and_congr Iff.rfl ?_)
    constructor
    · rintro ⟨⟨more, hne, hprefix, rfl⟩, hb⟩
      exact ⟨hne, hprefix, hb⟩
    · rintro ⟨hne, hprefix, hb⟩
      exact ⟨⟨q, hne, hprefix, rfl⟩, hb⟩

/-! ### The tree of a listing -/

/-- One entry is above the other, at a level that is kept. -/
def Conflict (level : Option Nat) (relative relative' : Text) : Prop :=
  components relative ≠ [] ∧ components relative <+: components relative' ∧
    components relative ≠ components relative' ∧ ∀ limit ∈ level,
      (components relative).length ≤ limit

/-- No entry that is kept whole is above another one. -/
def Clear (level : Option Nat) (entries : List (Text × Option Nat)) : Prop :=
  ∀ e ∈ entries, ∀ e' ∈ entries, ¬Conflict level e.1 e'.1

variable {level : Option Nat} {entries entries' : List (Text × Option Nat)} {label : Text}

theorem Clear.mentions_unique (h : Clear level entries) {e e' : Text × Option Nat}
    (he : e ∈ entries) (he' : e' ∈ entries) {b' : Bool} (hb : Mentions level e.1 path b)
    (hb' : Mentions level e'.1 path b') : b = b' := by
  have hends : ∀ {e e' : Text × Option Nat}, e ∈ entries → e' ∈ entries →
      Mentions level e.1 path false →
      ¬Mentions level e'.1 path true := by
    rintro e e' he he' ⟨hne, hbegins, hfalse⟩ ⟨-, hbegins', htrue⟩
    have hpath : path = components e.1 := by
      have hle := of_decide_eq_false hfalse.symm
      exact (hbegins.trans (List.take_prefix _ _)).eq_of_length_le (Nat.le_of_not_lt hle)
    have hlt := of_decide_eq_true htrue.symm
    refine h e he e' he' ⟨hpath ▸ hne, hpath ▸ hbegins'.trans (List.take_prefix _ _), ?_,
      fun limit hlimit => ?_⟩
    · intro heq
      rw [← heq, ← hpath] at hlt
      exact Nat.lt_irrefl _ hlt
    · have hle := hbegins'.length_le
      rw [length_take] at hle
      rw [Option.mem_def] at hlimit
      rw [hlimit] at hle
      unfold keptLength at hle
      rw [Option.elim_some] at hle
      rw [← hpath]
      omega
  cases b with
  | false =>
    cases b' with
    | false => rfl
    | true => exact absurd hb' (hends he he' hb)
  | true =>
    cases b' with
    | false => exact absurd hb (hends he' he hb')
    | true => rfl

def total (entries : List (Text × Option Nat)) : Option Nat :=
  if ∀ e ∈ entries, e.2 ≠ none then some (min (entries.map fun e => e.2.getD 0).sum maxTotal)
  else none

theorem build_append (label : Text) (level : Option Nat) (entries : List (Text × Option Nat))
    (e : Text × Option Nat) :
    build label level (entries ++ [e]) = (build label level entries).insert e.1 e.2 := by
  rw [build, foldl_append]
  rfl

theorem total_append (entries : List (Text × Option Nat)) (e : Text × Option Nat) :
    total (entries ++ [e]) = saturatingAdd (total entries) e.2 := by
  unfold total saturatingAdd
  simp only [forall_mem_append, forall_mem_singleton, map_append, map_singleton, sum_append,
    sum_singleton]
  by_cases hall : ∀ e ∈ entries, e.2 ≠ none
  · rw [if_pos hall, Option.bind_some]
    cases hsize : e.2 with
    | none => rw [if_neg (fun h => h.2 rfl)]; rfl
    | some size =>
      rw [if_pos ⟨hall, Option.some_ne_none size⟩, Option.map_some, Option.getD_some]
      congr 1
      omega
  · rw [if_neg (fun h => hall h.1), if_neg hall]
    rfl

theorem build_root (label : Text) (level : Option Nat) (entries : List (Text × Option Nat)) :
    ∃ paths,
    Placed (build label level entries) paths ∧ (build label level entries).level = level ∧
      (build label level entries).nodes[0]?.map Node.name = some label ∧
      (build label level entries).totalBytes = total entries := by
  induction entries using List.reverseRecOn with
  | nil => exact ⟨[[]], placed_new label level, rfl, rfl, rfl⟩
  | append_singleton entries e ih =>
    obtain ⟨paths, hplaced, hlevel, hlabel, htotal⟩ := ih
    obtain ⟨paths', hplaced', hlevel', hlabel', htotal', -⟩ := insert_spec hplaced e.1 e.2
    rw [build_append]
    refine ⟨paths', hplaced', hlevel'.trans hlevel, hlabel'.trans hlabel, ?_⟩
    rw [htotal', htotal, total_append]

theorem build_spec (label : Text) (hclear : Clear level entries) :
    ∃ paths, Placed (build label level entries) paths ∧
    ∀ q b, Holds (build label level entries) paths q b ↔
      q = [] ∧ b = true ∨ ∃ e ∈ entries, Mentions level e.1 q b := by
  induction entries using List.reverseRecOn with
  | nil =>
    refine ⟨[[]], placed_new label level, fun q b => ?_⟩
    constructor
    · rintro ⟨i, node, hpath, hnode, rfl⟩
      have hq := mem_singleton.mp (mem_of_getElem? hpath)
      have hroot := mem_singleton.mp (mem_of_getElem? hnode)
      exact .inl ⟨hq, by rw [hroot]⟩
    · rintro (⟨rfl, rfl⟩ | ⟨e, he, -⟩)
      · exact ⟨0, _, rfl, rfl, rfl⟩
      · cases he
  | append_singleton entries e ih =>
    have hsub : Clear level entries :=
      fun x hx y hy => hclear x (mem_append_left _ hx) y (mem_append_left _ hy)
    obtain ⟨paths, hplaced, hholds⟩ := ih hsub
    obtain ⟨paths', hplaced', -, -, -, hholds'⟩ := insert_spec hplaced e.1 e.2
    obtain ⟨-, -, hlevel, -⟩ := build_root label level entries
    rw [hlevel] at hholds'
    rw [build_append]
    refine ⟨paths', hplaced', fun q b => (hholds' q b).trans ?_⟩
    rw [hholds]
    constructor
    · rintro ((hq | ⟨x, hx, hmentions⟩) | ⟨-, hmentions⟩)
      · exact .inl hq
      · exact .inr ⟨x, mem_append_left _ hx, hmentions⟩
      · exact .inr ⟨e, mem_append_right _ (mem_singleton.mpr rfl), hmentions⟩
    · rintro (hq | ⟨x, hx, hmentions⟩)
      · exact .inl (.inl hq)
      · rcases mem_append.mp hx with hold | hnew
        · exact .inl (.inr ⟨x, hold, hmentions⟩)
        · obtain rfl := mem_singleton.mp hnew
          by_cases hthere : ∃ b', Holds (build label level entries) paths q b'
          · obtain ⟨b', hb'⟩ := hthere
            rcases (hholds q b').mp hb' with ⟨hnil, -⟩ | ⟨y, hy, hmentions'⟩
            · exact absurd hnil hmentions.1
            · obtain rfl := hclear.mentions_unique (mem_append_left _ hy) hx hmentions' hmentions
              exact .inl (.inr ⟨y, hy, hmentions'⟩)
          · exact .inr ⟨hthere, hmentions⟩

variable {t t' : Tree} {paths paths' : List (List Text)} {path : List Text} {i i' : Nat}
  {dirsOnly : Bool} {σ ε : Type}

/-! ### What is drawn below a node -/

theorem Placed.nameOf (h : Placed t paths) (hi : paths[i]? = some (path ++ [name])) :
    t.nameOf i = name := by
  obtain ⟨node, hnode⟩ := h.exists_node hi
  rw [Tree.nameOf, hnode]
  exact h.name hi hnode

theorem Placed.mem_visibleChildren (h : Placed t paths) (hi : paths[i]? = some path) {c : Nat} :
    c ∈ t.visibleChildren i dirsOnly ↔ ∃ name b, paths[c]? = some (path ++ [name]) ∧
      Holds t paths (path ++ [name]) b ∧ (dirsOnly = true → b = true) := by
  obtain ⟨node, hnode⟩ := h.exists_node hi
  obtain ⟨-, hmem⟩ := h.children hi hnode
  rw [Tree.visibleChildren, hnode]
  dsimp only
  rw [mem_insertionSort, mem_filter, hmem, Bool.or_eq_true, Option.any_eq_true]
  constructor
  · rintro ⟨⟨name, hc⟩, hdirs⟩
    obtain ⟨child, hchild⟩ := h.exists_node hc
    refine ⟨name, child.isDir, hc, ⟨c, child, hc, hchild, rfl⟩, fun htrue => ?_⟩
    rcases hdirs with hfalse | ⟨child', hchild', hdir⟩
    · rw [htrue] at hfalse
      cases hfalse
    · rwa [Option.some.inj (hchild.symm.trans hchild')]
  · rintro ⟨name, b, hc, ⟨c', child, hc', hchild, rfl⟩, hdirs⟩
    obtain rfl := h.index_unique hc hc'
    refine ⟨⟨name, hc⟩, ?_⟩
    cases dirsOnly with
    | false => exact .inl rfl
    | true => exact .inr ⟨child, hchild, hdirs rfl⟩

def names (t : Tree) (i : Nat) (dirsOnly : Bool) : List Text :=
  (t.visibleChildren i dirsOnly).map t.nameOf

theorem Placed.mem_names (h : Placed t paths) (hi : paths[i]? = some path) :
    name ∈ names t i dirsOnly ↔ ∃ b, Holds t paths (path ++ [name]) b ∧
      (dirsOnly = true → b = true) := by
  rw [names, mem_map]
  constructor
  · rintro ⟨c, hc, rfl⟩
    obtain ⟨name, b, hplace, hholds, hdirs⟩ := (h.mem_visibleChildren hi).mp hc
    rw [h.nameOf hplace]
    exact ⟨b, hholds, hdirs⟩
  · rintro ⟨b, ⟨c, child, hc, hchild, hb⟩, hdirs⟩
    exact ⟨c, (h.mem_visibleChildren hi).mpr ⟨name, b, hc, ⟨c, child, hc, hchild, hb⟩, hdirs⟩,
      h.nameOf hc⟩

theorem Placed.sorted_names (h : Placed t paths) (hi : paths[i]? = some path) :
    (names t i dirsOnly).SortedLE ∧ (names t i dirsOnly).Nodup := by
  obtain ⟨node, hnode⟩ := h.exists_node hi
  constructor
  · rw [names, Tree.visibleChildren, hnode]
    dsimp only
    rw [map_insertionSort _ (· ≤ ·) _ _ fun _ _ _ _ => Iff.rfl]
    exact sortedLE_insertionSort
  · have hnodup : (t.visibleChildren i dirsOnly).Nodup := by
      rw [Tree.visibleChildren, hnode]
      exact (perm_insertionSort _ _).nodup_iff.mpr ((h.children hi hnode).1.filter _)
    refine hnodup.map_on fun c hc d hd heq => ?_
    obtain ⟨name, -, hc, -⟩ := (h.mem_visibleChildren hi).mp hc
    obtain ⟨name', -, hd, -⟩ := (h.mem_visibleChildren hi).mp hd
    rw [h.nameOf hc, h.nameOf hd] at heq
    subst heq
    exact h.index_unique hc hd

/-! ### Two trees with the same paths -/

/-- The trees have the same paths, drawn the same way. -/
structure Alike (t t' : Tree) (paths paths' : List (List Text)) : Prop where
  placed : Placed t paths
  placed' : Placed t' paths'
  holds : ∀ path b, Holds t paths path b ↔ Holds t' paths' path b

def Beside (paths paths' : List (List Text)) (i i' : Nat) : Prop :=
  ∃ path name, paths[i]? = some (path ++ [name]) ∧ paths'[i']? = some (path ++ [name])

section

variable (h : Alike t t' paths paths')
include h

theorem Alike.names_eq (hi : paths[i]? = some path) (hi' : paths'[i']? = some path) :
    names t i dirsOnly = names t' i' dirsOnly := by
  obtain ⟨hsorted, hnodup⟩ := h.placed.sorted_names hi
  obtain ⟨hsorted', hnodup'⟩ := h.placed'.sorted_names hi'
  refine List.Perm.eq_of_sortedLE hsorted hsorted'
    ((perm_ext_iff_of_nodup hnodup hnodup').mpr fun name => ?_)
  rw [h.placed.mem_names hi, h.placed'.mem_names hi']
  simp only [h.holds]

theorem Alike.visible (dirsOnly : Bool) (hi : paths[i]? = some path)
    (hi' : paths'[i']? = some path) :
    List.Forall₂ (Beside paths paths') (t.visibleChildren i dirsOnly)
      (t'.visibleChildren i' dirsOnly) := by
  refine (forall₂_of_map_eq (h.names_eq hi hi')).imp ?_
  rintro c c' ⟨hc, hc', hname⟩
  obtain ⟨name, -, hc, -⟩ := (h.placed.mem_visibleChildren hi).mp hc
  obtain ⟨name', -, hc', -⟩ := (h.placed'.mem_visibleChildren hi').mp hc'
  rw [h.placed.nameOf hc, h.placed'.nameOf hc'] at hname
  subst hname
  exact ⟨path, name, hc, hc'⟩

theorem Alike.nodes (hbeside : Beside paths paths' i i') : ∃ node node',
    t.nodes[i]? = some node ∧ t'.nodes[i']? = some node' ∧ node.name = node'.name ∧
      node.isDir = node'.isDir := by
  obtain ⟨path, name, hi, hi'⟩ := hbeside
  obtain ⟨node, hnode⟩ := h.placed.exists_node hi
  obtain ⟨node', hnode'⟩ := h.placed'.exists_node hi'
  obtain ⟨j, other, hj, hother, hdir⟩ := (h.holds _ _).mp ⟨i, node, hi, hnode, rfl⟩
  obtain rfl := h.placed'.index_unique hi' hj
  obtain rfl : node' = other := Option.some.inj (hnode'.symm.trans hother)
  exact ⟨node, node', hnode, hnode',
    (h.placed.name hi hnode).trans (h.placed'.name hi' hnode').symm, hdir.symm⟩

end

inductive SameStep (paths paths' : List (List Text)) : Step → Step → Prop where
  | draw {i i' : Nat} (last : Bool) (h : Beside paths paths' i i') :
    SameStep paths paths' (.draw i last) (.draw i' last)
  | unwind (length : Nat) : SameStep paths paths' (.unwind length) (.unwind length)

theorem queue_eq (stack : List Step) (children : List Nat) : queue stack children =
    children.zipIdx.map (fun child => .draw child.1 (child.2 = children.length - 1)) ++ stack := by
  rw [queue, foldr_cons_eq_append]

variable {stack : List Step}

theorem sameStep_queue {stack' : List Step} {children children' : List Nat}
    (hstack : List.Forall₂ (SameStep paths paths') stack stack')
    (hchildren : List.Forall₂ (Beside paths paths') children children') :
    List.Forall₂ (SameStep paths paths') (queue stack children) (queue stack' children') := by
  have hmap : ∀ {cs cs' : List Nat} (k n : Nat), List.Forall₂ (Beside paths paths') cs cs' →
      List.Forall₂ (SameStep paths paths') ((cs.zipIdx k).map fun c => .draw c.1 (c.2 = n))
        ((cs'.zipIdx k).map fun c => .draw c.1 (c.2 = n)) := by
    intro cs cs' k n h
    induction h generalizing k with
    | nil => exact .nil
    | cons hhead _ ih => exact .cons (.draw _ hhead) (ih (k + 1))
  rw [queue_eq, queue_eq, hchildren.length_eq]
  exact rel_append (hmap 0 _ hchildren) hstack

variable {glyphs : Glyphs} {palette : Palette} {emit : Emit σ ε}

variable {counts : Counts} {fuel : Nat} {indent : Text} {out : σ}

theorem Alike.walk_eq (h : Alike t t' paths paths') {stack' : List Step}
    (hstack : List.Forall₂ (SameStep paths paths') stack stack') :
    t.walk glyphs dirsOnly palette emit fuel stack indent counts out =
      t'.walk glyphs dirsOnly palette emit fuel stack' indent counts out := by
  induction fuel generalizing stack stack' indent counts out with
  | zero =>
    cases hstack with
    | nil => rfl
    | cons => rfl
  | succ fuel ih =>
    cases hstack with
    | nil => rfl
    | cons hstep hrest =>
      cases hstep with
      | unwind length => exact ih hrest
      | draw last hbeside =>
        rename_i i i'
        obtain ⟨node, node', hnode, hnode', hname, hdir⟩ := h.nodes hbeside
        obtain ⟨path, name, hi, hi'⟩ := hbeside
        have hdrawn : drawnName palette node = drawnName palette node' := by
          rw [drawnName, drawnName, hname, hdir]
        have hvisible := h.visible dirsOnly hi hi'
        rw [Tree.walk, Tree.walk, hnode, hnode']
        dsimp only
        rw [hdrawn, hdir]
        cases emit out (palette.chrome (indent ++ glyphs.connector last) ++
          drawnName palette node') with
        | error e => rfl
        | ok out =>
          dsimp only
          have hnil : t.visibleChildren i dirsOnly = [] ↔ t'.visibleChildren i' dirsOnly = [] := by
            rw [← length_eq_zero_iff, hvisible.length_eq, length_eq_zero_iff]
          by_cases hleaf : t.visibleChildren i dirsOnly = []
          · rw [if_pos hleaf, if_pos (hnil.mp hleaf)]
            exact ih hrest
          · rw [if_neg hleaf, if_neg (fun hleaf' => hleaf (hnil.mpr hleaf'))]
            exact ih (sameStep_queue (.cons (.unwind _) hrest) hvisible)

theorem Alike.render_eq (h : Alike t t' paths paths')
    (hlabel : t.nodes[0]?.map Node.name = t'.nodes[0]?.map Node.name) (fuel : Nat) (out : σ) :
    t.render glyphs dirsOnly palette emit fuel out =
      t'.render glyphs dirsOnly palette emit fuel out := by
  obtain ⟨root, hroot⟩ := h.placed.exists_node h.placed.root
  obtain ⟨root', hroot'⟩ := h.placed'.exists_node h.placed'.root
  rw [hroot, hroot', Option.map_some, Option.map_some, Option.some.injEq] at hlabel
  rw [Tree.render, Tree.render, hroot, hroot']
  dsimp only
  rw [hlabel]
  cases emit out (palette.directory root'.name) with
  | error e => rfl
  | ok out =>
    exact h.walk_eq (sameStep_queue .nil (h.visible dirsOnly h.placed.root h.placed'.root))

/-! ### The walk ends -/

/-- How many steps are enough for a node with paths up to `height` names further below it. -/
def weight (width : Nat) : Nat → Nat
  | 0 => 1
  | height + 1 => 2 + width * weight width height

theorem weight_pos (width height : Nat) : 1 ≤ weight width height := by
  cases height with
  | zero => exact Nat.le_refl 1
  | succ height =>
    rw [weight]
    omega

def stepWeight (paths : List (List Text)) (depth width : Nat) : Step → Nat
  | .draw node _ => weight width (depth - (paths[node]?.getD []).length)
  | .unwind _ => 1

/-- Every node that waits to be drawn has a path. -/
def Pending (paths : List (List Text)) (stack : List Step) : Prop :=
  ∀ node last, .draw node last ∈ stack → ∃ path, paths[node]? = some path

theorem Pending.queue {children : List Nat} (h : Pending paths stack)
    (hchildren : ∀ c ∈ children, ∃ path, paths[c]? = some path) :
    Pending paths (queue stack children) := by
  intro node last hmem
  rw [queue_eq, mem_append, mem_map] at hmem
  rcases hmem with ⟨⟨c, k⟩, hc, heq⟩ | hmem
  · obtain ⟨rfl, -⟩ := Step.draw.inj heq
    exact hchildren c (fst_mem_of_mem_zipIdx hc)
  · exact h node last hmem

section

variable {depth width : Nat} (h : Placed t paths) (hdepth : ∀ path ∈ paths, path.length ≤ depth)
  (hwidth : ∀ node ∈ t.nodes, node.children.length ≤ width)
include h hdepth hwidth

theorem Placed.weight_visible (hi : paths[i]? = some path) (stack : List Step)
    (hne : t.visibleChildren i dirsOnly ≠ []) :
    ((queue stack (t.visibleChildren i dirsOnly)).map (stepWeight paths depth width)).sum + 2 ≤
      weight width (depth - path.length) + (stack.map (stepWeight paths depth width)).sum := by
  obtain ⟨node, hnode⟩ := h.exists_node hi
  have hlen : (t.visibleChildren i dirsOnly).length ≤ width := by
    refine Nat.le_trans ?_ (hwidth node (mem_of_getElem? hnode))
    rw [Tree.visibleChildren, hnode]
    dsimp only
    rw [length_insertionSort]
    exact length_filter_le _ _
  obtain ⟨c, hc⟩ := exists_mem_of_ne_nil _ hne
  obtain ⟨name, -, hplace, -⟩ := (h.mem_visibleChildren hi).mp hc
  have hdeep := hdepth _ (mem_of_getElem? hplace)
  rw [length_append, length_singleton] at hdeep
  obtain ⟨height, hheight⟩ : ∃ height, depth - path.length = height + 1 :=
    ⟨depth - path.length - 1, by omega⟩
  have hsum := sum_le_card_nsmul (((t.visibleChildren i dirsOnly).zipIdx.map fun child =>
    Step.draw child.1 (child.2 = (t.visibleChildren i dirsOnly).length - 1)).map
      (stepWeight paths depth width))
    (weight width height) (by
      intro w hw
      rw [map_map, mem_map] at hw
      obtain ⟨⟨d, k⟩, hd, rfl⟩ := hw
      obtain ⟨name', -, hplace', -⟩ := (h.mem_visibleChildren hi).mp (fst_mem_of_mem_zipIdx hd)
      show weight width (depth - (paths[d]?.getD []).length) ≤ weight width height
      rw [hplace', Option.getD_some, length_append, length_singleton,
        show depth - (path.length + 1) = height by omega])
  rw [length_map, length_map, length_zipIdx, smul_eq_mul] at hsum
  have hmul := Nat.mul_le_mul_right (weight width height) hlen
  rw [queue_eq, map_append, sum_append, hheight, weight]
  omega

theorem Placed.walk_isSome (hpending : Pending paths stack)
    (hfuel : (stack.map (stepWeight paths depth width)).sum ≤ fuel) :
    (t.walk glyphs dirsOnly palette emit fuel stack indent counts out).isSome = true := by
  induction fuel generalizing stack indent counts out with
  | zero =>
    cases stack with
    | nil => rfl
    | cons step stack =>
      exfalso
      rw [map_cons, sum_cons] at hfuel
      cases step with
      | draw node last =>
        have hpos := weight_pos width (depth - (paths[node]?.getD []).length)
        rw [stepWeight] at hfuel
        omega
      | unwind length =>
        rw [stepWeight] at hfuel
        omega
  | succ fuel ih =>
    cases stack with
    | nil => rfl
    | cons step stack =>
      have hrest : Pending paths stack :=
        fun node last hmem => hpending node last (mem_cons_of_mem _ hmem)
      rw [map_cons, sum_cons] at hfuel
      cases step with
      | unwind length =>
        rw [stepWeight] at hfuel
        rw [Tree.walk]
        exact ih hrest (by omega)
      | draw node last =>
        obtain ⟨path, hi⟩ := hpending node last mem_cons_self
        have hpos := weight_pos width (depth - path.length)
        rw [stepWeight, hi, Option.getD_some] at hfuel
        rw [Tree.walk]
        split
        · exact ih hrest (by omega)
        · split
          · rfl
          · dsimp only
            by_cases hleaf : t.visibleChildren node dirsOnly = []
            · rw [if_pos hleaf]
              exact ih hrest (by omega)
            · rw [if_neg hleaf]
              refine ih (Pending.queue ?_ ?_) ?_
              · intro other flag hmem
                rcases mem_cons.mp hmem with heq | hmem
                · cases heq
                · exact hrest other flag hmem
              · intro c hc
                obtain ⟨name, -, hplace, -⟩ := (h.mem_visibleChildren hi).mp hc
                exact ⟨_, hplace⟩
              · have hless :=
                  h.weight_visible hdepth hwidth hi (.unwind indent.length :: stack) hleaf
                rw [map_cons, sum_cons, stepWeight] at hless
                omega

end

theorem exists_bound {α : Type} (f : α → Nat) (l : List α) : ∃ bound, ∀ x ∈ l, f x ≤ bound :=
  ⟨(l.map f).sum, fun _ hx => single_le_sum (fun _ _ => Nat.zero_le _) _ (mem_map_of_mem hx)⟩

theorem Placed.render_isSome (h : Placed t paths) (glyphs : Glyphs) (dirsOnly : Bool)
    (palette : Palette) (emit : Emit σ ε) (out : σ) : ∃ limit, ∀ fuel, limit ≤ fuel →
      (t.render glyphs dirsOnly palette emit fuel out).isSome = true := by
  obtain ⟨depth, hdepth⟩ := exists_bound List.length paths
  obtain ⟨width, hwidth⟩ := exists_bound (fun node : Node => node.children.length) t.nodes
  refine ⟨((queue [] (t.visibleChildren 0 dirsOnly)).map (stepWeight paths depth width)).sum,
    fun fuel hfuel => ?_⟩
  rw [Tree.render]
  split
  · rfl
  · split
    · rfl
    · refine h.walk_isSome hdepth hwidth
        (Pending.queue (fun _ _ hmem => absurd hmem not_mem_nil) ?_) hfuel
      intro c hc
      obtain ⟨name, -, hplace, -⟩ := (h.mem_visibleChildren h.root).mp hc
      exact ⟨_, hplace⟩

theorem walk_mono {more : Nat} {outcome : Except ε (Counts × σ)} (hle : fuel ≤ more)
    (h : t.walk glyphs dirsOnly palette emit fuel stack indent counts out = some outcome) :
    t.walk glyphs dirsOnly palette emit more stack indent counts out = some outcome := by
  induction fuel generalizing more stack indent counts out with
  | zero =>
    cases stack with
    | nil =>
      cases more with
      | zero => exact h
      | succ more => exact h
    | cons => cases h
  | succ fuel ih =>
    obtain ⟨more, rfl⟩ : ∃ k, more = k + 1 := ⟨more - 1, by omega⟩
    have hle' : fuel ≤ more := by omega
    cases stack with
    | nil => exact h
    | cons step stack =>
      cases step with
      | unwind length =>
        rw [Tree.walk] at h ⊢
        exact ih hle' h
      | draw node last =>
        rw [Tree.walk] at h ⊢
        cases hnode : t.nodes[node]? with
        | none =>
          rw [hnode] at h
          exact ih hle' h
        | some current =>
          rw [hnode] at h
          dsimp only at h ⊢
          cases hemit : emit out (palette.chrome (indent ++ glyphs.connector last) ++
            drawnName palette current) with
          | error e =>
            rw [hemit] at h
            exact h
          | ok out =>
            rw [hemit] at h
            dsimp only at h ⊢
            by_cases hleaf : t.visibleChildren node dirsOnly = []
            · rw [if_pos hleaf] at h ⊢
              exact ih hle' h
            · rw [if_neg hleaf] at h ⊢
              exact ih hle' h

theorem render_mono {more : Nat} {outcome : Except ε (Counts × σ)} (hle : fuel ≤ more)
    (h : t.render glyphs dirsOnly palette emit fuel out = some outcome) :
    t.render glyphs dirsOnly palette emit more out = some outcome := by
  rw [Tree.render] at h ⊢
  cases hroot : t.nodes[0]? with
  | none =>
    rw [hroot] at h
    exact h
  | some root =>
    rw [hroot] at h
    dsimp only at h ⊢
    cases hemit : emit out (palette.directory root.name) with
    | error e =>
      rw [hemit] at h
      exact h
    | ok out =>
      rw [hemit] at h
      exact walk_mono hle h

/-! ### Order -/

variable {level : Option Nat} {entries entries' : List (Text × Option Nat)} {label : Text}

theorem total_perm (h : entries'.Perm entries) : total entries' = total entries := by
  unfold total
  rw [(h.map fun e => e.2.getD 0).sum_eq]
  simp only [h.mem_iff]

theorem Clear.perm (h : Clear level entries) (hperm : entries'.Perm entries) :
    Clear level entries' :=
  fun e he e' he' => h e (hperm.mem_iff.mp he) e' (hperm.mem_iff.mp he')

theorem alike_of_perm (label : Text) (hclear : Clear level entries)
    (hperm : entries'.Perm entries) :
    ∃ paths paths',
    Alike (build label level entries') (build label level entries) paths' paths := by
  obtain ⟨paths, hplaced, hholds⟩ := build_spec label hclear
  obtain ⟨paths', hplaced', hholds'⟩ := build_spec label (hclear.perm hperm)
  refine ⟨paths, paths', hplaced', hplaced, fun path b => ?_⟩
  rw [hholds, hholds']
  simp only [hperm.mem_iff]

/-- Whatever the order of the entries, the byte total is the sum of their sizes, as far as it can be
told and held; and without a conflict the drawing is one, with its counts. -/
theorem order_independent (label : Text) (level : Option Nat) (entries : List (Text × Option Nat)) :
    (∀ entries', entries'.Perm entries → (build label level entries').totalBytes = total entries) ∧
    (Clear level entries → ∀ (σ ε : Type) (glyphs : Glyphs) (dirsOnly : Bool) (palette : Palette)
      (emit : Emit σ ε)
      (out : σ), ∃ limit outcome, ∀ entries', entries'.Perm entries → ∀ fuel, limit ≤ fuel →
        (build label level entries').render glyphs dirsOnly palette emit fuel out =
          some outcome) := by
  refine ⟨fun entries' hperm => ?_, fun hclear σ ε glyphs dirsOnly palette emit out => ?_⟩
  · obtain ⟨-, -, -, -, htotal⟩ := build_root label level entries'
    rw [htotal, total_perm hperm]
  · obtain ⟨paths, hplaced, -, hlabel, -⟩ := build_root label level entries
    obtain ⟨limit, hlimit⟩ := hplaced.render_isSome glyphs dirsOnly palette emit out
    obtain ⟨outcome, houtcome⟩ := Option.isSome_iff_exists.mp (hlimit limit (Nat.le_refl _))
    refine ⟨limit, outcome, fun entries' hperm fuel hfuel => ?_⟩
    obtain ⟨paths, paths', halike⟩ := alike_of_perm label hclear hperm
    obtain ⟨-, -, -, hlabel', -⟩ := build_root label level entries'
    rw [halike.render_eq (hlabel'.trans hlabel.symm)]
    exact render_mono hfuel houtcome

def sampleEntries : List (Text × Option Nat) :=
  [("b.txt".toList, some 3), ("a/c.txt".toList, some 4), ("a/d".toList, some 5)]

theorem clear_sampleEntries : Clear none sampleEntries := by
  intro e he e' he'
  rintro ⟨-, hprefix, hne, -⟩
  revert hprefix hne
  revert e' he'
  revert e he
  decide

theorem order_independent_sampleEntries :
    (build [] none sampleEntries.reverse).totalBytes = some 12 ∧
    ∃ limit outcome, ∀ fuel, limit ≤ fuel →
      (build [] none sampleEntries.reverse).render .ascii false .plain collect fuel [] =
        some outcome := by
  obtain ⟨htotal, hdrawn⟩ := order_independent [] none sampleEntries
  obtain ⟨limit, outcome, h⟩ :=
    hdrawn clear_sampleEntries (List Text) Empty .ascii false .plain collect []
  exact ⟨(htotal _ sampleEntries.reverse_perm).trans (by decide), limit, outcome,
    h _ sampleEntries.reverse_perm⟩

/-- A name that is an object and a directory is drawn as the one or the other, whichever comes
first; and sizes that are too many bytes together are not summed. -/
theorem drawing_of_conflict :
    drawing [("a", some 1), ("a/b", some 1)] =
      some (.ok (⟨0, 2⟩, [".", "`-- a", "    `-- b"].map String.toList)) ∧
    drawing [("a/b", some 1), ("a", some 1)] =
      some (.ok (⟨1, 1⟩, [".", "`-- a/", "    `-- b"].map String.toList)) ∧
    (build [] none [("a".toList, some maxTotal), ("b".toList, some 1)]).totalBytes =
      some maxTotal := by
  decide

end Dctl.Listing.Drawing
