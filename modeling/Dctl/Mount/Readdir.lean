import Dctl.Mount.Handle

/-! Reading a directory of the mount in batches (`readdir` of `mount/state.rs`), and that the kernel
gets every entry once however it cuts the batches. -/

namespace Dctl.Mount

open ProofKit Index Cli.Paths List

def mountReaddirBatch : Nat := 512

/-- What the mount was started with: its root, and how many inode records it keeps. -/
structure MountConfig where
  root : Path
  inodes : Nat

structure Interior where
  inodes : InodeTable
  handles : HandleTable

structure DirEntry where
  ino : Nat
  kind : Kind
  name : Path
  nextOffset : Nat
  deriving DecidableEq, Repr

def MountConfig.numberOf (config : MountConfig) (inodes : InodeTable) (path : Path) :
    Nat × InodeTable :=
  if path ≠ config.root ∧ isUnder config.root path = false then (rootIno, inodes)
  else inodes.intern config.inodes (String.ofList path) .directory

def syntheticEntries (ino dotdot offset : Nat) : List DirEntry :=
  ([(ino, ['.']), (dotdot, ['.', '.'])].zipIdx.filter fun e => offset ≤ e.2).map fun e =>
    ⟨e.1.1, .directory, e.1.2, satAdd e.2 1⟩

def childEntries (max : Nat) : (room index : Nat) → List Child → InodeTable →
    List DirEntry × InodeTable
  | 0, _, _, inodes => ([], inodes)
  | _, _, [], inodes => ([], inodes)
  | room + 1, index, child :: rest, inodes =>
    let position := satAdd index 2
    let (number, inodes) := inodes.intern max (String.ofList child.path) child.kind
    let (entries, inodes) := childEntries max room (index + 1) rest inodes
    (⟨number, child.kind, child.name, satAdd position 1⟩ :: entries, inodes)

def Interior.readdir (config : MountConfig) (s : Interior) (ino handle offset : Nat) :
    Option (List DirEntry) × Interior :=
  match s.handles.listingOf handle with
  | none => (none, s)
  | some listing =>
    let (found, inodes) := s.inodes.resolve ino
    let (dotdot, inodes) := match found with
      | none => (rootIno, inodes)
      | some (path, _) => config.numberOf inodes (parentChars path.toList)
    let leading := syntheticEntries ino dotdot offset
    let first := offset - 2
    let (entries, inodes) := childEntries config.inodes (mountReaddirBatch - leading.length) first
      (listing.children.drop first) inodes
    (some (leading ++ entries), { s with inodes })

def DirEntry.shown (e : DirEntry) : Path × Kind := (e.name, e.kind)

def Listing.shown (listing : Listing) : List (Path × Kind) :=
  (['.'], .directory) :: (['.', '.'], .directory) :: listing.children.map fun c => (c.name, c.kind)

structure Batch (shown : List (Path × Kind)) (offset : Nat) (entries : List DirEntry) : Prop where
  shown : entries.map DirEntry.shown = shown
  offsets : entries.map DirEntry.nextOffset = List.range' (offset + 1) entries.length

variable {shown shown' : List (Path × Kind)} {offset ino dotdot max room index : Nat}
  {entries entries' : List DirEntry} {inodes : InodeTable}

theorem Batch.append (h : Batch shown offset entries)
    (h' : Batch shown' (offset + entries.length) entries') :
    Batch (shown ++ shown') offset (entries ++ entries') := by
  refine ⟨by rw [map_append, h.shown, h'.shown], ?_⟩
  rw [map_append, h.offsets, h'.offsets, length_append, Nat.add_right_comm,
    List.range'_append_1]

theorem syntheticEntries_batch (ino dotdot offset : Nat) :
    Batch (([(['.'], .directory), (['.', '.'], .directory)] : List (Path × Kind)).drop offset)
      offset
      (syntheticEntries ino dotdot offset) := by
  match offset with
  | 0 => exact ⟨rfl, rfl⟩
  | 1 => exact ⟨rfl, rfl⟩
  | offset + 2 =>
    have hnone : syntheticEntries ino dotdot (offset + 2) = [] := by simp [syntheticEntries]
    rw [hnone]
    exact ⟨by simp, rfl⟩

theorem length_syntheticEntries (ino dotdot offset : Nat) :
    (syntheticEntries ino dotdot offset).length = 2 - offset := by
  have hlen := congrArg List.length (syntheticEntries_batch ino dotdot offset).shown
  simpa using hlen

theorem childEntries_batch (children : List Child)
    (hfits : children ≠ [] → index + children.length + 3 < 2 ^ 64) :
    Batch ((children.take room).map fun c => (c.name, c.kind)) (index + 2)
      (childEntries max room index children inodes).1 := by
  induction room generalizing index children inodes with
  | zero => exact ⟨by simp [childEntries], by simp [childEntries]⟩
  | succ room ih =>
    cases children with
    | nil => exact ⟨by simp [childEntries], by simp [childEntries]⟩
    | cons child rest =>
      have hfits := hfits (cons_ne_nil _ _)
      rw [length_cons] at hfits
      have hnext : satAdd (satAdd index 2) 1 = index + 3 := by
        simp only [satAdd, maxU64]
        omega
      rw [childEntries, hnext]
      have hrest := @ih (index + 1) (inodes.intern max (String.ofList child.path) child.kind).2 rest
        fun _ => by omega
      have hfirst (ino : Nat) : Batch [(child.name, child.kind)] (index + 2)
          [⟨ino, child.kind, child.name, index + 3⟩] := ⟨rfl, rfl⟩
      refine (hfirst _).append ?_
      rwa [length_singleton, Nat.add_right_comm]

theorem readdir_batch (config : MountConfig) {s : Interior} {handle : Nat} {listing : Listing}
    (h : s.handles.listingOf handle = some listing) (ino offset : Nat) :
    ∃ entries, (s.readdir config ino handle offset).1 = some entries ∧
      Batch ((listing.shown.drop offset).take mountReaddirBatch) offset entries := by
  unfold Interior.readdir
  rw [h]
  refine ⟨_, rfl, ?_⟩
  have hsplit : (listing.shown.drop offset).take mountReaddirBatch =
      ([(['.'], .directory), (['.', '.'], .directory)] : List (Path × Kind)).drop offset ++
        ((listing.children.drop (offset - 2)).take (mountReaddirBatch - (2 - offset))).map
          fun c => (c.name, c.kind) := by
    rw [show listing.shown = [(['.'], .directory), (['.', '.'], .directory)] ++
      listing.children.map fun c => (c.name, c.kind) from rfl, drop_append, take_append]
    congr 1
    · apply take_of_length_le
      simp only [length_drop, length_cons, length_nil, mountReaddirBatch]
      omega
    · simp [mountReaddirBatch]
  rw [hsplit]
  refine (syntheticEntries_batch ino _ offset).append ?_
  rw [length_syntheticEntries, show offset + (2 - offset) = offset - 2 + 2 by omega]
  apply childEntries_batch
  intro hne
  have hin := length_pos_iff.mpr hne
  have hfits := listing.fits
  rw [length_drop] at hin ⊢
  omega

/-- One `readdir` of the kernel: what the mount remembers then, and how many of the entries fit into
the reply. -/
structure Turn where
  state : Interior
  accepted : Nat

def enumerate (config : MountConfig) (ino handle : Nat) : (offset : Nat) → List Turn →
    Option (List DirEntry × Nat)
  | offset, [] => some ([], offset)
  | offset, turn :: rest =>
    match (turn.state.readdir config ino handle offset).1 with
    | none => none
    | some batch =>
      let taken := batch.take turn.accepted
      let offset := (taken.getLast?.map DirEntry.nextOffset).getD offset
      (enumerate config ino handle offset rest).map fun r => (taken ++ r.1, r.2)

variable {config : MountConfig} {handle : Nat} {listing : Listing}

theorem Batch.take (h : Batch shown offset entries) (n : Nat) :
    Batch (shown.take n) offset (entries.take n) := by
  refine ⟨by rw [map_take, h.shown], ?_⟩
  rw [map_take, h.offsets, length_take]
  rcases Nat.le_total n entries.length with hle | hle
  · rw [take_range'_of_length_ge hle, Nat.min_eq_left hle]
  · rw [take_range'_of_length_le hle, Nat.min_eq_right hle]

theorem Batch.offset_after (h : Batch shown offset entries) :
    (entries.getLast?.map DirEntry.nextOffset).getD offset = offset + entries.length := by
  rw [← List.getLast?_map, h.offsets, List.getLast?_range']
  split
  · rename_i hzero
    rw [hzero]
    rfl
  · simp only [Option.getD_some]
    omega

/-- However the batches are cut, the kernel has accepted the entries up to its offset, and one more
at least in each turn in which it accepted anything, as long as there are any. -/
theorem enumerate_spec (config : MountConfig) (turns : List Turn)
    (hopen : ∀ turn ∈ turns, turn.state.handles.listingOf handle = some listing)
      (ino offset : Nat) :
    ∃ entries, enumerate config ino handle offset turns = some (entries, offset + entries.length) ∧
      entries.map DirEntry.shown = (listing.shown.drop offset).take entries.length ∧
      min (turns.countP fun turn => 0 < turn.accepted) (listing.shown.length - offset) ≤
        entries.length := by
  induction turns generalizing offset with
  | nil => exact ⟨[], rfl, rfl, by simp⟩
  | cons turn rest ih =>
    obtain ⟨batch, hread, hbatch⟩ :=
      readdir_batch config (hopen turn mem_cons_self) ino offset
    have htaken := hbatch.take turn.accepted
    obtain ⟨more, hmore, hshown, hcount⟩ :=
      ih (fun t ht => hopen t (mem_cons_of_mem _ ht)) (offset + (batch.take turn.accepted).length)
    have hlen : (batch.take turn.accepted).length =
        min turn.accepted (min mountReaddirBatch (listing.shown.length - offset)) := by
      rw [← length_map DirEntry.shown, htaken.shown, length_take, length_take,
        length_drop]
    rw [mountReaddirBatch] at hlen
    generalize hfirsts : batch.take turn.accepted = taken at htaken hmore hshown hcount hlen
    refine ⟨taken ++ more, ?_, ?_, ?_⟩
    · rw [enumerate, hread]
      simp only [hfirsts, htaken.offset_after, hmore, Option.map_some, length_append,
        Nat.add_assoc]
    · have hfirst : taken.map DirEntry.shown = (listing.shown.drop offset).take taken.length := by
        rw [htaken.shown, take_take, take_eq_take_iff, length_drop, hlen,
          mountReaddirBatch]
        omega
      rw [map_append, length_append, hfirst, hshown, ← drop_drop, ← take_add]
    · rw [countP_cons, length_append]
      simp only [decide_eq_true_eq]
      split
      · omega
      · omega

/-- However the kernel cuts the batches, and whatever else happens to the mount between them, the
entries it has accepted are those of the directory up to its offset; the batch is empty once it has
them all and not before; and it has them all after as many turns in which it accepts an entry. -/
theorem readdir_enumerates (config : MountConfig) (ino handle : Nat) (listing : Listing)
    (turns : List Turn)
    (hopen : ∀ turn ∈ turns, turn.state.handles.listingOf handle = some listing) :
    ∃ entries, enumerate config ino handle 0 turns = some (entries, entries.length) ∧
      entries.map DirEntry.shown = listing.shown.take entries.length ∧
      (∀ s : Interior, s.handles.listingOf handle = some listing →
        ((s.readdir config ino handle entries.length).1 = some [] ↔
          entries.map DirEntry.shown = listing.shown)) ∧
      (listing.shown.length ≤ (turns.countP fun turn => 0 < turn.accepted) →
        entries.map DirEntry.shown = listing.shown) := by
  obtain ⟨entries, hrun, hshown, hcount⟩ := enumerate_spec config turns hopen ino 0
  rw [drop_zero] at hshown
  rw [Nat.zero_add] at hrun
  have hall : entries.map DirEntry.shown = listing.shown ↔
      listing.shown.length ≤ entries.length := by
    rw [hshown, take_eq_self_iff]
  refine ⟨entries, hrun, hshown, ?_, ?_⟩
  · intro s hs
    obtain ⟨batch, hread, hbatch⟩ := readdir_batch config hs ino entries.length
    have hlen := congrArg List.length hbatch.shown
    rw [length_map, length_take, length_drop] at hlen
    rw [hread, Option.some.injEq, ← length_eq_zero_iff, hlen, hall, mountReaddirBatch]
    omega
  · intro hturns
    rw [hall]
    omega

def oneFile : Listing := ⟨[⟨['a'], ['a'], .file, some 1, none⟩], by decide⟩

def oneOpen : Interior := ⟨.new "", (HandleTable.new.openDirectory oneFile).2⟩

theorem listingOf_oneOpen : oneOpen.handles.listingOf 1 = some oneFile := by
  simp [oneOpen, HandleTable.openDirectory, HandleTable.insert, HandleTable.new,
    HandleTable.listingOf]

theorem readdir_enumerates_oneFile :
    ∃ entries, enumerate ⟨[], 4⟩ 1 1 0 [⟨oneOpen, 1⟩, ⟨oneOpen, 1⟩, ⟨oneOpen, 7⟩] =
        some (entries, entries.length) ∧
      entries.map DirEntry.shown = oneFile.shown.take entries.length ∧
      (∀ s : Interior, s.handles.listingOf 1 = some oneFile →
        ((s.readdir ⟨[], 4⟩ 1 1 entries.length).1 = some [] ↔
          entries.map DirEntry.shown = oneFile.shown)) ∧
      (oneFile.shown.length ≤ ([⟨oneOpen, 1⟩, ⟨oneOpen, 1⟩, ⟨oneOpen, 7⟩] : List Turn).countP
        (fun turn => 0 < turn.accepted) → entries.map DirEntry.shown = oneFile.shown) :=
  readdir_enumerates ⟨[], 4⟩ 1 1 oneFile _ (by simp [listingOf_oneOpen])

end Dctl.Mount
