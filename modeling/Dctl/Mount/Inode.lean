import Dctl.ProofKit.Table

/-! The mapping between kernel inode numbers and vault paths (`mount/inode.rs`). -/

namespace Dctl.Mount

open ProofKit

inductive Kind where
  | file
  | directory
  deriving DecidableEq, Repr

structure Record where
  path : String
  kind : Kind
  lookups : Nat
  used : Nat
  deriving DecidableEq, Repr

def Record.referenced (r : Record) : Bool := r.lookups ≠ 0

def rootIno : Nat := 1

/-- How many inode records the mount keeps for paths the kernel has released. -/
def mountInodeCacheMax : Nat := 65536

def saturatingSucc (n : Nat) : Nat := min (n + 1) (2 ^ 64 - 1)

def wrappingSucc (n : Nat) : Nat := (n + 1) % 2 ^ 64

/-- The inode table: records by number, numbers by path, and the records that the kernel holds no
reference to, in recency order. -/
structure InodeTable where
  records : Table Nat Record
  numbers : String → Option Nat
  evictable : Table Nat Nat
  next : Nat
  tick : Nat

theorem Record.toNat_referenced_of_zero {r : Record} (h : r.lookups = 0) :
    r.referenced.toNat = 0 := by
  simp [Record.referenced, h]

theorem Record.toNat_referenced_of_ne {r : Record} (h : r.lookups ≠ 0) :
    r.referenced.toNat = 1 := by
  simp [Record.referenced, h]

namespace InodeTable

def new (root : String) : InodeTable where
  records := (∅ : Table Nat Record).insert rootIno ⟨root, .directory, 1, 0⟩
  numbers := Function.update (fun _ => none) root (some rootIno)
  evictable := ∅
  next := saturatingSucc rootIno
  tick := 0

def stamp (t : InodeTable) : InodeTable := { t with tick := wrappingSucc t.tick }

def touch (t : InodeTable) (was now number : Nat) : InodeTable :=
  { t with evictable := (t.evictable.erase was).insert now number }

def dropRecord (t : InodeTable) (oldest victim : Nat) : InodeTable :=
  let t := { t with evictable := t.evictable.erase oldest }
  match t.records[victim]? with
  | none => t
  | some record =>
    { t with
      records := t.records.erase victim
      numbers := if t.numbers record.path = some victim then
        Function.update t.numbers record.path none else t.numbers }

def evict (t : InodeTable) (max : Nat) : InodeTable :=
  if max < t.records.size then
    match _h : t.evictable.first with
    | none => t
    | some (oldest, victim) => (t.dropRecord oldest victim).evict max
  else t
termination_by t.evictable.size
decreasing_by
  have hsize := Table.size_erase_of_some (Table.first_eq_some _h).1
  unfold dropRecord
  dsimp only
  split <;> dsimp only <;> omega

def add (t : InodeTable) (path : String) (kind : Kind) : InodeTable where
  next := saturatingSucc t.next
  records := t.records.insert t.next ⟨path, kind, 0, t.tick⟩
  numbers := Function.update t.numbers path (some t.next)
  evictable := t.evictable.insert t.tick t.next
  tick := t.tick

def allocate (t : InodeTable) (max : Nat) (path : String) (kind : Kind) : Nat × InodeTable :=
  (t.next, (t.add path kind).evict max)

def intern (t : InodeTable) (max : Nat) (path : String) (kind : Kind) : Nat × InodeTable :=
  let t := t.stamp
  match t.numbers path with
  | none => t.allocate max path kind
  | some number =>
    match t.records[number]? with
    | none => allocate { t with numbers := Function.update t.numbers path none } max path kind
    | some record =>
      let t' := { t with records := t.records.insert number { record with used := t.tick, kind } }
      (number, if record.lookups = 0 then t'.touch record.used t.tick number else t')

def remember (t : InodeTable) (ino : Nat) : InodeTable :=
  match t.records[ino]? with
  | none => t
  | some record =>
    { t with
      records := t.records.insert ino { record with lookups := saturatingSucc record.lookups }
      evictable := if record.lookups = 0 then t.evictable.erase record.used else t.evictable }

def forget (t : InodeTable) (max ino count : Nat) : InodeTable :=
  if ino = rootIno then t
  else
    let t := t.stamp
    (match t.records[ino]? with
      | none => t
      | some record =>
        let lookups := record.lookups - count
        if lookups = 0 ∧ record.lookups ≠ 0 then
          { t with
            records := t.records.insert ino { record with lookups, used := t.tick }
            evictable := t.evictable.insert t.tick ino }
        else { t with records := t.records.insert ino { record with lookups } } :
          InodeTable).evict max

def resolve (t : InodeTable) (ino : Nat) : Option (String × Kind) × InodeTable :=
  let t := t.stamp
  match t.records[ino]? with
  | none => (none, t)
  | some record =>
    let t' := { t with records := t.records.insert ino { record with used := t.tick } }
    (some (record.path, record.kind),
      if record.lookups = 0 then t'.touch record.used t.tick ino else t')

def referenced (t : InodeTable) : Nat := Table.sum (fun _ r => r.referenced.toNat) t.records

end InodeTable

end Dctl.Mount
