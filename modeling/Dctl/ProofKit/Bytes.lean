import Mathlib.Data.List.Basic
import Mathlib.Tactic.Ring

/-! Byte strings: little-endian integers of a fixed width, fixed-length blocks, and the
consecutive chunks of a byte string. -/

namespace Dctl.ProofKit

open List

abbrev Bytes := List UInt8

def le : Nat → Nat → Bytes
  | 0, _ => []
  | n + 1, v => UInt8.ofNat v :: le n (v / 256)

def ofLe : Bytes → Nat
  | [] => 0
  | b :: bs => b.toNat + 256 * ofLe bs

@[simp] theorem length_le (n v : Nat) : (le n v).length = n := by
  induction n generalizing v with
  | zero => rfl
  | succ n ih => simp [le, ih]

@[simp] theorem drop_le_eq_nil {n k : Nat} (h : n ≤ k) (v : Nat) : (le n v).drop k = [] :=
  drop_of_length_le (by simpa using h)

theorem ofLe_lt (bs : Bytes) : ofLe bs < 256 ^ bs.length := by
  induction bs with
  | nil => simp [ofLe]
  | cons b bs ih =>
    have hb : b.toNat < 256 := b.toNat_lt
    simp only [ofLe, length_cons, pow_succ]
    omega

theorem ofLe_le (n v : Nat) : ofLe (le n v) = v % 256 ^ n := by
  induction n generalizing v with
  | zero => simp [le, ofLe, Nat.mod_one]
  | succ n ih =>
    have hb : (UInt8.ofNat v).toNat = v % 256 := by simp
    rw [le, ofLe, ih, hb, pow_succ, Nat.mul_comm (256 ^ n) 256, Nat.mod_mul]

theorem ofLe_le_of_lt {n v : Nat} (h : v < 256 ^ n) : ofLe (le n v) = v := by
  rw [ofLe_le, Nat.mod_eq_of_lt h]

theorem le_ofLe (bs : Bytes) : le bs.length (ofLe bs) = bs := by
  induction bs with
  | nil => rfl
  | cons b bs ih =>
    have hb : b.toNat < 256 := b.toNat_lt
    have hlow : UInt8.ofNat (b.toNat + 256 * ofLe bs) = b := by
      apply UInt8.toNat_inj.mp
      simp
    have hhigh : (b.toNat + 256 * ofLe bs) / 256 = ofLe bs := by omega
    simp only [length_cons, ofLe, le, hlow, hhigh, ih]

def byteAt (bs : Bytes) (i : Nat) : UInt8 := bs.getD i 0

def leAt (bs : Bytes) (start n : Nat) : Nat := ofLe ((bs.drop start).take n)

theorem leAt_lt (bs : Bytes) (start n : Nat) : leAt bs start n < 256 ^ n := by
  refine lt_of_lt_of_le (ofLe_lt _) (Nat.pow_le_pow_right (by decide) ?_)
  simp

theorem toNat_ofNat_leAt4 (bs : Bytes) (start : Nat) :
    (UInt32.ofNat (leAt bs start 4)).toNat = leAt bs start 4 :=
  UInt32.toNat_ofNat_of_lt' (leAt_lt bs start 4)

theorem toNat_ofNat_leAt8 (bs : Bytes) (start : Nat) :
    (UInt64.ofNat (leAt bs start 8)).toNat = leAt bs start 8 :=
  UInt64.toNat_ofNat_of_lt' (leAt_lt bs start 8)

theorem leAt_eq {bs t : Bytes} {i n v : Nat} (hdrop : bs.drop i = le n v ++ t)
    (hv : v < 256 ^ n) : leAt bs i n = v := by
  rw [leAt, hdrop, take_left' (length_le n v), ofLe_le_of_lt hv]

variable {bs : Bytes}

theorem leAt_take {i n k : Nat} (h : i + n ≤ k) : leAt (bs.take k) i n = leAt bs i n := by
  rw [leAt, drop_take, take_take, Nat.min_eq_left (by omega), leAt]

variable {i : Nat}

theorem drop_eq_byteAt_cons (h : i < bs.length) : bs.drop i = byteAt bs i :: bs.drop (i + 1) := by
  rw [drop_eq_getElem_cons h, byteAt, getD_eq_getElem?_getD, List.getElem?_eq_getElem h,
    Option.getD_some]

theorem byteAt_eq {bs t : Bytes} {b : UInt8} (hdrop : bs.drop i = b :: t) : byteAt bs i = b := by
  rw [byteAt, getD_eq_getElem?_getD, ← List.head?_drop, hdrop]
  rfl

theorem drop_eq_take_append {bs part : Bytes} {i n : Nat} (h : (bs.drop i).take n = part) :
    bs.drop i = part ++ bs.drop (i + n) := by
  rw [← h, ← drop_drop, take_append_drop]

theorem drop_eq_le_append (n : Nat) (h : i + n ≤ bs.length) :
    bs.drop i = le n (leAt bs i n) ++ bs.drop (i + n) := by
  have hlen : ((bs.drop i).take n).length = n := by simp; omega
  have hle := le_ofLe ((bs.drop i).take n)
  rw [hlen] at hle
  rw [leAt, hle, ← drop_drop, take_append_drop]

theorem take_drop_flatten {n : Nat} {parts : List Bytes} (h : ∀ p ∈ parts, p.length = n)
    (hi : i < parts.length) : (parts.flatten.drop (i * n)).take n = parts[i] := by
  induction parts generalizing i with
  | nil => cases hi
  | cons p rest ih =>
    have hp : p.length = n := h p (mem_cons_self ..)
    cases i with
    | zero =>
      rw [Nat.zero_mul, drop_zero, flatten_cons, take_left' hp]
      rfl
    | succ i =>
      rw [flatten_cons, Nat.succ_mul, Nat.add_comm, ← drop_drop, drop_left' hp]
      exact ih (fun q hq => h q (mem_cons_of_mem _ hq)) (Nat.lt_of_succ_lt_succ hi)

/-- A byte string of exactly `n` bytes: `[u8; n]`. -/
structure Block (n : Nat) where
  bytes : Bytes
  length : bytes.length = n
  deriving DecidableEq

attribute [simp] Block.length

namespace Block

variable {n : Nat}

@[ext] theorem ext {a b : Block n} (h : a.bytes = b.bytes) : a = b := by
  cases a; cases b; simpa using h

@[simp] theorem drop_bytes_eq_nil {b : Block n} {k : Nat} (h : n ≤ k) : b.bytes.drop k = [] :=
  drop_of_length_le (by simpa using h)

def of? (n : Nat) (bs : Bytes) : Option (Block n) :=
  if h : bs.length = n then some ⟨bs, h⟩ else none

@[simp] theorem of?_eq_some {bs : Bytes} {b : Block n} : of? n bs = some b ↔ bs = b.bytes := by
  constructor
  · intro h
    simp only [of?] at h
    split at h
    · cases h; rfl
    · cases h
  · rintro rfl
    simp [of?]

def slice (n : Nat) (bs : Bytes) (start : Nat) : Block n :=
  ⟨(bs.drop start).take n ++ List.replicate (n - (bs.length - start)) 0, by simp; omega⟩

theorem slice_bytes {start : Nat} (h : start + n ≤ bs.length) :
    (slice n bs start).bytes = (bs.drop start).take n := by
  simp [slice, show n - (bs.length - start) = 0 by omega]

theorem slice_eq {b : Block n} {bs t : Bytes} (hdrop : bs.drop i = b.bytes ++ t) :
    slice n bs i = b := by
  have hlen := congrArg List.length hdrop
  simp only [length_drop, length_append, b.length] at hlen
  ext1
  rcases Nat.eq_zero_or_pos n with rfl | hn
  · rw [length_eq_zero_iff.mp b.length, length_eq_zero_iff.mp (slice 0 bs i).length]
  · rw [slice_bytes (by omega), hdrop, take_left' b.length]

theorem drop_eq_slice_append (n : Nat) (h : i + n ≤ bs.length) :
    bs.drop i = (slice n bs i).bytes ++ bs.drop (i + n) := by
  rw [slice_bytes h, ← drop_drop, take_append_drop]

def replicate (n : Nat) (b : UInt8) : Block n := ⟨List.replicate n b, by simp⟩

instance : Inhabited (Block n) := ⟨replicate n 0⟩

end Block

def chunks {α : Type} (n : Nat) (xs : List α) : List (List α) :=
  (List.range ((xs.length + n - 1) / n)).map fun i => (xs.drop (i * n)).take n

end Dctl.ProofKit
