import Dctl.ProofKit.Bytes

/-! Byte strings that are written at an offset.  A write past the end leaves a gap of zeros, and a
byte string is cut or filled with zeros to a length.  `Stands b p s` says that `s` stands in `b`
from `p` on; a write elsewhere and a cut behind it leave it there. -/

namespace Dctl.ProofKit

open List

def zeros (n : Nat) : Bytes := List.replicate n 0

def sized (b : Bytes) (n : Nat) : Bytes := b.take n ++ zeros (n - b.length)

def writeAt (b : Bytes) (p : Nat) (data : Bytes) : Bytes :=
  sized b p ++ data ++ b.drop (p + data.length)

def readAt (b : Bytes) (p n : Nat) : Bytes := (b.drop p).take n

variable {b data more s : Bytes} {n p q k : Nat}

@[simp] theorem length_sized : (sized b n).length = n := by
  simp only [sized, zeros, length_append, length_take, length_replicate]
  omega

@[simp] theorem length_writeAt : (writeAt b p data).length = max b.length (p + data.length) := by
  simp only [writeAt, length_append, length_sized, length_drop]
  omega

@[simp] theorem length_readAt : (readAt b p n).length = min n (b.length - p) := by
  simp only [readAt, length_take, length_drop]

theorem getElem?_sized : (sized b n)[k]? =
    if k < n then if k < b.length then b[k]? else some 0 else none := by
  unfold sized zeros
  by_cases hk : k < b.length
  · rw [if_pos hk, List.getElem?_append]
    simp only [length_take, List.getElem?_take, List.getElem?_replicate]
    by_cases hn : k < n
    · rw [if_pos (by omega), if_pos hn]
    · rw [if_neg (by omega), if_neg (by omega), if_neg hn]
  · rw [if_neg hk, List.getElem?_append_right (by simp; omega), List.getElem?_replicate]
    simp only [length_take]
    by_cases hn : k < n
    · rw [if_pos hn, if_pos (by omega)]
    · rw [if_neg hn, if_neg (by omega)]

theorem getElem?_writeAt : (writeAt b p data)[k]? =
    if k < p then if k < b.length then b[k]? else some 0
    else if k < p + data.length then data[k - p]? else b[k]? := by
  unfold writeAt
  rw [append_assoc, List.getElem?_append, length_sized, getElem?_sized]
  by_cases hp : k < p
  · rw [if_pos hp, if_pos hp, if_pos hp]
  · rw [if_neg hp, if_neg hp, List.getElem?_append, List.getElem?_drop]
    by_cases hd : k < p + data.length
    · rw [if_pos (by omega), if_pos hd]
    · rw [if_neg (by omega), if_neg hd]
      congr 1
      omega

theorem getElem?_readAt : (readAt b p n)[k]? = if k < n then b[p + k]? else none := by
  rw [readAt, List.getElem?_take, List.getElem?_drop]

theorem readAt_append_drop (h : s = readAt b p s.length) :
    s ++ b.drop (p + s.length) = b.drop p := by
  have hsplit := take_append_drop s.length (b.drop p)
  rw [drop_drop] at hsplit
  rwa [show (b.drop p).take s.length = s from h.symm] at hsplit

theorem readAt_congr {b b' : Bytes} (h : ∀ k, p ≤ k → k < p + n → b[k]? = b'[k]?) :
    readAt b p n = readAt b' p n := by
  apply ext_getElem?
  intro k
  rw [getElem?_readAt, getElem?_readAt]
  by_cases hk : k < n
  · rw [if_pos hk, if_pos hk, h (p + k) (Nat.le_add_right p k) (by omega)]
  · rw [if_neg hk, if_neg hk]

theorem readAt_add (b : Bytes) (p n m : Nat) (h : n ≤ b.length - p) :
    readAt b p n ++ readAt b (p + n) m = readAt b p (n + m) := by
  apply ext_getElem?
  intro k
  rw [List.getElem?_append, length_readAt, Nat.min_eq_left h]
  simp only [getElem?_readAt]
  by_cases hk : k < n
  · rw [if_pos hk, if_pos hk, if_pos (by omega)]
  · rw [if_neg hk]
    by_cases hm : k < n + m
    · rw [if_pos (by omega), if_pos hm]
      congr 1
      omega
    · rw [if_neg (by omega), if_neg hm]

theorem readAt_past (h : b.length ≤ p) : readAt b p n = [] := by
  rw [readAt, drop_of_length_le h, take_nil]

theorem sized_of_length_le (h : n ≤ b.length) : sized b n = b.take n := by
  rw [sized, Nat.sub_eq_zero_of_le h]
  exact append_nil _

theorem sized_length (b : Bytes) : sized b b.length = b := by
  rw [sized_of_length_le (Nat.le_refl _), take_length]

theorem writeAt_sized (h : b.length ≤ p) : writeAt (sized b p) p data = writeAt b p data := by
  apply ext_getElem?
  intro k
  rw [getElem?_writeAt, getElem?_writeAt, getElem?_sized, length_sized]
  by_cases hp : k < p
  · rw [if_pos hp, if_pos hp, if_pos hp, if_pos hp]
  · rw [if_neg hp, if_neg hp, if_neg hp]
    by_cases hd : k < p + data.length
    · rw [if_pos hd, if_pos hd]
    · rw [if_neg hd, if_neg hd, List.getElem?_eq_none (by omega)]

theorem writeAt_append (b : Bytes) (p : Nat) (data more : Bytes) :
    writeAt (writeAt b p data) (p + data.length) more = writeAt b p (data ++ more) := by
  apply ext_getElem?
  intro k
  simp only [getElem?_writeAt, length_writeAt, length_append]
  by_cases hp : k < p
  · rw [if_pos (by omega), if_pos (by omega), if_pos hp, if_pos hp]
  · by_cases hd : k < p + data.length
    · rw [if_pos hd, if_pos (by omega), if_neg hp, if_pos hd, if_neg hp, if_pos (by omega),
        List.getElem?_append_left (by omega)]
    · rw [if_neg hd, if_neg hp, if_neg hp]
      by_cases hm : k < p + data.length + more.length
      · rw [if_pos hm, if_pos (by omega), List.getElem?_append_right (by omega), Nat.sub_sub]
      · rw [if_neg hm, if_neg hd, if_neg (by omega)]

theorem writeAt_nil (h : p ≤ b.length) : writeAt b p [] = b := by
  rw [writeAt, sized_of_length_le h, append_nil]
  exact take_append_drop p b

theorem writeAt_length_zeros (b : Bytes) (n : Nat) :
    writeAt b b.length (zeros n) = sized b (b.length + n) := by
  rw [writeAt, sized_length, drop_of_length_le (by omega), append_nil, sized,
    take_of_length_le (by omega), Nat.add_sub_cancel_left]

theorem sized_sized_of_le {m : Nat} (hn : b.length ≤ n) : sized (sized b n) m = sized b m := by
  apply ext_getElem?
  intro k
  rw [getElem?_sized, getElem?_sized, getElem?_sized, length_sized]
  by_cases hm : k < m
  · rw [if_pos hm, if_pos hm]
    by_cases hk : k < n
    · rw [if_pos hk, if_pos hk]
    · rw [if_neg hk, if_neg (by omega)]
  · rw [if_neg hm, if_neg hm]

theorem writeAt_sized_zeros (h : b.length ≤ p) :
    writeAt (sized b p) p (zeros n) = sized b (p + n) := by
  have hend := writeAt_length_zeros (sized b p) n
  rwa [length_sized, sized_sized_of_le h] at hend

theorem readAt_writeAt_behind (h : p + data.length ≤ q) :
    readAt (writeAt b p data) q n = readAt b q n := by
  apply ext_getElem?
  intro k
  rw [getElem?_readAt, getElem?_readAt]
  by_cases hk : k < n
  · rw [if_pos hk, if_pos hk, getElem?_writeAt, if_neg (by omega), if_neg (by omega)]
  · rw [if_neg hk, if_neg hk]

/-- `s` stands in `b` at `p`. -/
def Stands (b : Bytes) (p : Nat) (s : Bytes) : Prop := ∀ k < s.length, b[p + k]? = s[k]?

theorem Stands.lt_length (h : Stands b q s) (hk : k < s.length) : q + k < b.length := by
  have hget := h k hk
  by_contra hout
  rw [List.getElem?_eq_none (by omega), List.getElem?_eq_getElem hk] at hget
  cases hget

theorem Stands.readAt_eq (h : Stands b p s) : readAt b p s.length = s := by
  apply ext_getElem?
  intro k
  rw [getElem?_readAt]
  by_cases hk : k < s.length
  · rw [if_pos hk, h k hk]
  · rw [if_neg hk, List.getElem?_eq_none (by omega)]

theorem stands_writeAt (b : Bytes) (p : Nat) (data : Bytes) : Stands (writeAt b p data) p data := by
  intro k hk
  rw [getElem?_writeAt, if_neg (by omega), if_pos (by omega), Nat.add_sub_cancel_left]

theorem Stands.writeAt (h : Stands b q s) (hd : q + s.length ≤ p ∨ p + data.length ≤ q) :
    Stands (writeAt b p data) q s := by
  intro k hk
  have hin := h.lt_length hk
  rw [getElem?_writeAt]
  rcases hd with hbefore | hafter
  · rw [if_pos (by omega), if_pos hin, h k hk]
  · rw [if_neg (by omega), if_neg (by omega), h k hk]

theorem Stands.sized (h : Stands b q s) (hn : q + s.length ≤ n) : Stands (sized b n) q s := by
  intro k hk
  have hin := h.lt_length hk
  rw [getElem?_sized, if_pos (by omega), if_pos hin, h k hk]

/-- Every byte of `b` before `n` is in `b'` as well. -/
def KeepsBelow (n : Nat) (b b' : Bytes) : Prop := ∀ k, k < n → k < b.length → b'[k]? = b[k]?

namespace KeepsBelow

variable {b' b'' : Bytes}

theorem refl (n : Nat) (b : Bytes) : KeepsBelow n b b := fun _ _ _ => rfl

theorem trans (h : KeepsBelow n b b') (h' : KeepsBelow n b' b'') : KeepsBelow n b b'' := by
  intro k hk hb
  have hfirst := h k hk hb
  have hin : k < b'.length := by
    by_contra hout
    rw [List.getElem?_eq_none (by omega), List.getElem?_eq_getElem hb] at hfirst
    cases hfirst
  rw [h' k hk hin, hfirst]

theorem writeAt (b : Bytes) (data : Bytes) (h : n ≤ p) : KeepsBelow n b (writeAt b p data) := by
  intro k hk hb
  rw [getElem?_writeAt, if_pos (by omega), if_pos hb]

theorem sized (b : Bytes) (h : n ≤ p) : KeepsBelow n b (sized b p) := by
  intro k hk hb
  rw [getElem?_sized, if_pos (by omega), if_pos hb]

theorem stands (h : KeepsBelow n b b') (hs : Stands b q s) (hn : q + s.length ≤ n) :
    Stands b' q s := by
  intro k hk
  have hin := hs.lt_length hk
  rw [h (q + k) (by omega) hin, hs k hk]

end KeepsBelow

end Dctl.ProofKit
