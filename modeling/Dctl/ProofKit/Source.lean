import Dctl.ProofKit.Bytes

/-! Readers that may answer short.  A read of `n` bytes returns at least one of them unless the
reader is at its end, and how many is up to the reader; `readExact` asks until it has them all.
What `readExact` returns does not depend on how the reader cut its answers. -/

namespace Dctl.ProofKit

open List

/-- A seekable reader of `data` at position `pos`.  `grants` bounds the answers to the next reads;
an answer past the end of `grants` is as long as was asked for. -/
structure Source where
  data : Bytes
  pos : Nat
  grants : List Nat

namespace Source

def of (data : Bytes) (grants : List Nat) : Source := ⟨data, 0, grants⟩

def rest (s : Source) : Bytes := s.data.drop s.pos

def granted (s : Source) (n : Nat) : Nat :=
  min n (min s.rest.length (match s.grants with | [] => n | g :: _ => max 1 g))

def read (s : Source) (n : Nat) : Bytes × Source :=
  (s.rest.take (s.granted n), ⟨s.data, s.pos + s.granted n, s.grants.tail⟩)

def rewind (s : Source) : Source := { s with pos := 0 }

def readExactLoop : Nat → Source → Nat → Option (Bytes × Source)
  | _, s, 0 => some ([], s)
  | 0, _, _ + 1 => none
  | fuel + 1, s, n + 1 =>
    match s.read (n + 1) with
    | ([], _) => none
    | (b :: bs, s') =>
      (readExactLoop fuel s' (n - bs.length)).map fun (tail, s'') => (b :: bs ++ tail, s'')

def readExact (s : Source) (n : Nat) : Option (Bytes × Source) := readExactLoop n s n

@[simp] theorem rest_of (data : Bytes) (grants : List Nat) : (of data grants).rest = data := rfl

@[simp] theorem rest_rewind (s : Source) : s.rewind.rest = s.data := rfl

theorem rest_read (s : Source) (n : Nat) : (s.read n).2.rest = s.rest.drop (s.granted n) := by
  simp [read, rest, drop_drop]

theorem data_read (s : Source) (n : Nat) : (s.read n).2.data = s.data := rfl

theorem granted_le (s : Source) (n : Nat) : s.granted n ≤ n ∧ s.granted n ≤ s.rest.length := by
  simp only [granted]
  omega

variable {s : Source}

theorem granted_pos {n : Nat} (hn : 0 < n) (hs : s.rest ≠ []) : 0 < s.granted n := by
  have hlen : 0 < s.rest.length := length_pos_iff.mpr hs
  simp only [granted]
  split <;> omega

theorem read_eq_nil {n : Nat} (hn : 0 < n) : (s.read n).1 = [] ↔ s.rest = [] := by
  constructor
  · intro h
    by_contra hs
    have hpos := granted_pos hn hs
    have hlen := congrArg List.length h
    simp only [read, length_take, length_nil] at hlen
    have := granted_le s n
    omega
  · intro h
    simp [read, h]

theorem readExactLoop_some {fuel n : Nat} (hf : n ≤ fuel) (hn : n ≤ s.rest.length) :
    ∃ s', readExactLoop fuel s n = some (s.rest.take n, s') ∧ s'.rest = s.rest.drop n ∧
      s'.data = s.data := by
  induction fuel generalizing n s with
  | zero =>
    obtain rfl : n = 0 := by omega
    exact ⟨s, by simp [readExactLoop]⟩
  | succ fuel ih =>
    cases n with
    | zero => exact ⟨s, by simp [readExactLoop]⟩
    | succ n =>
      have hs : s.rest ≠ [] := by
        intro h
        simp [h] at hn
      obtain ⟨b, bs, hread⟩ := exists_cons_of_ne_nil
        (mt (read_eq_nil (show 0 < n + 1 by omega)).mp hs)
      have hgrant : bs.length + 1 = s.granted (n + 1) := by
        have h := congrArg List.length hread
        have := granted_le s (n + 1)
        simp only [read, length_take, length_cons] at h
        omega
      have hle := granted_le s (n + 1)
      obtain ⟨s', hloop, hrest, hdata⟩ := ih (n := n - bs.length) (s := (s.read (n + 1)).2)
        (by omega) (by rw [rest_read, length_drop]; omega)
      refine ⟨s', ?_, ?_, by rw [hdata, data_read]⟩
      · have hpair : s.read (n + 1) = (b :: bs, (s.read (n + 1)).2) := by rw [← hread]
        have hfront : b :: bs = s.rest.take (s.granted (n + 1)) := by rw [← hread]; rfl
        rw [readExactLoop, hpair]
        simp only [hloop, Option.map_some, rest_read, hfront]
        rw [show n - bs.length = n + 1 - s.granted (n + 1) by omega, ← take_add]
        congr 3
        omega
      · rw [hrest, rest_read, drop_drop]
        congr 1
        omega

theorem readExactLoop_none {fuel n : Nat} (hn : s.rest.length < n) :
    readExactLoop fuel s n = none := by
  induction fuel generalizing n s with
  | zero =>
    cases n with
    | zero => omega
    | succ n => rfl
  | succ fuel ih =>
    cases n with
    | zero => omega
    | succ n =>
      rw [readExactLoop]
      split
      · rfl
      next b bs s' hread =>
        have hs' : s' = (s.read (n + 1)).2 := by rw [hread]
        have hlen : bs.length + 1 = s.granted (n + 1) := by
          have h := congrArg (fun p => p.1.length) hread
          have := granted_le s (n + 1)
          simp only [read, length_take, length_cons] at h
          omega
        have hle := granted_le s (n + 1)
        rw [ih (by rw [hs', rest_read, length_drop]; omega)]
        rfl

theorem readExact_some {n : Nat} (h : n ≤ s.rest.length) :
    ∃ s', s.readExact n = some (s.rest.take n, s') ∧ s'.rest = s.rest.drop n ∧
      s'.data = s.data :=
  readExactLoop_some (Nat.le_refl n) h

theorem readExact_eq_some {s s' : Source} {n : Nat} {bs : Bytes}
    (h : s.readExact n = some (bs, s')) :
    s.rest = bs ++ s'.rest ∧ bs.length = n ∧ s'.data = s.data := by
  by_cases hn : n ≤ s.rest.length
  · obtain ⟨s1, h1, hrest, hdata⟩ := readExact_some hn
    rw [h1] at h
    simp only [Option.some.injEq, Prod.mk.injEq] at h
    obtain ⟨rfl, rfl⟩ := h
    exact ⟨by rw [hrest, take_append_drop], by simp; omega, hdata⟩
  · rw [readExact, readExactLoop_none (by omega)] at h
    cases h

theorem readExact_append {bs tail : Bytes} (h : s.rest = bs ++ tail) :
    ∃ s', s.readExact bs.length = some (bs, s') ∧ s'.rest = tail ∧ s'.data = s.data := by
  obtain ⟨s', h1, h2, h3⟩ := readExact_some (s := s) (n := bs.length) (by simp [h])
  exact ⟨s', by simpa [h] using h1, by simpa [h] using h2, h3⟩

end Source

end Dctl.ProofKit
