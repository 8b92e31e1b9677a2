import Mathlib.Data.Char
import Mathlib.Data.List.Lex
import Mathlib.Tactic.IntervalCases
import Mathlib.Algebra.BigOperators.Group.List.Basic

/-! Numbers in texts: runs of digits, signed numbers of 64 bits, and numbers padded to a width,
whose texts are ordered as they are.  Positions in a text, counted in the bytes of its encoding:
where characters are found, and the parts in front of a position and behind it, which exist only
between two characters. -/

namespace Dctl.ProofKit

open List

variable {a a' b b' text field : List Char} {n m w bound : Nat} {v : Int}

/-- A decimal number in ASCII digits. -/
structure Spells (field : List Char) (n : Nat) : Prop where
  nonempty : field ≠ []
  digits : ∀ c ∈ field, c.isDigit = true
  value : Nat.ofDigitChars 10 field 0 = n

theorem Spells.unique (h : Spells field n) (h' : Spells field m) :
    n = m := h.value.symm.trans h'.value

theorem Spells.not_mem (h : Spells field n) {c : Char} (hc : c.isDigit = false) :
    c ∉ field := fun hmem => by
  have hdigit := h.digits c hmem
  rw [hc] at hdigit
  cases hdigit

theorem spells_toDigits (n : Nat) : Spells (Nat.toDigits 10 n) n where
  nonempty := Nat.toDigits_ne_nil
  digits _ hc := Nat.isDigit_of_mem_toDigits (by decide) (by decide) hc
  value := Nat.ofDigitChars_ten_toDigits

def allDigits (field : List Char) : Bool := !field.isEmpty && field.all Char.isDigit

theorem allDigits_iff : allDigits field = true ↔ Spells field (Nat.ofDigitChars 10 field 0) := by
  rw [allDigits, Bool.and_eq_true, Bool.not_eq_true', isEmpty_eq_false_iff, all_eq_true]
  refine ⟨fun h => ⟨h.1, h.2, rfl⟩, fun h => ⟨h.nonempty, h.digits⟩⟩

def digitsBelow (bound : Nat) (field : List Char) : Option Nat :=
  if allDigits field ∧ Nat.ofDigitChars 10 field 0 < bound
    then some (Nat.ofDigitChars 10 field 0) else none

theorem digitsBelow_eq_some : digitsBelow bound field = some n ↔ Spells field n ∧ n < bound := by
  unfold digitsBelow
  rw [Option.ite_none_right_eq_some, Option.some.injEq, allDigits_iff]
  constructor
  · rintro ⟨⟨h, hlt⟩, rfl⟩
    exact ⟨h, hlt⟩
  · rintro ⟨h, hlt⟩
    rw [h.value]
    exact ⟨⟨h, hlt⟩, rfl⟩

def FitsI64 (v : Int) : Prop := -2 ^ 63 ≤ v ∧ v < 2 ^ 63

instance : Decidable (FitsI64 v) := inferInstanceAs (Decidable (_ ∧ _))

def fitI64 {ε : Type} (fault : ε) (v : Int) : Except ε Int :=
  if FitsI64 v then .ok v else .error fault

theorem fitI64_of_fits {ε : Type} {fault : ε} (h : FitsI64 v) : fitI64 fault v = .ok v := if_pos h

theorem eq_of_fitI64 {ε : Type} {fault : ε} {u : Int} (h : fitI64 fault v = .ok u) : u = v := by
  unfold fitI64 at h
  split at h
  · exact (Except.ok.inj h).symm
  · cases h

def takeSign : List Char → Bool × List Char
  | '-' :: rest => (true, rest)
  | '+' :: rest => (false, rest)
  | rest => (false, rest)

def signed (negative : Bool) (n : Nat) : Int := if negative then -n else n

def parseI64 (text : List Char) : Option Int :=
  let v := signed (takeSign text).1 (Nat.ofDigitChars 10 (takeSign text).2 0)
  if allDigits (takeSign text).2 ∧ FitsI64 v then some v else none

def printI64 (v : Int) : List Char :=
  if v < 0 then '-' :: Nat.toDigits 10 v.natAbs else Nat.toDigits 10 v.natAbs

theorem takeSign_cases (text : List Char) :
    (text = '-' :: (takeSign text).2 ∧ (takeSign text).1 = true) ∨
    (text = '+' :: (takeSign text).2 ∧ (takeSign text).1 = false) ∨
      takeSign text = (false, text) := by
  unfold takeSign
  split
  · exact .inl ⟨rfl, rfl⟩
  · exact .inr (.inl ⟨rfl, rfl⟩)
  · exact .inr (.inr rfl)

theorem Spells.takeSign (h : Spells field n) : takeSign field = (false, field) := by
  rcases takeSign_cases field with ⟨heq, -⟩ | ⟨heq, -⟩ | heq
  · exact absurd (heq ▸ mem_cons_self) (h.not_mem (c := '-') (by decide))
  · exact absurd (heq ▸ mem_cons_self) (h.not_mem (c := '+') (by decide))
  · exact heq

theorem parseI64_eq_some : parseI64 text = some v ↔
    ∃ n, Spells (takeSign text).2 n ∧ v = signed (takeSign text).1 n ∧ FitsI64 v := by
  unfold parseI64
  rw [Option.ite_none_right_eq_some, Option.some.injEq, allDigits_iff]
  constructor
  · rintro ⟨⟨h, hfits⟩, rfl⟩
    exact ⟨_, h, rfl, hfits⟩
  · rintro ⟨n, h, rfl, hfits⟩
    rw [h.value]
    exact ⟨⟨h, hfits⟩, rfl⟩

theorem Spells.parseI64 (h : Spells field n) (hlt : n < 2 ^ 63) :
    parseI64 field = some (n : Int) := by
  refine parseI64_eq_some.mpr ⟨n, ?_, ?_, ?_⟩
  · rwa [h.takeSign]
  · rw [h.takeSign]
    rfl
  · unfold FitsI64
    omega

theorem Spells.eq_of_parseI64 (h : Spells field n) (hv : ProofKit.parseI64 field = some v) :
    v = n := by
  obtain ⟨m, hm, rfl, -⟩ := parseI64_eq_some.mp hv
  rw [h.takeSign] at hm ⊢
  rw [h.unique hm]
  rfl

theorem mem_of_parseI64 (h : ProofKit.parseI64 text = some v) {c : Char} (hc : c ∈ text) :
    c.isDigit = true ∨ c = '-' ∨ c = '+' := by
  obtain ⟨n, hspells, -, -⟩ := parseI64_eq_some.mp h
  have hbody : c ∈ (takeSign text).2 → c.isDigit = true := hspells.digits c
  rcases takeSign_cases text with ⟨heq, -⟩ | ⟨heq, -⟩ | heq
  · rw [heq] at hc
    rcases mem_cons.mp hc with rfl | hc
    · exact .inr (.inl rfl)
    · exact .inl (hbody hc)
  · rw [heq] at hc
    rcases mem_cons.mp hc with rfl | hc
    · exact .inr (.inr rfl)
    · exact .inl (hbody hc)
  · rw [heq] at hbody
    exact .inl (hbody hc)

theorem exists_cons_of_parseI64 (h : ProofKit.parseI64 text = some v) :
    ∃ c rest, text = c :: rest ∧ (c.isDigit = true ∨ c = '-' ∨ c = '+') := by
  cases text with
  | nil =>
    obtain ⟨n, hspells, -⟩ := parseI64_eq_some.mp h
    exact absurd rfl hspells.nonempty
  | cons c rest => exact ⟨c, rest, rfl, mem_of_parseI64 h mem_cons_self⟩

theorem parseI64_printI64 (h : FitsI64 v) : ProofKit.parseI64 (printI64 v) = some v := by
  have hspells := spells_toDigits v.natAbs
  unfold printI64
  split
  next hneg =>
    refine parseI64_eq_some.mpr ⟨v.natAbs, hspells, ?_, h⟩
    show v = -(v.natAbs : Int)
    omega
  next hpos =>
    rw [hspells.parseI64 (by unfold FitsI64 at h; omega), Option.some.injEq]
    omega

def pad (width n : Nat) : List Char :=
  List.replicate (width - (Nat.toDigits 10 n).length) '0' ++ Nat.toDigits 10 n

/-- A signed number, filled up with zeros behind the sign. -/
def padI64 (width : Nat) (v : Int) : List Char :=
  if v < 0 then '-' :: pad (width - 1) v.natAbs else pad width v.natAbs

theorem padI64_natCast (width n : Nat) : padI64 width n = pad width n := by
  rw [padI64, if_neg (by omega), Int.natAbs_natCast]

theorem spells_pad (width n : Nat) : Spells (pad width n) n where
  nonempty := append_ne_nil_of_right_ne_nil _ Nat.toDigits_ne_nil
  digits c hc := by
    rcases mem_append.mp hc with hzero | hdigit
    · rw [eq_of_mem_replicate hzero]
      decide
    · exact (spells_toDigits n).digits c hdigit
  value := by
    rw [pad, Nat.ofDigitChars_append, Nat.ofDigitChars_replicate_zero, Nat.mul_zero]
    exact Nat.ofDigitChars_ten_toDigits

theorem length_pad (hw : 0 < w) (h : n < 10 ^ w) : (pad w n).length = w := by
  have hle := (Nat.length_toDigits_le_iff (by decide : 1 < 10) hw).mpr h
  rw [pad, length_append, length_replicate]
  omega

theorem pad_succ (hw : 0 < w) (n : Nat) :
    pad (w + 1) n = pad w (n / 10) ++ [(n % 10).digitChar] := by
  rcases Nat.lt_or_ge n 10 with hlt | hge
  · rw [pad, pad, Nat.toDigits_of_lt_base hlt, Nat.div_eq_of_lt hlt, Nat.mod_eq_of_lt hlt,
      Nat.toDigits_zero, ← replicate_succ']
    rw [length_singleton, length_singleton, Nat.add_sub_cancel, Nat.sub_add_cancel hw]
  · rw [pad, pad, Nat.toDigits_of_base_le (by decide) hge, length_append, length_singleton,
      Nat.add_sub_add_right, append_assoc]

theorem append_lt_append_iff {α : Type} [LinearOrder α] {a a' b b' : List α}
    (hlen : a.length = a'.length) : a ++ b < a' ++ b' ↔ a < a' ∨ a = a' ∧ b < b' := by
  induction a generalizing a' with
  | nil =>
    obtain rfl := length_eq_zero_iff.mp hlen.symm
    simp
  | cons x a ih =>
    cases a' with
    | nil => cases hlen
    | cons y a' =>
      rw [cons_append, cons_append, cons_lt_cons_iff, cons_lt_cons_iff,
        ih (Nat.succ.inj hlen), List.cons.injEq]
      grind

theorem digitChar_lt_iff (hn : n < 10) (hm : m < 10) : n.digitChar < m.digitChar ↔ n < m := by
  have hall : ∀ n < 10, ∀ m < 10, (n.digitChar < m.digitChar ↔ n < m) := by decide
  exact hall n hn m hm

theorem pad_lt_iff (hw : 0 < w) (hn : n < 10 ^ w) (hm : m < 10 ^ w) :
    pad w n < pad w m ↔ n < m := by
  induction w generalizing n m with
  | zero => cases hw
  | succ w ih =>
    rcases Nat.eq_zero_or_pos w with rfl | hpos
    · rw [Nat.pow_one] at hn hm
      rw [pad, pad, Nat.toDigits_of_lt_base hn, Nat.toDigits_of_lt_base hm]
      show [n.digitChar] < [m.digitChar] ↔ _
      rw [cons_lt_cons_iff, digitChar_lt_iff hn hm]
      simp
    · have hn' : n / 10 < 10 ^ w := by omega
      have hm' : m / 10 < 10 ^ w := by omega
      have hlen : (pad w (n / 10)).length = (pad w (m / 10)).length := by
        rw [length_pad hpos hn', length_pad hpos hm']
      have hsame : pad w (n / 10) = pad w (m / 10) ↔ n / 10 = m / 10 :=
        ⟨fun h => (spells_pad w _).unique (h ▸ spells_pad w _), fun h => by rw [h]⟩
      rw [pad_succ hpos, pad_succ hpos, append_lt_append_iff hlen, ih hpos hn' hm', hsame,
        cons_lt_cons_iff, digitChar_lt_iff (Nat.mod_lt _ (by decide)) (Nat.mod_lt _ (by decide))]
      simp only [not_lt_nil, and_false, or_false]
      omega

variable {p : Char → Bool} {a b s : List Char} {c : Char} {i : Nat}

def byteLen (s : List Char) : Nat := (s.map Char.utf8Size).sum

def splitBytes : Nat → List Char → Option (List Char × List Char)
  | 0, s => some ([], s)
  | _ + 1, [] => none
  | i + 1, c :: s =>
    if c.utf8Size ≤ i + 1 then (splitBytes (i + 1 - c.utf8Size) s).map fun parts =>
      (c :: parts.1, parts.2)
    else none

def findByte (p : Char → Bool) : List Char → Option Nat
  | [] => none
  | c :: s => if p c then some 0 else (findByte p s).map (· + c.utf8Size)

def rfindByte (p : Char → Bool) : List Char → Option Nat
  | [] => none
  | c :: s =>
    match rfindByte p s with
    | some i => some (i + c.utf8Size)
    | none => if p c then some 0 else none

@[simp] theorem byteLen_nil : byteLen [] = 0 := rfl

@[simp] theorem byteLen_cons (c : Char) (s : List Char) :
    byteLen (c :: s) = c.utf8Size + byteLen s := rfl

@[simp] theorem byteLen_append (a b : List Char) : byteLen (a ++ b) = byteLen a + byteLen b := by
  rw [byteLen, map_append, sum_append]
  rfl

theorem byteLen_eq_zero : byteLen s = 0 ↔ s = [] := by
  cases s with
  | nil => exact iff_of_true rfl rfl
  | cons c s =>
    have hpos := c.utf8Size_pos
    rw [byteLen_cons]
    refine iff_of_false (by omega) (cons_ne_nil _ _)

theorem splitBytes_eq_some : splitBytes i s = some (a, b) ↔ s = a ++ b ∧ byteLen a = i := by
  induction s generalizing i a b with
  | nil =>
    cases i with
    | zero =>
      rw [splitBytes, Option.some.injEq, Prod.mk.injEq, byteLen_eq_zero]
      constructor
      · rintro ⟨rfl, rfl⟩
        exact ⟨rfl, rfl⟩
      · rintro ⟨heq, rfl⟩
        exact ⟨rfl, heq⟩
    | succ i =>
      rw [splitBytes]
      refine iff_of_false (Option.some_ne_none _).symm ?_
      rintro ⟨heq, hlen⟩
      rw [(append_eq_nil_iff.mp heq.symm).1] at hlen
      cases hlen
  | cons c s ih =>
    have hpos := c.utf8Size_pos
    cases i with
    | zero =>
      rw [splitBytes, Option.some.injEq, Prod.mk.injEq, byteLen_eq_zero]
      constructor
      · rintro ⟨rfl, rfl⟩
        exact ⟨rfl, rfl⟩
      · rintro ⟨heq, rfl⟩
        exact ⟨rfl, heq⟩
    | succ i =>
      rw [splitBytes, Option.ite_none_right_eq_some, Option.map_eq_some_iff]
      constructor
      · rintro ⟨hle, ⟨a', b'⟩, hsplit, heq⟩
        obtain ⟨rfl, hlen⟩ := ih.mp hsplit
        obtain ⟨rfl, rfl⟩ := Prod.mk.inj heq
        refine ⟨rfl, ?_⟩
        rw [byteLen_cons, hlen]
        omega
      · rintro ⟨heq, hlen⟩
        cases a with
        | nil => cases hlen
        | cons c' a' =>
          obtain ⟨rfl, rfl⟩ := List.cons.inj heq
          rw [byteLen_cons] at hlen
          refine ⟨by omega, (a', b), ih.mpr ⟨rfl, by omega⟩, rfl⟩

theorem splitBytes_append (a b : List Char) : splitBytes (byteLen a) (a ++ b) = some (a, b) :=
  splitBytes_eq_some.mpr ⟨rfl, rfl⟩

/-- What is found, with nothing of the kind in front of it. -/
theorem findByte_eq_some : findByte p s = some i ↔
    ∃ a c b, s = a ++ c :: b ∧ (∀ x ∈ a, p x = false) ∧ p c = true ∧ byteLen a = i := by
  induction s generalizing i with
  | nil =>
    refine iff_of_false (Option.some_ne_none _).symm ?_
    rintro ⟨a, c, b, heq, -⟩
    exact cons_ne_nil _ _ (append_eq_nil_iff.mp heq.symm).2
  | cons d s ih =>
    rw [findByte]
    cases hd : p d with
    | true =>
      rw [if_pos rfl, Option.some.injEq]
      constructor
      · rintro rfl
        exact ⟨[], d, s, rfl, forall_mem_nil _, hd, rfl⟩
      · rintro ⟨a, c, b, heq, hnone, -, rfl⟩
        cases a with
        | nil => rfl
        | cons x a =>
          obtain ⟨rfl, -⟩ := List.cons.inj heq
          rw [hnone d mem_cons_self] at hd
          cases hd
    | false =>
      rw [if_neg Bool.false_ne_true, Option.map_eq_some_iff]
      constructor
      · rintro ⟨j, hj, rfl⟩
        obtain ⟨a, c, b, rfl, hnone, hc, rfl⟩ := ih.mp hj
        refine ⟨d :: a, c, b, rfl, ?_, hc, Nat.add_comm _ _⟩
        exact forall_mem_cons.mpr ⟨hd, hnone⟩
      · rintro ⟨a, c, b, heq, hnone, hc, rfl⟩
        cases a with
        | nil =>
          obtain ⟨rfl, -⟩ := List.cons.inj heq
          rw [hc] at hd
          cases hd
        | cons x a =>
          obtain ⟨rfl, rfl⟩ := List.cons.inj heq
          exact ⟨byteLen a, ih.mpr ⟨a, c, b, rfl, (forall_mem_cons.mp hnone).2, hc, rfl⟩,
            Nat.add_comm _ _⟩

theorem findByte_eq_none : findByte p s = none ↔ ∀ c ∈ s, p c = false := by
  induction s with
  | nil => exact iff_of_true rfl (forall_mem_nil _)
  | cons d s ih =>
    rw [findByte, forall_mem_cons, ← ih]
    cases hd : p d with
    | true => exact iff_of_false (Option.some_ne_none _) (fun h => Bool.noConfusion h.1)
    | false =>
      rw [if_neg Bool.false_ne_true, Option.map_eq_none_iff]
      exact ⟨fun h => ⟨rfl, h⟩, fun h => h.2⟩

theorem rfindByte_eq_none : rfindByte p s = none ↔ ∀ c ∈ s, p c = false := by
  induction s with
  | nil => exact iff_of_true rfl (forall_mem_nil _)
  | cons d s ih =>
    rw [rfindByte, forall_mem_cons, ← ih]
    cases rfindByte p s with
    | some i => exact iff_of_false (Option.some_ne_none _) (fun h => Option.some_ne_none _ h.2)
    | none => cases hd : p d <;> simp

theorem rfindByte_eq_some : rfindByte p s = some i ↔
    ∃ a c b, s = a ++ c :: b ∧ (∀ x ∈ b, p x = false) ∧ p c = true ∧ byteLen a = i := by
  induction s generalizing i with
  | nil =>
    refine iff_of_false (Option.some_ne_none _).symm ?_
    rintro ⟨a, c, b, heq, -⟩
    exact cons_ne_nil _ _ (append_eq_nil_iff.mp heq.symm).2
  | cons d s ih =>
    rw [rfindByte]
    cases hrest : rfindByte p s with
    | some j =>
      obtain ⟨a, c, b, rfl, hnone, hc, rfl⟩ := ih.mp hrest
      rw [Option.some.injEq]
      constructor
      · rintro rfl
        exact ⟨d :: a, c, b, rfl, hnone, hc, Nat.add_comm _ _⟩
      · rintro ⟨a', c', b', heq, hnone', hc', rfl⟩
        cases a' with
        | nil =>
          obtain ⟨-, rfl⟩ := List.cons.inj heq
          have hfound := hnone' c (mem_append_right _ mem_cons_self)
          rw [hc] at hfound
          cases hfound
        | cons x a' =>
          obtain ⟨rfl, hrest'⟩ := List.cons.inj heq
          have hsame := ih.mpr ⟨a', c', b', hrest', hnone', hc', rfl⟩
          rw [hrest, Option.some.injEq] at hsame
          rw [hsame, byteLen_cons, Nat.add_comm]
    | none =>
      have hall := rfindByte_eq_none.mp hrest
      dsimp only
      rw [Option.ite_none_right_eq_some, Option.some.injEq]
      constructor
      · rintro ⟨hd, rfl⟩
        exact ⟨[], d, s, rfl, hall, hd, rfl⟩
      · rintro ⟨a', c', b', heq, -, hc', rfl⟩
        cases a' with
        | nil =>
          obtain ⟨rfl, -⟩ := List.cons.inj heq
          exact ⟨hc', rfl⟩
        | cons x a' =>
          obtain ⟨-, rfl⟩ := List.cons.inj heq
          have hnot := hall c' (mem_append_right _ mem_cons_self)
          rw [hc'] at hnot
          cases hnot

theorem append_cons_inj {a' b' : List Char} {c' : Char} (ha : ∀ x ∈ a, p x = false)
    (ha' : ∀ x ∈ a', p x = false) (hc : p c = true) (hc' : p c' = true)
    (h : a ++ c :: b = a' ++ c' :: b') : a = a' ∧ c = c' ∧ b = b' := by
  have hfound := findByte_eq_some.mpr ⟨a, c, b, rfl, ha, hc, rfl⟩
  have hfound' := findByte_eq_some.mpr ⟨a', c', b', rfl, ha', hc', rfl⟩
  rw [h, hfound', Option.some.injEq] at hfound
  have hsplit := splitBytes_append a (c :: b)
  rw [h, ← hfound, splitBytes_append, Option.some.injEq, Prod.mk.injEq, List.cons.injEq] at hsplit
  obtain ⟨rfl, rfl, rfl⟩ := hsplit
  exact ⟨rfl, rfl, rfl⟩

end Dctl.ProofKit
