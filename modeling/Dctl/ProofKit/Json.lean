import Dctl.ProofKit.Hex
import Dctl.ProofKit.Text

/-! Flat JSON objects: numbers and strings under names, written without white space.  What is
written is read back, and no character of it is a control character. -/

namespace Dctl.ProofKit

open List

def quoteMark : Char := Char.ofNat 0x22
def backslash : Char := Char.ofNat 0x5c

inductive JsonValue where
  | num (n : Nat)
  | str (s : String)
  deriving DecidableEq

def shortEscapes : List (Char × Char) :=
  [(quoteMark, quoteMark), (backslash, backslash), (Char.ofNat 8, 'b'), (Char.ofNat 9, 't'),
    (Char.ofNat 10, 'n'), (Char.ofNat 12, 'f'), (Char.ofNat 13, 'r')]

def escapeChar (c : Char) : List Char :=
  match shortEscapes.lookup c with
  | some letter => [backslash, letter]
  | none =>
    if c.toNat < 0x20 then
      [backslash, 'u', '0', '0', hexDigit (c.toNat / 16), hexDigit (c.toNat % 16)]
    else [c]

def writeString (s : String) : List Char :=
  quoteMark :: (s.toList.flatMap escapeChar ++ [quoteMark])

def writeValue : JsonValue → List Char
  | .num n => n.repr.toList
  | .str s => writeString s

def writeField (field : String × JsonValue) : List Char :=
  writeString field.1 ++ ':' :: writeValue field.2

def writeRest (fields : List (String × JsonValue)) : List Char :=
  fields.flatMap fun field => ',' :: writeField field

def writeObject : List (String × JsonValue) → List Char
  | [] => [Char.ofNat 0x7b, Char.ofNat 0x7d]
  | field :: fields =>
    Char.ofNat 0x7b :: (writeField field ++ writeRest fields ++ [Char.ofNat 0x7d])

def readEscape : List Char → Option (Char × List Char)
  | [] => none
  | letter :: rest =>
    match shortEscapes.find? fun escape => escape.2 = letter with
    | some escape => some (escape.1, rest)
    | none =>
      match rest with
      | a :: b :: c :: d :: rest =>
        if letter = 'u' ∧ a = '0' ∧ b = '0' then do
          let high ← hexValue c
          let low ← hexValue d
          some (Char.ofNat (high * 16 + low), rest)
        else none
      | _ => none

def readChar : List Char → Option (Char × List Char)
  | [] => none
  | c :: rest => if c = backslash then readEscape rest else if c.toNat < 0x20 then none
    else some (c, rest)

def readChars : Nat → List Char → Option (List Char × List Char)
  | 0, _ => none
  | fuel + 1, chars =>
    if chars.head? = some quoteMark then some ([], chars.tail)
    else do
      let (c, rest) ← readChar chars
      let (cs, rest) ← readChars fuel rest
      some (c :: cs, rest)

def readString : List Char → Option (String × List Char)
  | [] => none
  | c :: rest =>
    if c = quoteMark then
      (readChars (rest.length + 1) rest).map fun (cs, rest) => (String.ofList cs, rest)
    else none

def readNumber (chars : List Char) : Option (Nat × List Char) :=
  let digits := chars.takeWhile Char.isDigit
  if digits = [] then none else some (Nat.ofDigitChars 10 digits 0, chars.drop digits.length)

def readValue (chars : List Char) : Option (JsonValue × List Char) :=
  if chars.head? = some quoteMark then (readString chars).map fun (s, rest) => (.str s, rest)
  else (readNumber chars).map fun (n, rest) => (.num n, rest)

def readField (chars : List Char) : Option ((String × JsonValue) × List Char) := do
  let (name, rest) ← readString chars
  if rest.head? = some ':' then do
    let (value, rest) ← readValue rest.tail
    some ((name, value), rest)
  else none

def readRest : Nat → List Char → Option (List (String × JsonValue))
  | 0, _ => none
  | fuel + 1, chars =>
    if chars = [Char.ofNat 0x7d] then some []
    else if chars.head? = some ',' then do
      let (field, rest) ← readField chars.tail
      let fields ← readRest fuel rest
      some (field :: fields)
    else none

def readObject (chars : List Char) : Option (List (String × JsonValue)) :=
  if chars = [Char.ofNat 0x7b, Char.ofNat 0x7d] then some []
  else if chars.head? = some (Char.ofNat 0x7b) then do
    let (field, rest) ← readField chars.tail
    let fields ← readRest rest.length rest
    some (field :: fields)
  else none

theorem escapeChar_cases (c : Char) :
    (∃ letter, (c, letter) ∈ shortEscapes ∧ escapeChar c = [backslash, letter]) ∨
      (c.toNat < 0x20 ∧ escapeChar c =
        [backslash, 'u', '0', '0', hexDigit (c.toNat / 16), hexDigit (c.toNat % 16)]) ∨
      (c ≠ backslash ∧ c ≠ quoteMark ∧ ¬c.toNat < 0x20 ∧ escapeChar c = [c]) := by
  rw [escapeChar]
  cases hlookup : shortEscapes.lookup c with
  | some letter =>
    obtain ⟨before, after, hsplit, -⟩ := lookup_eq_some_iff.mp hlookup
    exact Or.inl ⟨letter, by rw [hsplit]; simp, rfl⟩
  | none =>
    have hnone := lookup_eq_none_iff.mp hlookup
    have hbackslash : c ≠ backslash := by
      simpa using hnone (backslash, backslash) (by simp [shortEscapes])
    have hquote : c ≠ quoteMark := by
      simpa using hnone (quoteMark, quoteMark) (by simp [shortEscapes])
    by_cases hlow : c.toNat < 0x20
    · exact Or.inr (Or.inl ⟨hlow, if_pos hlow⟩)
    · exact Or.inr (Or.inr ⟨hbackslash, hquote, hlow, if_neg hlow⟩)

theorem readChar_escapeChar (c : Char) (rest : List Char) :
    (escapeChar c ++ rest).head? ≠ some quoteMark ∧
      readChar (escapeChar c ++ rest) = some (c, rest) := by
  rcases escapeChar_cases c with ⟨letter, hmem, hwritten⟩ | ⟨hlow, hwritten⟩ |
    ⟨hbackslash, hquote, hhigh, hwritten⟩
  · rw [hwritten]
    refine ⟨by simp [backslash, quoteMark], ?_⟩
    simp only [shortEscapes, mem_cons, not_mem_nil, or_false, Prod.mk.injEq] at hmem
    rcases hmem with ⟨rfl, rfl⟩ | ⟨rfl, rfl⟩ | ⟨rfl, rfl⟩ | ⟨rfl, rfl⟩ | ⟨rfl, rfl⟩ | ⟨rfl, rfl⟩ |
      ⟨rfl, rfl⟩ <;> rfl
  · rw [hwritten]
    refine ⟨by simp [backslash, quoteMark], ?_⟩
    have hfind : shortEscapes.find? (fun escape => decide (escape.2 = 'u')) = none := by decide
    have hsplit : c.toNat / 16 * 16 + c.toNat % 16 = c.toNat := by omega
    have hread : readEscape ('u' :: '0' :: '0' :: hexDigit (c.toNat / 16) ::
        hexDigit (c.toNat % 16) :: rest) = some (c, rest) := by
      simp only [readEscape, hfind, hexValue_hexDigit (show c.toNat / 16 < 16 by omega),
        hexValue_hexDigit (show c.toNat % 16 < 16 by omega), and_self, ↓reduceIte,
        Option.bind_eq_bind, Option.bind_some, hsplit, Char.ofNat_toNat]
    exact hread
  · rw [hwritten]
    refine ⟨by simpa using hquote, ?_⟩
    rw [singleton_append, readChar, if_neg hbackslash, if_neg hhigh]

theorem readChars_flatMap (cs : List Char) (rest : List Char) {fuel : Nat} (h : cs.length < fuel) :
    readChars fuel (cs.flatMap escapeChar ++ quoteMark :: rest) = some (cs, rest) := by
  induction cs generalizing fuel with
  | nil =>
    obtain ⟨fuel, rfl⟩ := Nat.exists_eq_succ_of_ne_zero (by omega : fuel ≠ 0)
    rfl
  | cons c cs ih =>
    obtain ⟨fuel, rfl⟩ := Nat.exists_eq_succ_of_ne_zero (by omega : fuel ≠ 0)
    rw [length_cons] at h
    rw [flatMap_cons, append_assoc]
    obtain ⟨hhead, hread⟩ := readChar_escapeChar c (cs.flatMap escapeChar ++ quoteMark :: rest)
    have hrest : readChars fuel (cs.flatMap escapeChar ++ quoteMark :: rest) = some (cs, rest) :=
      ih (by omega)
    rw [readChars, if_neg hhead, hread]
    simp [hrest]

theorem length_le_flatMap_escapeChar (cs : List Char) :
    cs.length ≤ (cs.flatMap escapeChar).length := by
  induction cs with
  | nil => exact Nat.le_refl _
  | cons c cs ih =>
    have hpos : 0 < (escapeChar c).length := by
      rcases escapeChar_cases c with ⟨_, _, h⟩ | ⟨_, h⟩ | ⟨_, _, _, h⟩ <;> simp [h]
    rw [flatMap_cons, length_cons, length_append]
    omega

theorem readString_writeString (s : String) (rest : List Char) :
    readString (writeString s ++ rest) = some (s, rest) := by
  have hlength := length_le_flatMap_escapeChar s.toList
  have happend : writeString s ++ rest =
      quoteMark :: (s.toList.flatMap escapeChar ++ quoteMark :: rest) := by
    simp [writeString]
  rw [happend, readString, if_pos rfl, readChars_flatMap]
  · simp
  · rw [length_append]
    omega

theorem readNumber_repr (n : Nat) {rest : List Char}
    (hrest : ∀ c, rest.head? = some c → c.isDigit = false) :
    readNumber (n.repr.toList ++ rest) = some (n, rest) := by
  have hdigits : ∀ c ∈ n.repr.toList, c.isDigit = true := by
    intro c hc
    rw [Nat.toList_repr] at hc
    exact Nat.isDigit_of_mem_toDigits (by decide) (by decide) hc
  have hnone : rest.takeWhile Char.isDigit = [] := by
    cases rest with
    | nil => rfl
    | cons c rest => rw [takeWhile_cons, hrest c rfl, if_neg (by simp)]
  have htake : (n.repr.toList ++ rest).takeWhile Char.isDigit = n.repr.toList := by
    rw [takeWhile_append_of_pos hdigits, hnone, append_nil]
  have hne : n.repr.toList ≠ [] := by
    rw [Nat.toList_repr]
    exact Nat.toDigits_ne_nil
  rw [readNumber, htake, if_neg hne, drop_left, Nat.toList_repr, Nat.ofDigitChars_ten_toDigits]

theorem readValue_writeValue (value : JsonValue) {rest : List Char}
    (hrest : ∀ c, rest.head? = some c → c.isDigit = false) :
    readValue (writeValue value ++ rest) = some (value, rest) := by
  cases value with
  | num n =>
    have hhead : (n.repr.toList ++ rest).head? ≠ some quoteMark := by
      intro hquote
      cases hdigits : n.repr.toList with
      | nil =>
        rw [Nat.toList_repr] at hdigits
        exact Nat.toDigits_ne_nil hdigits
      | cons c cs =>
        have hdigit : c.isDigit = true := by
          apply Nat.isDigit_of_mem_toDigits (b := 10) (n := n) (by decide) (by decide)
          rw [← Nat.toList_repr, hdigits]
          exact mem_cons_self ..
        rw [hdigits] at hquote
        obtain rfl : c = quoteMark := by simpa using hquote
        revert hdigit
        decide
    rw [readValue, writeValue, if_neg hhead, readNumber_repr n hrest]
    rfl
  | str s =>
    rw [readValue, writeValue, if_pos (by rfl), readString_writeString]
    rfl

theorem readField_writeField (field : String × JsonValue) {rest : List Char}
    (hrest : ∀ c, rest.head? = some c → c.isDigit = false) :
    readField (writeField field ++ rest) = some (field, rest) := by
  obtain ⟨name, value⟩ := field
  have hname := readString_writeString name (':' :: (writeValue value ++ rest))
  rw [readField, writeField, append_assoc, cons_append, hname]
  simp [readValue_writeValue value hrest]

theorem readField_writeRest (field : String × JsonValue) (fields : List (String × JsonValue)) :
    readField (writeField field ++ (writeRest fields ++ [Char.ofNat 0x7d])) =
      some (field, writeRest fields ++ [Char.ofNat 0x7d]) := by
  apply readField_writeField
  intro c hc
  cases fields <;>
    · simp only [writeRest, flatMap_nil, flatMap_cons, nil_append,
        cons_append, List.head?_cons, Option.some.injEq] at hc
      subst hc
      decide

theorem readRest_writeRest (fields : List (String × JsonValue)) {fuel : Nat}
    (h : fields.length < fuel) :
    readRest fuel (writeRest fields ++ [Char.ofNat 0x7d]) = some fields := by
  induction fields generalizing fuel with
  | nil =>
    obtain ⟨fuel, rfl⟩ := Nat.exists_eq_succ_of_ne_zero (by omega : fuel ≠ 0)
    rfl
  | cons field fields ih =>
    obtain ⟨fuel, rfl⟩ := Nat.exists_eq_succ_of_ne_zero (by omega : fuel ≠ 0)
    rw [length_cons] at h
    have hrest : readRest fuel (writeRest fields ++ [Char.ofNat 0x7d]) = some fields :=
      ih (by omega)
    have happend : writeRest (field :: fields) ++ [Char.ofNat 0x7d] =
        ',' :: (writeField field ++ (writeRest fields ++ [Char.ofNat 0x7d])) := by
      simp [writeRest]
    rw [happend, readRest, if_neg (by simp)]
    simp [readField_writeRest, hrest]

theorem length_writeRest (fields : List (String × JsonValue)) :
    fields.length ≤ (writeRest fields).length := by
  induction fields with
  | nil => exact Nat.le_refl _
  | cons field fields ih =>
    simp only [writeRest, flatMap_cons, length_cons, length_append] at ih ⊢
    omega

theorem length_writeString_le (s : String) :
    (writeString s).length ≤ 6 * s.toList.length + 2 := by
  have hescaped : (s.toList.flatMap escapeChar).length ≤ 6 * s.toList.length := by
    induction s.toList with
    | nil => exact Nat.le_refl _
    | cons c cs ih =>
      have hle : (escapeChar c).length ≤ 6 := by
        rcases escapeChar_cases c with ⟨_, _, h⟩ | ⟨_, h⟩ | ⟨_, _, _, h⟩ <;> simp [h]
      rw [flatMap_cons, length_append, length_cons]
      omega
  simp only [writeString, length_cons, length_append, length_nil]
  omega

theorem length_writeObject_le (fields : List (String × JsonValue)) :
    (writeObject fields).length ≤ (fields.map fun field =>
      (writeField field).length + 1).sum + 2 := by
  have hrest : ∀ fields, (writeRest fields).length =
      (fields.map fun field => (writeField field).length + 1).sum := by
    intro fields
    simp [writeRest, length_flatMap]
  cases fields with
  | nil => exact Nat.le_refl _
  | cons field fields =>
    simp only [writeObject, length_cons, length_append, length_nil, hrest,
      map_cons, sum_cons]
    omega

theorem length_writeField_le {fields : List (String × JsonValue)} {field : String × JsonValue}
    (h : field ∈ fields) : (writeField field).length ≤ (writeObject fields).length := by
  obtain ⟨before, after, rfl⟩ := append_of_mem h
  cases before with
  | nil =>
    simp only [nil_append, writeObject, length_cons, length_append]
    omega
  | cons first before =>
    simp only [cons_append, writeObject, writeRest, flatMap_append, flatMap_cons,
      length_cons, length_append]
    omega

theorem readObject_writeObject (fields : List (String × JsonValue)) :
    readObject (writeObject fields) = some fields := by
  cases fields with
  | nil => rfl
  | cons field fields =>
    have hlength := length_writeRest fields
    have hrest : readRest (writeRest fields ++ [Char.ofNat 0x7d]).length
        (writeRest fields ++ [Char.ofNat 0x7d]) = some fields := by
      apply readRest_writeRest
      rw [length_append, length_singleton]
      omega
    have hfield := readField_writeRest field fields
    have hne : writeObject (field :: fields) ≠ [Char.ofNat 0x7b, Char.ofNat 0x7d] := by
      simp [writeObject, writeField, writeString, quoteMark]
    rw [readObject, if_neg hne]
    simp only [writeObject, append_assoc, List.head?_cons, ↓reduceIte, tail_cons, hfield,
      Option.bind_eq_bind, Option.bind_some, hrest]

theorem printable_escapeChar {c d : Char} (h : d ∈ escapeChar c) : 0x20 ≤ d.toNat := by
  rcases escapeChar_cases c with ⟨letter, hmem, hwritten⟩ | ⟨hlow, hwritten⟩ |
    ⟨-, -, hhigh, hwritten⟩
  · have hletters : ∀ escape ∈ shortEscapes, 0x20 ≤ escape.2.toNat := by decide
    rw [hwritten] at h
    simp only [mem_cons, not_mem_nil, or_false] at h
    rcases h with rfl | rfl
    · decide
    · exact hletters _ hmem
  · have hdigit : ∀ n < 16, 0x20 ≤ (hexDigit n).toNat := by decide
    rw [hwritten] at h
    simp only [mem_cons, not_mem_nil, or_false] at h
    rcases h with rfl | rfl | rfl | rfl | rfl | rfl
    case inr.inr.inr.inr.inl => exact hdigit _ (by omega)
    case inr.inr.inr.inr.inr => exact hdigit _ (by omega)
    all_goals decide
  · rw [hwritten, mem_singleton] at h
    subst h
    omega

theorem printable_writeString {s : String} {d : Char} (h : d ∈ writeString s) : 0x20 ≤ d.toNat := by
  simp only [writeString, mem_cons, mem_append, mem_flatMap, not_mem_nil,
    or_false] at h
  rcases h with rfl | ⟨c, -, hd⟩ | rfl
  · decide
  · exact printable_escapeChar hd
  · decide

theorem printable_writeField {field : String × JsonValue} {d : Char} (h : d ∈ writeField field) :
    0x20 ≤ d.toNat := by
  obtain ⟨name, value⟩ := field
  simp only [writeField, mem_append, mem_cons] at h
  rcases h with h | rfl | h
  · exact printable_writeString h
  · decide
  · cases value with
    | num n =>
      rw [writeValue, Nat.toList_repr] at h
      have hdigit := Nat.isDigit_of_mem_toDigits (by decide) (by decide) h
      simp only [Char.isDigit, ge_iff_le, Bool.and_eq_true, decide_eq_true_eq,
        UInt32.le_iff_toNat_le] at hdigit
      exact le_trans (by decide) hdigit.1
    | str s => exact printable_writeString h

theorem printable_writeObject {fields : List (String × JsonValue)} {d : Char}
    (h : d ∈ writeObject fields) : 0x20 ≤ d.toNat := by
  cases fields with
  | nil =>
    simp only [writeObject, mem_cons, not_mem_nil, or_false] at h
    rcases h with rfl | rfl <;> decide
  | cons field fields =>
    simp only [writeObject, writeRest, mem_cons, mem_append, mem_flatMap,
      not_mem_nil, or_false] at h
    rcases h with rfl | (h | ⟨field', -, rfl | h⟩) | rfl
    · decide
    · exact printable_writeField h
    · decide
    · exact printable_writeField h
    · decide

end Dctl.ProofKit
