import Dctl.ProofKit.Bytes

/-! Hexadecimal strings, and prefixes of strings. -/

namespace Dctl.ProofKit

def hexDigit (n : Nat) : Char :=
  if n < 10 then Char.ofNat (48 + n) else Char.ofNat (87 + n)

/-- The value of a digit in either case. -/
def hexValue (c : Char) : Option Nat :=
  if '0' ≤ c ∧ c ≤ '9' then some (c.toNat - 48)
  else if 'a' ≤ c ∧ c ≤ 'f' then some (c.toNat - 87)
  else if 'A' ≤ c ∧ c ≤ 'F' then some (c.toNat - 55)
  else none

def hexChars : Bytes → List Char
  | [] => []
  | b :: bs => hexDigit (b.toNat / 16) :: hexDigit (b.toNat % 16) :: hexChars bs

def hexBytes : List Char → Option Bytes
  | [] => some []
  | [_] => none
  | high :: low :: rest => do
    let h ← hexValue high
    let l ← hexValue low
    let bs ← hexBytes rest
    pure (UInt8.ofNat (16 * h + l) :: bs)

def hexEncode (bs : Bytes) : String := String.ofList (hexChars bs)

def hexDecode (s : String) : Option Bytes := hexBytes s.toList

theorem hexValue_hexDigit {n : Nat} (h : n < 16) : hexValue (hexDigit n) = some n := by
  revert n
  decide

theorem length_hexChars (bs : Bytes) : (hexChars bs).length = 2 * bs.length := by
  induction bs with
  | nil => rfl
  | cons b bs ih =>
    rw [hexChars, List.length_cons, List.length_cons, ih, List.length_cons]
    omega

theorem hexBytes_hexChars (bs : Bytes) : hexBytes (hexChars bs) = some bs := by
  induction bs with
  | nil => rfl
  | cons b bs ih =>
    have hb : b.toNat < 256 := b.toNat_lt
    have hsplit : 16 * (b.toNat / 16) + b.toNat % 16 = b.toNat := Nat.div_add_mod _ _
    have hhigh : hexValue (hexDigit (b.toNat / 16)) = some (b.toNat / 16) :=
      hexValue_hexDigit (by omega)
    have hlow : hexValue (hexDigit (b.toNat % 16)) = some (b.toNat % 16) :=
      hexValue_hexDigit (by omega)
    simp only [hexChars, hexBytes, hhigh, hlow, ih, Option.bind_eq_bind, Option.bind_some, hsplit,
      UInt8.ofNat_toNat]
    rfl

theorem length_hexEncode (bs : Bytes) : (hexEncode bs).toList.length = 2 * bs.length := by
  rw [hexEncode, String.toList_ofList, length_hexChars]

@[simp] theorem hexDecode_hexEncode (bs : Bytes) : hexDecode (hexEncode bs) = some bs := by
  rw [hexDecode, hexEncode, String.toList_ofList, hexBytes_hexChars]

@[simp] theorem hexEncode_inj {a b : Bytes} : hexEncode a = hexEncode b ↔ a = b := by
  constructor
  · intro h
    have hdec := hexDecode_hexEncode a
    rw [h, hexDecode_hexEncode] at hdec
    exact (Option.some.inj hdec).symm
  · rintro rfl
    rfl

def stripPrefix (p s : String) : Option String :=
  if p.toList <+: s.toList then some (String.ofList (s.toList.drop p.toList.length)) else none

@[simp] theorem stripPrefix_append (p s : String) : stripPrefix p (p ++ s) = some s := by
  rw [stripPrefix, String.toList_append, if_pos (List.prefix_append _ _), List.drop_left,
    String.ofList_toList]

theorem stripPrefix_eq_some {p s t : String} : stripPrefix p s = some t ↔ s = p ++ t := by
  constructor
  · intro h
    rw [stripPrefix] at h
    split at h
    next hpre =>
      obtain ⟨rest, hrest⟩ := hpre
      rw [← hrest, List.drop_left, Option.some.injEq] at h
      rw [← h, ← String.toList_inj, String.toList_append, String.toList_ofList, hrest]
    next => cases h
  · rintro rfl
    exact stripPrefix_append p t

theorem append_right_inj {p s t : String} : p ++ s = p ++ t ↔ s = t := by
  constructor
  · intro h
    have hstrip := stripPrefix_append p s
    rw [h, stripPrefix_append] at hstrip
    exact (Option.some.inj hstrip).symm
  · rintro rfl
    rfl

theorem append_inj_of_length {p q s t : String} (hlen : p.toList.length = q.toList.length)
    (h : p ++ s = q ++ t) : p = q ∧ s = t := by
  have hlist := congrArg String.toList h
  rw [String.toList_append, String.toList_append] at hlist
  obtain ⟨hp, hs⟩ := List.append_inj hlist hlen
  exact ⟨String.toList_inj.mp hp, String.toList_inj.mp hs⟩

theorem append_ne_append {p q : String} (hlen : p.toList.length = q.toList.length) (hne : p ≠ q)
    (s t : String) : p ++ s ≠ q ++ t :=
  fun h => hne (append_inj_of_length hlen h).1

end Dctl.ProofKit
