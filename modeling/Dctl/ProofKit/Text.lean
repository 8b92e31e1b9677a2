import Dctl.ProofKit.Bytes

/-! Strings as the byte strings that encode them (`String::as_bytes` and `String::from_utf8`), and
lists of fields joined by a separator. -/

namespace Dctl.ProofKit

def utf8 (s : String) : Bytes := s.toByteArray.data.toList

def fromUtf8 (bs : Bytes) : Option String := String.fromUTF8? ⟨bs.toArray⟩

theorem fromUtf8_eq_some {bs : Bytes} {s : String} : fromUtf8 bs = some s ↔ utf8 s = bs := by
  constructor
  · intro h
    simp only [fromUtf8, String.fromUTF8?] at h
    split at h
    next hvalid =>
      cases h
      rfl
    next => cases h
  · rintro rfl
    have hbytes : (⟨(utf8 s).toArray⟩ : ByteArray) = s.toByteArray := by simp [utf8]
    simp only [fromUtf8, String.fromUTF8?, hbytes, s.isValidUTF8, ↓reduceDIte]
    rfl

@[simp] theorem fromUtf8_utf8 (s : String) : fromUtf8 (utf8 s) = some s :=
  fromUtf8_eq_some.mpr rfl

theorem utf8_injective {s t : String} (h : utf8 s = utf8 t) : s = t := by
  have := fromUtf8_utf8 s
  rw [h, fromUtf8_utf8] at this
  exact (Option.some.inj this).symm

@[simp] theorem utf8_inj {s t : String} : utf8 s = utf8 t ↔ s = t :=
  ⟨utf8_injective, fun h => h ▸ rfl⟩

@[simp] theorem utf8_empty : utf8 "" = [] := rfl

@[simp] theorem utf8_eq_nil {s : String} : utf8 s = [] ↔ s = "" := by
  rw [← utf8_empty, utf8_inj]

theorem utf8_append (s t : String) : utf8 (s ++ t) = utf8 s ++ utf8 t := by
  simp [utf8]

theorem utf8_ofList (cs : List Char) :
    utf8 (String.ofList cs) = cs.flatMap String.utf8EncodeChar := by
  simp [utf8, List.utf8Encode]

theorem mem_utf8EncodeChar {c : Char} {b : UInt8} (hb : b.toNat < 0x80)
    (h : b ∈ String.utf8EncodeChar c) : c.toNat = b.toNat := by
  rw [String.utf8EncodeChar] at h
  split at h
  next hlow =>
    rw [List.mem_singleton] at h
    rw [h, UInt8.toNat_ofNat', Nat.mod_eq_of_lt (by omega)]
    rfl
  next =>
    exfalso
    split at h
    · simp only [List.mem_cons, List.not_mem_nil, or_false] at h
      rcases h with rfl | rfl <;>
        · rw [UInt8.toNat_ofNat'] at hb
          omega
    split at h
    · simp only [List.mem_cons, List.not_mem_nil, or_false] at h
      rcases h with rfl | rfl | rfl <;>
        · rw [UInt8.toNat_ofNat'] at hb
          omega
    · simp only [List.mem_cons, List.not_mem_nil, or_false] at h
      rcases h with rfl | rfl | rfl | rfl <;>
        · rw [UInt8.toNat_ofNat'] at hb
          omega

theorem mem_utf8_ofList {cs : List Char} {b : UInt8} (hb : b.toNat < 0x80)
    (h : b ∈ utf8 (String.ofList cs)) : ∃ c ∈ cs, c.toNat = b.toNat := by
  rw [utf8_ofList] at h
  obtain ⟨c, hc, hmem⟩ := List.mem_flatMap.mp h
  exact ⟨c, hc, mem_utf8EncodeChar hb hmem⟩

theorem length_le_length_utf8 (cs : List Char) : cs.length ≤ (utf8 (String.ofList cs)).length := by
  rw [utf8_ofList]
  induction cs with
  | nil => exact Nat.le_refl _
  | cons c cs ih =>
    have hpos := c.utf8Size_pos
    rw [List.flatMap_cons, List.length_append, String.length_utf8EncodeChar, List.length_cons]
    omega

theorem length_utf8_le (cs : List Char) : (utf8 (String.ofList cs)).length ≤ 4 * cs.length := by
  rw [utf8_ofList]
  induction cs with
  | nil => exact Nat.le_refl _
  | cons c cs ih =>
    have hle := c.utf8Size_le_four
    rw [List.flatMap_cons, List.length_append, String.length_utf8EncodeChar, List.length_cons]
    omega

section Joined

variable {α : Type} {sep : α} {f g : List α} {fs gs : List (List α)}

theorem count_intercalate [DecidableEq α] (sep : α) (hfs : fs ≠ []) :
    ([sep].intercalate fs).count sep + 1 = fs.length + (fs.map (List.count sep)).sum := by
  induction fs with
  | nil => exact absurd rfl hfs
  | cons f fs ih =>
    by_cases hrest : fs = []
    · subst hrest
      simp
      omega
    · have := ih hrest
      rw [List.intercalate_cons_of_ne_nil hrest]
      simp only [List.count_append, List.count_singleton_self, List.length_cons, List.map_cons,
        List.sum_cons]
      omega

theorem sum_count_eq_zero [DecidableEq α] :
    (fs.map (List.count sep)).sum = 0 ↔ ∀ f ∈ fs, sep ∉ f := by
  rw [List.sum_eq_zero_iff_forall_eq_nat, List.forall_mem_map]
  simp only [List.count_eq_zero]

theorem intercalate_inj [DecidableEq α] (hfs : ∀ f ∈ fs, sep ∉ f) (hlen : fs.length = gs.length)
    (h : [sep].intercalate fs = [sep].intercalate gs) : fs = gs := by
  by_cases hne : fs = []
  · rw [hne] at hlen ⊢
    exact (List.length_eq_zero_iff.mp hlen.symm).symm
  have hne' : gs ≠ [] := by
    intro hgs
    rw [hgs, List.length_nil, List.length_eq_zero_iff] at hlen
    exact hne hlen
  have hgs : ∀ g ∈ gs, sep ∉ g := by
    have hfields := count_intercalate sep hne
    have hfields' := count_intercalate sep hne'
    rw [h, sum_count_eq_zero.mpr hfs] at hfields
    apply sum_count_eq_zero.mp
    omega
  rw [← List.splitOn_intercalate sep hfs hne, h, List.splitOn_intercalate sep hgs hne']

theorem head_intercalate_inj [DecidableEq α] (hf : sep ∉ f) (hg : sep ∉ g) (hfs : fs ≠ [])
    (hgs : gs ≠ []) (h : [sep].intercalate (f :: fs) = [sep].intercalate (g :: gs)) : f = g := by
  rw [List.intercalate_cons_of_ne_nil hfs, List.intercalate_cons_of_ne_nil hgs, List.append_assoc,
    List.append_assoc] at h
  have hsplit := congrArg (List.splitOn sep) h
  rw [List.singleton_append, List.singleton_append, List.splitOn_append_cons_self_of_not_mem hf,
    List.splitOn_append_cons_self_of_not_mem hg] at hsplit
  exact (List.cons.inj hsplit).1

end Joined

theorem repr_injective {m n : Nat} (h : m.repr = n.repr) : m = n := by
  have hdigits := congrArg String.toList h
  rw [Nat.toList_repr, Nat.toList_repr] at hdigits
  rw [← Nat.ofDigitChars_ten_toDigits (n := m), hdigits, Nat.ofDigitChars_ten_toDigits]

end Dctl.ProofKit
