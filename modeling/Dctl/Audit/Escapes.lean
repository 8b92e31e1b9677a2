import Dctl.Audit.Chain

/-! Which strings the scrub of a record's fields keeps apart (`audit/redaction.rs`). -/

namespace Dctl.Audit

open ProofKit Crypto List

def Entry.withPath (entry : Entry) (path : String) : Entry := { entry with path := field path }

/-- Two texts differ only in control characters of one that the other spells out, by the prefix and
four digits. -/
inductive Respelled : List Char → List Char → Prop
  | nil : Respelled [] []
  | same {a b : List Char} (c : Char) : Respelled a b → Respelled (c :: a) (c :: b)
  | right {a b : List Char} (c : Char) : isControl c = true → Respelled a b →
      Respelled (c :: a) (escapeControl c ++ b)
  | left {a b : List Char} (c : Char) : isControl c = true → Respelled a b →
      Respelled (escapeControl c ++ a) (c :: b)

variable {a b rest text : List Char} {c d : Char}

theorem escapeControl_eq (c : Char) : escapeControl c = '\\' :: 'u' ::
    [hexDigit (c.toNat / 16 ^ 3 % 16), hexDigit (c.toNat / 16 ^ 2 % 16),
      hexDigit (c.toNat / 16 ^ 1 % 16),
      hexDigit (c.toNat / 16 ^ 0 % 16)] := rfl

theorem hexDigit_ne_escape {n : Nat} (h : n < 16) : hexDigit n ≠ '\\' := by
  revert n
  decide

theorem escapeControl_cons (c : Char) :
    ∃ digits, escapeControl c = '\\' :: digits ∧ '\\' ∉ digits := by
  refine ⟨_, escapeControl_eq c, ?_⟩
  have hdigit : ∀ i, hexDigit (c.toNat / 16 ^ i % 16) ≠ '\\' := fun i =>
    hexDigit_ne_escape (Nat.mod_lt _ (by decide))
  simp only [mem_cons, not_or, not_mem_nil, not_false_eq_true, and_true]
  exact ⟨by decide, (hdigit 3).symm, (hdigit 2).symm, (hdigit 1).symm, (hdigit 0).symm⟩

theorem hexDigit_injective {m n : Nat} (hm : m < 16) (hn : n < 16) (h : hexDigit m = hexDigit n) :
    m = n := by
  have hvalue := congrArg hexValue h
  rw [hexValue_hexDigit hm, hexValue_hexDigit hn] at hvalue
  exact Option.some.inj hvalue

theorem lt_of_isControl (h : isControl c = true) : c.toNat < 0xa0 := by
  simp only [isControl, decide_eq_true_eq] at h
  omega

theorem escapeControl_injective (hc : isControl c = true) (hd : isControl d = true)
    (h : escapeControl c = escapeControl d) : c = d := by
  have hlt := lt_of_isControl hc
  have hlt' := lt_of_isControl hd
  rw [escapeControl_eq, escapeControl_eq] at h
  simp only [List.cons.injEq, true_and, and_true] at h
  obtain ⟨-, -, hsixteens, hones⟩ := h
  have hhigh := hexDigit_injective (Nat.mod_lt _ (by decide)) (Nat.mod_lt _ (by decide)) hsixteens
  have hlow := hexDigit_injective (Nat.mod_lt _ (by decide)) (Nat.mod_lt _ (by decide)) hones
  apply Char.toNat_inj.mp
  omega

theorem escapeControls_control (h : isControl c = true) :
    escapeControls (c :: a) = escapeControl c ++ escapeControls a := by
  rw [escapeControls, flatMap_cons, if_pos h]
  rfl

theorem escapeControls_plain (h : isControl c = false) :
    escapeControls (c :: a) = c :: escapeControls a := by
  rw [escapeControls, flatMap_cons, if_neg (by simp [h])]
  rfl

theorem escapeControls_append (h : ∀ c ∈ text, isControl c = false) :
    escapeControls (text ++ a) = text ++ escapeControls a := by
  induction text with
  | nil => rfl
  | cons c text ih =>
    rw [cons_append, escapeControls_plain (h c mem_cons_self),
      ih fun d hd => h d (mem_cons_of_mem _ hd), cons_append]

theorem of_escapeControls_eq_append (htext : '\\' ∉ text) (h : escapeControls b = text ++ rest) :
    ∃ b', b = text ++ b' ∧ escapeControls b' = rest := by
  induction text generalizing b with
  | nil => exact ⟨b, rfl, h⟩
  | cons x text ih =>
    rw [mem_cons, not_or] at htext
    cases b with
    | nil => cases h
    | cons d b =>
      cases hd : isControl d with
      | true =>
        rw [escapeControls_control hd, escapeControl_eq, cons_append, cons_append] at h
        exact absurd (List.cons.inj h).1 htext.1
      | false =>
        rw [escapeControls_plain hd, cons_append] at h
        obtain ⟨rfl, hrest⟩ := List.cons.inj h
        obtain ⟨b', rfl, hb'⟩ := ih htext.2 hrest
        exact ⟨b', rfl, hb'⟩

theorem of_escapeControls_eq_escape (hd : isControl d = false)
    (h : escapeControls (d :: b) = escapeControl c ++ rest) :
    ∃ b', d :: b = escapeControl c ++ b' ∧ escapeControls b' = rest := by
  obtain ⟨digits, hescape, hdigits⟩ := escapeControl_cons c
  rw [escapeControls_plain hd, hescape, cons_append] at h
  obtain ⟨rfl, hrest⟩ := List.cons.inj h
  obtain ⟨b', rfl, hb'⟩ := of_escapeControls_eq_append hdigits hrest
  exact ⟨b', by rw [hescape, cons_append], hb'⟩

theorem Respelled.eq (h : Respelled a b) : escapeControls a = escapeControls b := by
  have hplain : ∀ c, ∀ d ∈ escapeControl c, isControl d = false :=
    fun c d => isControl_of_mem_escapeControl
  induction h with
  | nil => rfl
  | same c h ih =>
    cases hc : isControl c with
    | true => rw [escapeControls_control hc, escapeControls_control hc, ih]
    | false => rw [escapeControls_plain hc, escapeControls_plain hc, ih]
  | right c hc h ih => rw [escapeControls_control hc, escapeControls_append (hplain c), ih]
  | left c hc h ih => rw [escapeControls_control hc, escapeControls_append (hplain c), ih]

theorem escapeControls_cons_ne_nil (c : Char) (a : List Char) : escapeControls (c :: a) ≠ [] := by
  cases hc : isControl c with
  | true => rw [escapeControls_control hc, escapeControl_eq]; exact cons_ne_nil _ _
  | false => rw [escapeControls_plain hc]; exact cons_ne_nil _ _

/-- Texts that are scrubbed to one text are respelled: the first character of either is in the
other, or its escape is. -/
theorem respelled_of_eq (a b : List Char) (h : escapeControls a = escapeControls b) :
    Respelled a b := by
  match a, b with
  | [], [] => exact .nil
  | c :: a, [] => exact absurd h (escapeControls_cons_ne_nil c a)
  | [], d :: b => exact absurd h.symm (escapeControls_cons_ne_nil d b)
  | c :: a, d :: b =>
    cases hc : isControl c with
    | true =>
      rw [escapeControls_control hc] at h
      cases hd : isControl d with
      | true =>
        rw [escapeControls_control hd] at h
        obtain ⟨hescape, hrest⟩ := append_inj h rfl
        rw [escapeControl_injective hc hd hescape]
        exact .same d (respelled_of_eq a b hrest)
      | false =>
        obtain ⟨b', hb, hrest⟩ := of_escapeControls_eq_escape hd h.symm
        rw [hb]
        exact .right c hc (respelled_of_eq a b' hrest.symm)
    | false =>
      cases hd : isControl d with
      | true =>
        rw [escapeControls_control hd] at h
        obtain ⟨a', ha, hrest⟩ := of_escapeControls_eq_escape hc h
        have hshorter : a'.length ≤ a.length := by
          have hlen := congrArg List.length ha
          rw [length_cons, length_append, escapeControl_eq, length_cons] at hlen
          omega
        rw [ha]
        exact .left d hd (respelled_of_eq a' b hrest)
      | false =>
        rw [escapeControls_plain hc, escapeControls_plain hd] at h
        obtain ⟨rfl, hrest⟩ := List.cons.inj h
        exact .same c (respelled_of_eq a b hrest)
termination_by a.length

theorem toList_field (value : String) :
    (field value).text.toList = escapeControls value.toList := by
  unfold field
  split
  next h =>
    have hclean : ∀ c ∈ value.toList, isControl c = false := by simpa using h
    have happend := escapeControls_append (a := []) hclean
    rw [append_nil] at happend
    exact (happend.trans (append_nil _)).symm
  next => exact String.toList_ofList

/-- What the scrub promises of two strings: no control characters, and records that tell different
paths apart. -/
structure TellsApart (blake3 : Bytes → Digest) (a b : String) : Prop where
  clean : ∀ c ∈ (field a).text.toList ++ (field b).text.toList, isControl c = false
  apart : a ≠ b → (field a).text ≠ (field b).text
  recorded : a ≠ b → ∀ (entry : Entry) (index : UInt64) (previous : String),
    (sealEntry blake3 (entry.withPath a) index previous).path ≠
      (sealEntry blake3 (entry.withPath b) index previous).path

/-- Different strings are told apart unless one spells out control characters of the other. -/
theorem field_tellsApart_iff (blake3 : Bytes → Digest) (a b : String) :
    TellsApart blake3 a b ↔ (a ≠ b → ¬Respelled a.toList b.toList) := by
  constructor
  · intro h hne hrespelled
    apply h.apart hne
    apply String.toList_injective
    rw [toList_field, toList_field]
    exact hrespelled.eq
  · intro h
    have hapart : a ≠ b → (field a).text ≠ (field b).text := by
      intro hne heq
      refine h hne (respelled_of_eq _ _ ?_)
      rw [← toList_field, ← toList_field, heq]
    refine ⟨?_, hapart, fun hne _ _ _ => hapart hne⟩
    intro c hc
    rcases mem_append.mp hc with hc | hc
    · exact (field a).clean c hc
    · exact (field b).clean c hc

/-- A control character, and its escape spelled out. -/
theorem field_escape_collides : "\\u001f" ≠ String.singleton auditHashFieldSeparator ∧
    ¬TellsApart documentedBlake3 "\\u001f" (String.singleton auditHashFieldSeparator) :=
  ⟨by decide, fun h => h.apart (by decide) (by decide)⟩

end Dctl.Audit
