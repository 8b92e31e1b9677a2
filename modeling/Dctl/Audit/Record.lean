import Dctl.ProofKit.Hex
import Dctl.ProofKit.Text

/-! Audit records (`audit/record.rs`) and the scrub that every string passes on its way into one
(`audit/redaction.rs`). -/

namespace Dctl.Audit

open ProofKit List

@[simp, reducible] def auditRecordVersion : UInt32 := 2
@[simp, reducible] def auditRecordVersionLegacy : UInt32 := 1
@[simp, reducible] def hashHexLenBlake3 : Nat := 64
def auditChainGenesisPrev : String :=
  "0000000000000000000000000000000000000000000000000000000000000000"
def auditHashFieldSeparator : Char := Char.ofNat 0x1f
def auditControlEscapePrefix : String := "\\u"

def isControl (c : Char) : Bool := c.toNat < 0x20 ∨ (0x7f ≤ c.toNat ∧ c.toNat < 0xa0)

def escapeControl (c : Char) : List Char :=
  auditControlEscapePrefix.toList ++ [3, 2, 1, 0].map fun i => hexDigit (c.toNat / 16 ^ i % 16)

def escapeControls (chars : List Char) : List Char :=
  chars.flatMap fun c => if isControl c then escapeControl c else [c]

structure Scrubbed where
  text : String
  clean : ∀ c ∈ text.toList, isControl c = false
  deriving DecidableEq

theorem isControl_hexDigit {n : Nat} (h : n < 16) : isControl (hexDigit n) = false := by
  revert n
  decide

theorem isControl_of_mem_escapeControl {c d : Char} (h : d ∈ escapeControl c) :
    isControl d = false := by
  have hpre : auditControlEscapePrefix.toList.any isControl = false := by decide
  rcases mem_append.mp h with h | h
  · simpa using any_eq_false.mp hpre d h
  · obtain ⟨i, -, rfl⟩ := mem_map.mp h
    apply isControl_hexDigit
    exact Nat.mod_lt _ (by decide)

theorem isControl_of_mem_escapeControls {chars : List Char} {d : Char}
    (h : d ∈ escapeControls chars) : isControl d = false := by
  obtain ⟨c, -, hd⟩ := mem_flatMap.mp h
  by_cases hc : isControl c = true
  · rw [if_pos hc] at hd
    exact isControl_of_mem_escapeControl hd
  · rw [if_neg hc, mem_singleton] at hd
    rw [hd]
    simpa using hc

def field (value : String) : Scrubbed :=
  if h : value.toList.any isControl = false then ⟨value, by simpa using h⟩
  else ⟨String.ofList (escapeControls value.toList), by
    rw [String.toList_ofList]
    intro c hc
    exact isControl_of_mem_escapeControls hc⟩

structure AuditRecord where
  v : Option UInt32
  index : UInt64
  time : String
  op : String
  result : String
  direction : String
  path : String
  size : UInt64
  bytes : UInt64
  objects : UInt64
  plaintextHash : String
  ciphertextHash : String
  remote : String
  prev : String
  hash : String
  deriving DecidableEq

def AuditRecord.version (record : AuditRecord) : UInt32 :=
  match record.v with
  | some version => version
  | none => auditRecordVersionLegacy

def AuditRecord.isSupportedVersion (record : AuditRecord) : Bool :=
  auditRecordVersionLegacy ≤ record.version ∧ record.version ≤ auditRecordVersion

/-- What an operation says about itself.  Every setter of `Entry` scrubs the string it stores. -/
structure Entry where
  time : Scrubbed
  op : Scrubbed
  result : Scrubbed
  direction : Scrubbed
  path : Scrubbed
  size : UInt64
  bytes : UInt64
  objects : UInt64
  plaintextHash : Scrubbed
  ciphertextHash : Scrubbed
  remote : Scrubbed
  deriving DecidableEq

def isAsciiHexdigit (b : UInt8) : Bool :=
  (0x30 ≤ b ∧ b ≤ 0x39) ∨ (0x41 ≤ b ∧ b ≤ 0x46) ∨ (0x61 ≤ b ∧ b ≤ 0x66)

def isWellFormedHash (value : String) : Bool :=
  (utf8 value).length = hashHexLenBlake3 ∧ (utf8 value).all isAsciiHexdigit

/-- The string does not contain the separator of the canonical form. -/
def Separate (s : String) : Prop := auditHashFieldSeparator ∉ s.toList

instance (s : String) : Decidable (Separate s) := inferInstanceAs (Decidable (_ ∉ _))

theorem mem_utf8_of_not_separate {s : String} (h : ¬Separate s) : 0x1f ∈ utf8 s := by
  obtain ⟨before, after, hsplit⟩ := append_of_mem (not_not.mp h)
  have hs : s = String.ofList before ++ (String.singleton auditHashFieldSeparator ++
      String.ofList after) := by
    apply String.toList_injective
    simp [hsplit]
  rw [hs, utf8_append, utf8_append]
  apply mem_append_right
  apply mem_append_left
  decide

theorem separate_of_isWellFormedHash {value : String} (h : isWellFormedHash value = true) :
    Separate value := by
  by_contra hsep
  simp only [isWellFormedHash, decide_eq_true_eq, all_eq_true] at h
  have := h.2 _ (mem_utf8_of_not_separate hsep)
  revert this
  decide

theorem separate_repr (n : Nat) : Separate n.repr := by
  intro hsep
  rw [Nat.toList_repr] at hsep
  have := Nat.isDigit_of_mem_toDigits (by decide) (by decide) hsep
  revert this
  decide

end Dctl.Audit
