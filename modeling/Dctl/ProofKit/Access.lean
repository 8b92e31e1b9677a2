import Dctl.ProofKit.Checks
import Dctl.ProofKit.Bytes

/-! Reads by index.  A program that reads outside its bytes stops without a value and without an
error of its own; `Safe` says that a computation never does. -/

namespace Dctl.ProofKit

/-- Why a computation has no value: it answered with an error, or it read outside the bytes. -/
inductive Halt (ε : Type) where
  | error (e : ε)
  | outOfBounds
  deriving DecidableEq, Repr

namespace Access

variable {ε α β : Type}

/-- `return Err(e)` if `bad` holds. -/
def check (bad : Prop) [Decidable bad] (e : ε) : Except (Halt ε) Unit :=
  reject bad (.error e)

def index (bs : Bytes) (i : Nat) : Except (Halt ε) UInt8 :=
  if i < bs.length then .ok (byteAt bs i) else .error .outOfBounds

def slice (bs : Bytes) (start n : Nat) : Except (Halt ε) Bytes :=
  if start + n ≤ bs.length then .ok ((bs.drop start).take n) else .error .outOfBounds

def block (n : Nat) (bs : Bytes) (start : Nat) : Except (Halt ε) (Block n) :=
  if start + n ≤ bs.length then .ok (Block.slice n bs start) else .error .outOfBounds

def number (bs : Bytes) (start n : Nat) : Except (Halt ε) Nat :=
  if start + n ≤ bs.length then .ok (leAt bs start n) else .error .outOfBounds

/-- A computation that reads only inside the bytes. -/
def Safe (x : Except (Halt ε) α) : Prop := x ≠ .error .outOfBounds

variable {bs : Bytes} {start i n : Nat}

@[simp] theorem check_eq_ok {bad : Prop} [Decidable bad] {e : ε} {u : Unit} :
    check bad e = .ok u ↔ ¬bad := by
  simp [check]

@[simp] theorem index_eq_ok {b : UInt8} :
    (index bs i : Except (Halt ε) UInt8) = .ok b ↔ i < bs.length ∧ byteAt bs i = b := by
  unfold index
  split <;> simp [*]

@[simp] theorem slice_eq_ok {part : Bytes} :
    (slice bs start n : Except (Halt ε) Bytes) = .ok part ↔
      start + n ≤ bs.length ∧ (bs.drop start).take n = part := by
  unfold slice
  split <;> simp [*]

@[simp] theorem block_eq_ok {b : Block n} :
    (block n bs start : Except (Halt ε) (Block n)) = .ok b ↔
      start + n ≤ bs.length ∧ Block.slice n bs start = b := by
  unfold block
  split <;> simp [*]

@[simp] theorem number_eq_ok {v : Nat} :
    (number bs start n : Except (Halt ε) Nat) = .ok v ↔
      start + n ≤ bs.length ∧ leAt bs start n = v := by
  unfold number
  split <;> simp [*]

theorem safe_pure (a : α) : Safe (pure a : Except (Halt ε) α) := by
  intro h
  cases h

theorem safe_check (bad : Prop) [Decidable bad] (e : ε) : Safe (check bad e) := by
  unfold check reject
  split <;> intro h <;> cases h

theorem safe_okOr (e : ε) (o : Option α) : Safe (okOr (.error e) o) := by
  cases o <;> intro h <;> cases h

theorem safe_index (h : i < bs.length) : Safe (index bs i : Except (Halt ε) UInt8) := by
  unfold index
  rw [if_pos h]
  intro hf
  cases hf

section

variable (h : start + n ≤ bs.length)
include h

theorem safe_slice : Safe (slice bs start n : Except (Halt ε) Bytes) := by
  unfold slice
  rw [if_pos h]
  intro hf
  cases hf

theorem safe_block : Safe (block n bs start : Except (Halt ε) (Block n)) := by
  unfold block
  rw [if_pos h]
  intro hf
  cases hf

theorem safe_number : Safe (number bs start n : Except (Halt ε) Nat) := by
  unfold number
  rw [if_pos h]
  intro hf
  cases hf

end

theorem safe_bind {x : Except (Halt ε) α} {f : α → Except (Halt ε) β} (hx : Safe x)
    (hf : ∀ a, x = .ok a → Safe (f a)) : Safe (x >>= f) := by
  cases x with
  | error e =>
    intro h
    apply hx
    rw [error_bind, Except.error.injEq] at h
    rw [h]
  | ok a => exact hf a rfl

end Access

end Dctl.ProofKit
