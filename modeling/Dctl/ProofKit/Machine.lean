import Dctl.ProofKit.Checks

/-! Unsigned arithmetic of a fixed width.  An operation whose exact result does not fit traps, as in
a build that checks for overflow: the computation stops without a value and without an error of its
own.  A computation that does not trap has computed exact numbers. -/

namespace Dctl.ProofKit

/-- Why a computation has no value: it answered with an error, or its arithmetic overflowed. -/
inductive Trap (ε : Type) where
  | error (e : ε)
  | overflow
  deriving DecidableEq, Repr

namespace Machine

variable {ε α : Type}

def add (w a b : Nat) : Except (Trap ε) Nat :=
  if a + b < 2 ^ w then .ok (a + b) else .error .overflow

def mul (w a b : Nat) : Except (Trap ε) Nat :=
  if a * b < 2 ^ w then .ok (a * b) else .error .overflow

/-- `a - b`, whatever the width. -/
def sub (a b : Nat) : Except (Trap ε) Nat :=
  if b ≤ a then .ok (a - b) else .error .overflow

/-- A computation that reports its own overflows. -/
def lift (x : Except ε α) : Except (Trap ε) α := x.mapError .error

/-- Nothing that the computation did overflowed. -/
def Exact (x : Except (Trap ε) α) : Prop := x ≠ .error .overflow

variable {w a b : Nat}

theorem add_of_lt (h : a + b < 2 ^ w) : (add w a b : Except (Trap ε) Nat) = .ok (a + b) := if_pos h

theorem add_of_le (h : 2 ^ w ≤ a + b) : (add w a b : Except (Trap ε) Nat) = .error .overflow :=
  if_neg (by omega)

theorem mul_of_lt (h : a * b < 2 ^ w) : (mul w a b : Except (Trap ε) Nat) = .ok (a * b) := if_pos h

theorem sub_of_le (h : b ≤ a) : (sub a b : Except (Trap ε) Nat) = .ok (a - b) := if_pos h

theorem lift_bind {β : Type} (x : Except ε α) (f : α → Except ε β) :
    lift (x >>= f) = lift x >>= fun a => lift (f a) := by
  cases x <;> rfl

@[simp] theorem lift_eq_ok {x : Except ε α} {a : α} : lift x = .ok a ↔ x = .ok a := mapError_eq_ok

theorem exact_lift (x : Except ε α) : Exact (lift x) := by
  cases x <;> exact nofun

end Machine

end Dctl.ProofKit
