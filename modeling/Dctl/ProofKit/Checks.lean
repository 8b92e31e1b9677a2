import Mathlib.Algebra.Group.Nat.Defs
import Mathlib.Data.List.Forall2

/-! Checked computations: what it takes for a chain of checks in `Except` to succeed.  A function
that refuses bad input one test at a time is inverted by `simp` with the lemmas of this module,
which leaves the tests it passed and the value it returned. -/

namespace Dctl.ProofKit

open List

variable {ε α β : Type}

/-- Refuse with `e` if `bad` holds: `if bad { return Err(e) }`. -/
def reject (bad : Prop) [Decidable bad] (e : ε) : Except ε Unit :=
  if bad then .error e else .ok ()

def okOr (e : ε) : Option α → Except ε α
  | none => .error e
  | some a => .ok a

/-- The result of checked 64-bit arithmetic: `none` past the width of `u64`. -/
def checkedU64 (n : Nat) : Option Nat := if n < 2 ^ 64 then some n else none

/-- The largest `u64`, where saturating arithmetic stops. -/
@[simp, reducible] def maxU64 : Nat := 2 ^ 64 - 1

def satAdd (a b : Nat) : Nat := min (a + b) maxU64

def satMul (a b : Nat) : Nat := min (a * b) maxU64

@[simp] theorem reject_eq_ok {bad : Prop} [Decidable bad] {e : ε} {u : Unit} :
    reject bad e = .ok u ↔ ¬bad := by
  by_cases h : bad <;> simp [reject, h]

@[simp] theorem okOr_eq_ok {e : ε} {o : Option α} {a : α} : okOr e o = .ok a ↔ o = some a := by
  cases o <;> simp [okOr]

@[simp] theorem bind_eq_ok {x : Except ε α} {f : α → Except ε β} {b : β} :
    (x >>= f) = .ok b ↔ ∃ a, x = .ok a ∧ f a = .ok b := by
  cases x <;> simp [bind, Except.bind]

@[simp] theorem map_eq_ok {x : Except ε α} {f : α → β} {b : β} :
    f <$> x = .ok b ↔ ∃ a, x = .ok a ∧ f a = b := by
  cases x <;> simp [Functor.map, Except.map]

@[simp] theorem pure_eq_ok {a b : α} : (pure a : Except ε α) = .ok b ↔ a = b := by
  simp [pure, Except.pure]

@[simp] theorem throw_ne_ok {e : ε} {a : α} : (throw e : Except ε α) ≠ .ok a := by
  simp [throw, throwThe, MonadExceptOf.throw]

@[simp] theorem ok_bind (a : α) (f : α → Except ε β) : (Except.ok a >>= f) = f a := rfl

@[simp] theorem error_bind (e : ε) (f : α → Except ε β) :
    ((Except.error e : Except ε α) >>= f) = .error e := rfl

@[simp] theorem mapError_eq_ok {ε' : Type} {g : ε → ε'} {x : Except ε α} {a : α} :
    x.mapError g = .ok a ↔ x = .ok a := by
  cases x <;> simp [Except.mapError]

theorem toOption_eq_some {x : Except ε α} {a : α} : x.toOption = some a ↔ x = .ok a := by
  cases x <;> simp [Except.toOption]

theorem forM_eq_ok {f : α → Except ε Unit} {l : List α} :
    l.forM f = .ok () ↔ ∀ a ∈ l, f a = .ok () := by
  induction l with
  | nil => simp [List.forM, pure, Except.pure]
  | cons a l ih =>
    show (f a >>= fun _ => l.forM f) = .ok () ↔ _
    rw [bind_eq_ok]
    constructor
    · rintro ⟨_, ha, hl⟩
      exact forall_mem_cons.mpr ⟨ha, ih.mp hl⟩
    · intro h
      obtain ⟨ha, hl⟩ := forall_mem_cons.mp h
      exact ⟨(), ha, ih.mpr hl⟩

theorem mapM_eq_ok {f : α → Except ε β} {l : List α} (h : ∀ a ∈ l, ∃ b, f a = .ok b) :
    l.mapM f = .ok (l.filterMap fun a => (f a).toOption) := by
  induction l with
  | nil => rfl
  | cons a l ih =>
    obtain ⟨b, hb⟩ := h a (mem_cons_self ..)
    rw [mapM_cons, hb, ih fun a ha => h a (mem_cons_of_mem _ ha), ok_bind, ok_bind,
      filterMap_cons, hb]
    rfl

theorem mapM_eq_ok_iff {f : α → Except ε β} {l : List α} {bs : List β} :
    l.mapM f = .ok bs ↔ List.Forall₂ (fun a b => f a = .ok b) l bs := by
  induction l generalizing bs with
  | nil =>
    rw [mapM_nil, pure_eq_ok, List.forall₂_nil_left_iff, eq_comm]
  | cons a l ih =>
    rw [mapM_cons]
    simp only [bind_eq_ok, pure_eq_ok, ih]
    constructor
    · intro h
      obtain ⟨b, hb, rest, hrest, rfl⟩ := h
      exact List.Forall₂.cons hb hrest
    · intro h
      cases h with
      | cons hb hrest => exact ⟨_, hb, _, hrest, rfl⟩

end Dctl.ProofKit
