import Dctl.ProofKit.Bytes
import Mathlib.Data.List.Pairwise

/-! Reading an object of a declared size window by window.  Each window is asked for where the last
answer ended, and an answer may be shorter or longer than its window.  Positions wrap at `cap`.
What was read is the object, byte for byte in a window that was asked for, exactly if no answer was
longer than its window. -/

namespace Dctl.ProofKit

open List

/-- A window that was asked for, and what came. -/
structure ReadWindow where
  offset : Nat
  want : Nat
  bytes : Bytes

/-- The windows of a reading from a position on, and the position at the end. -/
inductive WindowChain (cap window size : Nat) : Nat → List ReadWindow → Nat → Prop
  | done {p : Nat} (h : ¬p < size) : WindowChain cap window size p [] p
  | next {p stop : Nat} {b : Bytes} {l : List ReadWindow} (h : p < size) (hb : b ≠ [])
      (rest : WindowChain cap window size ((p + b.length) % cap) l stop) :
      WindowChain cap window size p (⟨p, min window (size - p), b⟩ :: l) stop

def windowBytes (l : List ReadWindow) : Bytes := l.flatMap ReadWindow.bytes

/-- As many bytes as were declared, each of them out of a window that covers its place. -/
def WindowsCover (size : Nat) (l : List ReadWindow) : Prop :=
  (windowBytes l).length = size ∧ ∀ k b, (windowBytes l)[k]? = some b →
    ∃ w ∈ l, w.offset ≤ k ∧ k < w.offset + w.want ∧ w.bytes[k - w.offset]? = some b

variable {cap window size p stop : Nat} {l : List ReadWindow} {w w' : ReadWindow}

theorem windowBytes_cons : windowBytes (w :: l) = w.bytes ++ windowBytes l := flatMap_cons

theorem length_windowBytes_cons :
    (windowBytes (w :: l)).length = w.bytes.length + (windowBytes l).length := by
  rw [windowBytes_cons, length_append]

theorem WindowChain.cover (h : WindowChain cap window size p l stop) (hsize : size ≤ p ∨ size < cap)
    (hp : p ≤ size) (hfit : ∀ w ∈ l, w.bytes.length ≤ w.want) :
    stop = size ∧ p + (windowBytes l).length = size ∧ ∀ k b, (windowBytes l)[k]? = some b →
      ∃ w ∈ l, w.offset ≤ p + k ∧ p + k < w.offset + w.want ∧
        w.bytes[p + k - w.offset]? = some b := by
  induction h with
  | done hend => exact ⟨by omega, by rw [windowBytes, flatMap_nil, length_nil]; omega,
    fun k b hk => by cases hk⟩
  | @next p stop b l hlt hb rest ih =>
    obtain ⟨hlen, hfit⟩ := forall_mem_cons.mp hfit
    dsimp only at hlen
    have hmod : (p + b.length) % cap = p + b.length := Nat.mod_eq_of_lt (by omega)
    rw [hmod] at ih
    obtain ⟨hstop, hsum, hcover⟩ := ih (.inr (by omega)) (by omega) hfit
    refine ⟨hstop, by rw [length_windowBytes_cons]; dsimp only; omega, fun k c hk => ?_⟩
    rw [windowBytes_cons] at hk
    dsimp only at hk
    by_cases hfirst : k < b.length
    · rw [List.getElem?_append_left hfirst] at hk
      refine ⟨_, mem_cons_self, Nat.le_add_right _ _, by dsimp only; omega, ?_⟩
      dsimp only
      rwa [Nat.add_sub_cancel_left]
    · rw [List.getElem?_append_right (by omega)] at hk
      obtain ⟨w, hw, hle, hlt', hbyte⟩ := hcover _ _ hk
      have hplace : p + b.length + (k - b.length) = p + k := by omega
      rw [hplace] at hle hlt' hbyte
      exact ⟨w, mem_cons_of_mem _ hw, hle, hlt', hbyte⟩

/-- One window is answered before the other is asked for. -/
def ReadWindow.Before (w w' : ReadWindow) : Prop :=
  w.offset + w.bytes.length ≤ w'.offset ∧ w.offset + w.want ≤ w'.offset + w'.want

theorem WindowChain.ordered (h : WindowChain cap window size p l stop)
    (hcap : p + (windowBytes l).length < cap) :
    (∀ w ∈ l, p ≤ w.offset ∧ w.offset + w.bytes.length ≤ p + (windowBytes l).length ∧
      w.offset < size ∧
      w.want = min window (size - w.offset)) ∧ l.Pairwise ReadWindow.Before := by
  induction h with
  | done => exact ⟨forall_mem_nil _, List.Pairwise.nil⟩
  | @next p stop b l hlt hb rest ih =>
    rw [length_windowBytes_cons] at hcap ⊢
    dsimp only at hcap ⊢
    have hmod : (p + b.length) % cap = p + b.length := Nat.mod_eq_of_lt (by omega)
    rw [hmod] at ih
    obtain ⟨hplaces, hpairs⟩ := ih (by omega)
    refine ⟨forall_mem_cons.mpr ⟨by dsimp only; omega, fun w hw => ?_⟩,
      List.Pairwise.cons (fun w hw => ?_) hpairs⟩
    · have hplace := hplaces w hw
      omega
    · have hplace := hplaces w hw
      unfold ReadWindow.Before
      dsimp only
      omega

theorem WindowChain.fits_of_cover (h : WindowChain cap window size 0 l stop) (hsize : size < cap)
    (hcover : WindowsCover size l) : ∀ w ∈ l, w.bytes.length ≤ w.want := by
  obtain ⟨htotal, hbytes⟩ := hcover
  obtain ⟨hplaces, hpairs⟩ := h.ordered (by omega)
  intro w hw
  by_contra hlong
  obtain ⟨-, hend, -, -⟩ := hplaces w hw
  have hk : w.offset + w.want < (windowBytes l).length := by omega
  obtain ⟨w', hw', hle, hlt, -⟩ := hbytes _ _ (List.getElem?_eq_getElem hk)
  have hcases : w = w' ∨ w.Before w' ∨ w'.Before w := by
    have hsymm : l.Pairwise fun a b => a = b ∨ a.Before b ∨ b.Before a :=
      hpairs.imp fun hab => .inr (.inl hab)
    exact hsymm.forall_of_forall_of_flip (fun _ _ => .inl rfl)
      (hpairs.imp fun hab => .inr (.inr hab)) hw hw'
  rcases hcases with rfl | hbefore | hafter
  · omega
  · have hstart := hbefore.1
    omega
  · have hreach := hafter.2
    omega

theorem WindowChain.cover_iff (h : WindowChain cap window size 0 l stop) (hsize : size < cap) :
    WindowsCover size l ↔ ∀ w ∈ l, w.bytes.length ≤ w.want := by
  refine ⟨h.fits_of_cover hsize, fun hfit => ?_⟩
  obtain ⟨-, hsum, hcover⟩ := h.cover (.inr hsize) (Nat.zero_le _) hfit
  rw [Nat.zero_add] at hsum
  simp only [Nat.zero_add] at hcover
  exact ⟨hsum, hcover⟩

end Dctl.ProofKit
