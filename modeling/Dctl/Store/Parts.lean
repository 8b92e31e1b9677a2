import Dctl.ProofKit.Machine
import Dctl.Store.LargeFile

/-! The plan of a multipart upload (`streaming.rs`): the part size that a provider's limits allow,
and the parts it cuts an object into.  The loop that cuts counts its parts in 32 bits, so the plan
that was chosen is also walked with the machine's arithmetic. -/

namespace Dctl.Store.B2

open ProofKit Machine

variable {ε : Type} {total p offset number : Nat}

/-- The loop of `plan_parts` in the arithmetic of its own types: `offset` in 64 bits, `number` in
32.  A sum that does not trap is the exact one. -/
def partsFromU32 (total partSize offset number : Nat) : Except (Trap ε) (List PartSpan) :=
  if _h : offset < total then do
    let len := min (max partSize 1) (total - offset)
    let _ ← add 64 offset len
    let _ ← add 32 number 1
    let rest ← partsFromU32 total partSize (offset + len) (number + 1)
    pure (⟨number, offset, len⟩ :: rest)
  else pure []
termination_by total - offset

def planPartsU32 (total partSize : Nat) : Except (Trap ε) (List PartSpan) :=
  partsFromU32 total partSize 0 1

theorem partsFrom_of_lt (h : offset < total) : partsFrom total p offset number =
    ⟨number, offset, min (max p 1) (total - offset)⟩ ::
      partsFrom total p (offset + min (max p 1) (total - offset)) (number + 1) := by
  rw [partsFrom, dif_pos h]

theorem partsFrom_of_le (h : total ≤ offset) : partsFrom total p offset number = [] := by
  rw [partsFrom, dif_neg (by omega)]

theorem partsFromU32_eq (htotal : total < 2 ^ 64) (hnumber : number < 2 ^ 32) :
    (partsFromU32 total p offset number : Except (Trap ε) (List PartSpan)) =
      if number + (partsFrom total p offset number).length < 2 ^ 32
      then .ok (partsFrom total p offset number) else .error .overflow := by
  induction offset, number using partsFrom.induct total p with
  | case1 offset number hlt len ih =>
    have hlen : len = min (max p 1) (total - offset) := rfl
    rw [partsFromU32, dif_pos hlt, partsFrom_of_lt hlt]
    simp only [← hlen, add_of_lt (show offset + len < 2 ^ 64 by omega), ok_bind, List.length_cons]
    by_cases hnext : number + 1 < 2 ^ 32
    · rw [add_of_lt hnext, ok_bind, ih hnext]
      simp only [Nat.add_assoc, Nat.add_comm 1]
      split
      · rfl
      · rfl
    · rw [add_of_le (by omega), if_neg (by omega)]
      rfl
  | case2 offset number hge =>
    rw [partsFromU32, dif_neg hge, partsFrom_of_le (by omega), if_pos (by simpa using hnumber)]
    rfl

theorem planPartsU32_eq (htotal : total < 2 ^ 64) :
    (planPartsU32 total p : Except (Trap ε) (List PartSpan)) =
      if (planParts total p).length + 1 < 2 ^ 32 then .ok (planParts total p)
      else .error .overflow := by
  rw [planPartsU32, partsFromU32_eq htotal (by decide), planParts, Nat.add_comm 1]

/-- The parts cover `[offset, total)` one behind the other, with numbers that count on from
`number`: each of `p` bytes, but for a last one of at least one byte and at most `p`. -/
def Tiles (total p : Nat) : Nat → Nat → List PartSpan → Prop
  | offset, _, [] => offset = total
  | offset, number, part :: rest =>
    part.offset = offset ∧ part.number = number ∧ 0 < part.len ∧ part.len ≤ p ∧
      (rest ≠ [] → part.len = p) ∧ Tiles total p (offset + part.len) (number + 1) rest

theorem partsFrom_eq_nil : partsFrom total p offset number = [] ↔ total ≤ offset := by
  refine ⟨fun h => ?_, partsFrom_of_le⟩
  by_contra hlt
  rw [partsFrom_of_lt (by omega)] at h
  exact List.cons_ne_nil _ _ h

theorem tiles_partsFrom (hp : 0 < p ∨ total = 0) (hoffset : offset ≤ total) :
    Tiles total p offset number (partsFrom total p offset number) := by
  induction offset, number using partsFrom.induct total p with
  | case1 offset number hlt len ih =>
    rw [partsFrom_of_lt hlt]
    refine ⟨rfl, rfl, ?_, ?_, fun hrest => ?_, ih ?_⟩
    · show 0 < min (max p 1) (total - offset)
      omega
    · show min (max p 1) (total - offset) ≤ p
      omega
    · rw [ne_eq, partsFrom_eq_nil] at hrest
      show min (max p 1) (total - offset) = p
      omega
    · show offset + min (max p 1) (total - offset) ≤ total
      omega
  | case2 offset number hge =>
    rw [partsFrom_of_le (by omega)]
    exact (by omega : offset = total)

theorem length_partsFrom_le (hp : 0 < p) {n : Nat} :
    (partsFrom total p offset number).length ≤ n ↔ total ≤ offset + n * p := by
  induction n generalizing offset number with
  | zero =>
    rw [Nat.le_zero, List.length_eq_zero_iff, partsFrom_eq_nil]
    omega
  | succ n ih =>
    by_cases hlt : offset < total
    · rw [partsFrom_of_lt hlt, List.length_cons, Nat.add_le_add_iff_right, ih, Nat.succ_mul]
      omega
    · rw [partsFrom_of_le (by omega)]
      exact iff_of_true (Nat.zero_le _) (by omega)

variable {basePart minPart maxPart maxParts : Nat}

theorem adaptivePartSize_eq_ok (hmin : minPart ≤ basePart) (hcap : 1 ≤ maxParts) :
    adaptivePartSize total basePart minPart maxPart maxParts = .ok p ↔
      p = max basePart ((total + maxParts - 1) / maxParts) ∧ p ≤ maxPart := by
  have hpart : max (max basePart ((total + maxParts - 1) / maxParts)) minPart =
      max basePart ((total + maxParts - 1) / maxParts) := by omega
  simp only [adaptivePartSize, Nat.max_eq_left hcap, hpart]
  split
  next hover =>
    simp only [reduceCtorEq, false_iff]
    omega
  next hfit =>
    rw [Except.ok.injEq]
    omega

theorem ceil_le_iff (hcap : 1 ≤ maxParts) {k : Nat} :
    (total + maxParts - 1) / maxParts ≤ k ↔ total ≤ k * maxParts := by
  rw [← Nat.lt_add_one_iff, Nat.div_lt_iff_lt_mul hcap, Nat.succ_mul]
  omega

theorem adaptivePartSize_error_iff (hmin : minPart ≤ basePart) (hmax : basePart ≤ maxPart)
    (hcap : 1 ≤ maxParts) :
    (∃ e, adaptivePartSize total basePart minPart maxPart maxParts = .error e) ↔
      maxPart * maxParts < total := by
  rw [← not_le, ← ceil_le_iff hcap]
  cases hsize : adaptivePartSize total basePart minPart maxPart maxParts with
  | error e =>
    have hnone : ¬((total + maxParts - 1) / maxParts ≤ maxPart) := fun hle => by
      have hok : adaptivePartSize total basePart minPart maxPart maxParts = .ok _ :=
        (adaptivePartSize_eq_ok hmin hcap).mpr ⟨rfl, Nat.max_le.mpr ⟨hmax, hle⟩⟩
      rw [hsize] at hok
      exact nomatch hok
    exact iff_of_true ⟨e, rfl⟩ hnone
  | ok p =>
    obtain ⟨rfl, hle⟩ := (adaptivePartSize_eq_ok hmin hcap).mp hsize
    exact iff_of_false nofun (not_not.mpr ((Nat.le_max_right _ _).trans hle))

/-- The chosen part size keeps to the provider's limits, and the plan it gives is never longer than
the cap.  The loop's 32-bit counter runs over only for a plan of `2 ^ 32 - 1` parts or more. -/
theorem adaptive_plan (hmin : minPart ≤ basePart) (hmax : basePart ≤ maxPart)
    (hcap : 1 ≤ maxParts) (htotal : total < 2 ^ 64) :
    ((∃ e, adaptivePartSize total basePart minPart maxPart maxParts = .error e) ↔
      maxPart * maxParts < total) ∧
    ∀ p, adaptivePartSize total basePart minPart maxPart maxParts = .ok p →
      minPart ≤ p ∧ p ≤ maxPart ∧ Tiles total p 0 1 (planParts total p) ∧
        (planParts total p).length ≤ maxParts ∧
        (planPartsU32 total p : Except (Trap ε) (List PartSpan)) =
          if (planParts total p).length + 1 < 2 ^ 32 then .ok (planParts total p)
          else .error .overflow := by
  refine ⟨adaptivePartSize_error_iff hmin hmax hcap, fun p hsize => ?_⟩
  obtain ⟨hp, hle⟩ := (adaptivePartSize_eq_ok hmin hcap).mp hsize
  have hneeded : total ≤ p * maxParts := (ceil_le_iff hcap).mp (by omega)
  have hpos : 0 < p ∨ total = 0 := by
    by_cases hzero : p = 0
    · rw [hzero, Nat.zero_mul] at hneeded
      exact .inr (by omega)
    · exact .inl (by omega)
  refine ⟨by omega, hle, tiles_partsFrom hpos (Nat.zero_le _), ?_, planPartsU32_eq htotal⟩
  rcases hpos with hpos | rfl
  · rw [planParts, length_partsFrom_le hpos, Nat.zero_add, Nat.mul_comm]
    exact hneeded
  · rw [planParts, partsFrom_of_le (Nat.le_refl _)]
    exact Nat.zero_le _

theorem adaptive_plan_twelve : Tiles 12 5 0 1 (planParts 12 5) ∧
    (planPartsU32 12 5 : Except (Trap StoreError) (List PartSpan)) =
      .ok [⟨1, 0, 5⟩, ⟨2, 5, 5⟩, ⟨3, 10, 2⟩] := by
  have hplan : planParts 12 5 = [⟨1, 0, 5⟩, ⟨2, 5, 5⟩, ⟨3, 10, 2⟩] := by
    simp [planParts, partsFrom]
  have hsize : adaptivePartSize 12 5 2 10 3 = .ok 5 := rfl
  obtain ⟨-, -, htiles, -, hrun⟩ :=
    (adaptive_plan (by decide) (by decide) (by decide) (by decide)).2 5 hsize
  refine ⟨htiles, hrun.trans ?_⟩
  rw [hplan]
  rfl

/-- With a cap past 32 bits the plan of a long object runs over its counter. -/
theorem plan_counter_overflows :
    adaptivePartSize (2 ^ 32) 1 1 1 (2 ^ 32) = .ok 1 ∧
      (planPartsU32 (2 ^ 32) 1 : Except (Trap StoreError) (List PartSpan)) = .error .overflow := by
  refine ⟨rfl, ?_⟩
  have hshort : ¬(planParts (2 ^ 32) 1).length ≤ 2 ^ 32 - 1 := by
    rw [planParts, length_partsFrom_le (by decide)]
    decide
  rw [planPartsU32_eq (by decide), if_neg (by omega)]

end Dctl.Store.B2
