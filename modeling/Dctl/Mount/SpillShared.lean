import Dctl.Mount.SpillSteps

/-! What a spill and its readers keep while each step finds the offset where its caller left it.
The owner's steps do what the calls do that have the file for themselves. -/

namespace Dctl.Mount

open ProofKit Crypto Cli

variable {P : Primitives} {key : Key} {ι : Type} [DecidableEq ι]
  {s s' : Shared ι} {i : Option ι} {file content : Bytes} {index p : Nat}

def slotsOf (content : Bytes) : Nat := (content.length + frameLen - 1) / frameLen

theorem lt_slotsOf (h : index * frameLen < content.length) : index < slotsOf content := by
  unfold slotsOf
  simp only [frameLen] at *
  omega

theorem slotsOf_le (h : content.length ≤ index * frameLen) : slotsOf content ≤ index := by
  unfold slotsOf
  simp only [frameLen] at *
  omega

theorem slotsOf_mul_le (h : content.length ≤ index * frameLen) :
    slotsOf content * slotLen ≤ index * slotLen := Nat.mul_le_mul_right slotLen (slotsOf_le h)

theorem slot_end_le {blob : Bytes} (h : index * frameLen < content.length)
    (hblob : blob.length ≤ slotLen) :
    index * slotLen + blob.length ≤ slotsOf content * slotLen := by
  have hmul := Nat.mul_le_mul_right slotLen (lt_slotsOf h)
  rw [Nat.succ_mul] at hmul
  omega

theorem length_blob_le (hP : P.Lawful) {nonce : Nonce} {plain blob : Bytes}
    (h : Aead.encrypt P key nonce plain (frameAad index) = .ok blob)
    (hplain : plain.length ≤ frameLen) : blob.length ≤ slotLen := by
  rw [length_blob hP h]
  simp only [slotLen]
  omega

theorem Sealed.keeps (hP : P.Lawful) (h : Sealed P key file content) {file' : Bytes}
    (hkeep : KeepsBelow (slotsOf content * slotLen) file file') : Sealed P key file' content := by
  intro index hin
  obtain ⟨nonce, blob, hseal, hstands⟩ := h index hin
  have hplain : (frameOf content index).length ≤ frameLen := by
    rw [length_frameOf]
    exact Nat.min_le_left ..
  exact ⟨nonce, blob, hseal,
    hkeep.stands hstands (slot_end_le hin (length_blob_le hP hseal hplain))⟩

theorem Sealed.length_le (hP : P.Lawful) (h : Sealed P key file content) :
    content.length ≤ file.length + frameLen := by
  by_contra hlong
  have hin : (content.length - 1) / frameLen * frameLen < content.length := by
    simp only [frameLen] at *
    omega
  obtain ⟨nonce, blob, hseal, hstands⟩ := h _ hin
  have hpos : 0 < blob.length := by
    rw [length_blob hP hseal]
    simp only [overhead]
    omega
  have hfirst := hstands 0 hpos
  have hpast : file.length ≤ (content.length - 1) / frameLen * slotLen := by
    simp only [frameLen, overhead, slotLen] at *
    omega
  rw [Nat.add_zero, List.getElem?_eq_none hpast, List.getElem?_eq_getElem hpos] at hfirst
  cases hfirst

/-- Readers in use, and the spill between two calls, have their contents in the slots. -/
structure SpillSound (P : Primitives) (key : Key) (s : Shared ι) : Prop where
  landed : ∀ l ∈ s.landed, l.InSlot
  room : s.bytes.length ≤ maxOffset + slotLen
  idle : s.busy = false →
    Sealed P key s.bytes s.content ∧ s.head.len = s.content.length ∧ s.head.key = key
  views : ∀ j ∈ s.live, ∀ content, s.opened j = some content → Sealed P key s.bytes content

/-- What a caller relies on.  Only the owner changes the file, and not where a reader in use reads.
-/
def Relies : Option ι → Shared ι → Shared ι → Prop
  | none, s, s' => s'.bytes = s.bytes ∧ s'.mark none = s.mark none ∧ s'.busy = s.busy ∧
      s'.content = s.content ∧
      (s.busy = true → ∀ j ∈ s'.live, j ∈ s.live ∧ s'.opened j = s.opened j)
  | some j, s, s' => s'.mark (some j) = s.mark (some j) ∧ s'.opened j = s.opened j ∧
      (j ∈ s'.live ↔ j ∈ s.live) ∧
      (j ∈ s.live → ∀ content, s.opened j = some content →
        KeepsBelow (slotsOf content * slotLen) s.bytes s'.bytes)

abbrev placed (i : Option ι) : Prog.Server (Shared ι) Syscall Reply := (onFile i).given (InPlace i)

omit [DecidableEq ι] in
theorem Relies.refl (i : Option ι) (s : Shared ι) : Relies i s s := by
  cases i with
  | none => exact ⟨rfl, rfl, rfl, rfl, fun _ j hj => ⟨hj, rfl⟩⟩
  | some j => exact ⟨rfl, rfl, Iff.rfl, fun _ _ _ => KeepsBelow.refl _ _⟩

omit [DecidableEq ι] in
theorem Relies.trans (i : Option ι) (s s' s'' : Shared ι) (h : Relies i s s')
    (h' : Relies i s' s'') :
    Relies i s s'' := by
  cases i with
  | none =>
    obtain ⟨hbytes, hmark, hbusy, hcontent, hlive⟩ := h
    obtain ⟨hbytes', hmark', hbusy', hcontent', hlive'⟩ := h'
    refine ⟨hbytes'.trans hbytes, hmark'.trans hmark, hbusy'.trans hbusy,
      hcontent'.trans hcontent, ?_⟩
    intro hb j hj
    obtain ⟨hj', hopened'⟩ := hlive' (hbusy.trans hb) j hj
    obtain ⟨hj'', hopened⟩ := hlive hb j hj'
    exact ⟨hj'', hopened'.trans hopened⟩
  | some j =>
    obtain ⟨hmark, hopened, hlive, hkeep⟩ := h
    obtain ⟨hmark', hopened', hlive', hkeep'⟩ := h'
    refine ⟨hmark'.trans hmark, hopened'.trans hopened, hlive'.trans hlive, ?_⟩
    intro hj content hc
    exact (hkeep hj content hc).trans (hkeep' (hlive.mpr hj) content (hopened.trans hc))

omit [DecidableEq ι] in
theorem Relies.mark (h : Relies i s s') : s'.mark i = s.mark i := by
  cases i with
  | none => exact h.2.1
  | some j => exact h.1

theorem relies_moved {j : Option ι} (hne : j ≠ i) (s : Shared ι) (p : Nat) :
    Relies j s (s.moved i p) := by
  cases j with
  | none =>
    exact ⟨rfl, Function.update_of_ne hne _ _, rfl, rfl, fun _ _ hj => ⟨hj, rfl⟩⟩
  | some j =>
    exact ⟨Function.update_of_ne hne _ _, rfl, Iff.rfl, fun _ _ _ => KeepsBelow.refl _ _⟩

theorem SpillSound.moved (h : SpillSound P key s) (i : Option ι) (p : Nat) :
    SpillSound P key (s.moved i p) :=
  ⟨h.landed, h.room, h.idle, h.views⟩

theorem onFile_seek {start : Nat} {x : Unit} :
    onFile i s (.seek start) x s' ↔ start < maxOffset ∧ s' = s.moved i start := by
  cases i <;> exact Iff.rfl

theorem onFile_read {want : Nat} {got : Bytes} :
    onFile i s (.read want) got s' ↔ got = readAt s.bytes s.offset got.length ∧ got.length ≤ want ∧
      (got = [] → want = 0 ∨ s.bytes.length ≤ s.offset) ∧
        s' = s.moved i (s.offset + got.length) := by
  cases i <;> exact Iff.rfl

/-- What a caller knows and no other can change, whatever the offset is. -/
structure Local (i : Option ι) (L : Shared ι → Prop) : Prop where
  relies : ∀ s s', Relies i s s' → L s → L s'
  moved : ∀ s p, L s → L (s.moved i p)

theorem minds_seek {β : Type} {post : β → Shared ι → Prop} {start : Nat}
    {f : Unit → Prog Syscall Reply β} {L : Shared ι → Prop} (hL : Local i L) (hs : L s)
    (hf : ∀ s', L s' → s'.mark i = start → start < maxOffset →
      (f ()).Minds placed (SpillSound P key) Relies i post s') :
    (Prog.ask (Syscall.seek start) f).Minds placed (SpillSound P key) Relies i post s := by
  intro s1 hrely hI x s' hserve
  obtain ⟨hroom, rfl⟩ := onFile_seek.mp hserve.2
  exact ⟨hI.moved i start, fun j hne => relies_moved hne s1 start,
    hf _ (hL.moved s1 start (hL.relies s s1 hrely hs)) (Function.update_self ..) hroom⟩

theorem minds_lift {ε β γ : Type} {post : β → Shared ι → Prop}
    {post' : Except ε γ → Shared ι → Prop} {q : Prog Syscall Reply β}
    {f : β → Prog.Fallible Syscall Reply ε γ}
    (h : q.Minds placed (SpillSound P key) Relies i post s)
    (hf : ∀ b s', post b s' → (f b).run.Minds placed (SpillSound P key) Relies i post' s') :
    (ExceptT.lift q >>= f).run.Minds placed (SpillSound P key) Relies i post' s := by
  have hlift : (ExceptT.lift q : Prog.Fallible Syscall Reply ε β).run =
      q >>= fun b => .done (.ok b) := rfl
  rw [ExceptT.run_bind, hlift, Prog.bind_assoc]
  exact h.bind hf

theorem minds_readLoop {L : Shared ι → Prop} (hL : Local i L) {want left : Nat}
    (hleft : want ≤ left) (hagree : ∀ s, L s → ∀ k, p ≤ k → k < p + want → s.bytes[k]? = file[k]?)
    (hs : L s) (hmark : s.mark i = p) :
    (readLoop left want).Minds placed (SpillSound P key) Relies i
      (fun got s' => got = readAt file p want ∧ L s') s := by
  induction left generalizing p want s with
  | zero =>
    obtain rfl := Nat.le_zero.mp hleft
    exact ⟨rfl, hs⟩
  | succ left ih =>
    rw [readLoop]
    split
    · rename_i hzero
      subst hzero
      exact ⟨rfl, hs⟩
    · rename_i hwant
      intro s1 hrely hI got s' hserve
      have hs1 := hL.relies s s1 hrely hs
      have hoffset : s1.offset = p := Eq.trans hserve.1 (hrely.mark.trans hmark)
      obtain ⟨hgot, hle, hend, rfl⟩ := onFile_read.mp hserve.2
      rw [hoffset] at hgot hend ⊢
      refine ⟨hI.moved i _, fun j hne => relies_moved hne s1 _, ?_⟩
      have hs2 := hL.moved s1 (p + got.length) hs1
      beta_reduce
      split
      · rename_i hnil
        refine ⟨?_, hs2⟩
        have hpast := (hend hnil).resolve_left hwant
        have hnone : file[p]? = none := by
          rw [← hagree s1 hs1 p (Nat.le_refl p) (by omega)]
          exact List.getElem?_eq_none hpast
        rw [readAt_past (List.getElem?_eq_none_iff.mp hnone)]
      · rename_i hsome
        have hpos := List.length_pos_iff.mpr hsome
        have hfile : got = readAt file p got.length := by
          rw [hgot, length_readAt]
          have hcut : min got.length (s1.bytes.length - p) = got.length := by
            have hlen := congrArg List.length hgot
            rw [length_readAt] at hlen
            exact hlen.symm
          rw [hcut]
          exact readAt_congr fun k hk hk' => hagree s1 hs1 k hk (by omega)
        apply (ih (by omega) (fun s hs k hk hk' => hagree s hs k (by omega) (by omega)) hs2
          (Function.update_self ..)).bind
        rintro more s3 ⟨rfl, hs3⟩
        refine ⟨?_, hs3⟩
        have hin : got.length ≤ file.length - p := by
          have hlen := congrArg List.length hfile
          rw [length_readAt] at hlen
          omega
        have hsum : got.length + (want - got.length) = want := by omega
        rw [← hsum, ← readAt_add file p _ _ hin, ← hfile, hsum]

end Dctl.Mount
