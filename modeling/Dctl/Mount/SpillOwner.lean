import Dctl.Mount.SpillShared

/-! The owner of a spill that is shared with readers: each of its calls, step by step, makes of the
file what the call makes of a file of its own. -/

namespace Dctl.Mount

open ProofKit Crypto Cli List

variable {P : Primitives} {rng : Nat → Nonce} {key : Key} {ι : Type} [DecidableEq ι]
  {s s' : Shared ι} {file content : Bytes} {index m : Nat} {t : Spill}

def During (content file : Bytes) (s : Shared ι) : Prop :=
  s.bytes = file ∧ s.busy = true ∧ s.content = content

def Behind (index : Nat) (s : Shared ι) : Prop :=
  ∀ j ∈ s.live, ∀ content, s.opened j = some content → content.length ≤ index * frameLen

theorem local_during : Local (ι := ι) none (During content file) where
  relies s s' h hs := by
    obtain ⟨hbytes, -, hbusy, hcontent, -⟩ := h
    exact ⟨hbytes.trans hs.1, hbusy.trans hs.2.1, hcontent.trans hs.2.2⟩
  moved s p hs := hs

theorem local_behind : Local (ι := ι) none fun s => During content file s ∧ Behind index s where
  relies s s' h hs := by
    refine ⟨local_during.relies s s' h hs.1, ?_⟩
    intro j hj c hc
    obtain ⟨hlive, hopened⟩ := h.2.2.2.2 hs.1.2.1 j hj
    exact hs.2 j hlive c (hopened.symm.trans hc)
  moved s p hs := hs

variable {data : Bytes}

theorem SpillSound.write (hP : P.Lawful) (h : SpillSound P key s) (hduring : During content file s)
    (hbehind : Behind index s) {n : Nat} (hn : n ≤ data.length) (hfrom : index * slotLen ≤ m)
    (hto : m + n ≤ (index + 1) * slotLen) (hroom : index * slotLen < maxOffset)
    (hs' : s' = { s.moved none (m + n) with bytes := writeAt s.bytes m (data.take n), landed :=
      s.landed ++ [⟨index, m, n⟩] }) :
    SpillSound P key s' ∧ ∀ j, j ≠ none → Relies j s s' := by
  subst hs'
  have hlen : (data.take n).length = n := length_take_of_le hn
  refine ⟨⟨?_, ?_, ?_, ?_⟩, ?_⟩
  · intro l hl
    rcases mem_append.mp hl with hl | hl
    · exact h.landed l hl
    · rw [mem_singleton.mp hl]
      exact ⟨hfrom, hto⟩
  · show (writeAt s.bytes m (data.take n)).length ≤ maxOffset + slotLen
    rw [length_writeAt, hlen]
    rw [Nat.succ_mul] at hto
    exact Nat.max_le.mpr ⟨h.room, by omega⟩
  · intro hidle
    have hbusy : s.busy = false := hidle
    rw [hduring.2.1] at hbusy
    cases hbusy
  · intro j hj c hc
    apply (h.views j hj c hc).keeps hP
    exact KeepsBelow.writeAt _ _ ((slotsOf_mul_le (hbehind j hj c hc)).trans hfrom)
  · intro j hne
    cases j with
    | none => exact absurd rfl hne
    | some j =>
      refine ⟨Function.update_of_ne hne (m + n) s.mark, rfl, Iff.rfl, ?_⟩
      intro hj c hc
      exact KeepsBelow.writeAt _ _ ((slotsOf_mul_le (hbehind j hj c hc)).trans hfrom)

theorem minds_writeLoop (hP : P.Lawful) {left : Nat} (hleft : data.length ≤ left)
    (hs : During content file s) (hmark : s.mark none = m) (hfrom : index * slotLen ≤ m)
    (hto : m + data.length ≤ (index + 1) * slotLen) (hroom : index * slotLen < maxOffset)
    (hdone : data = [] → Behind index s ∧ m ≤ file.length) :
    (writeLoop index left data).Minds placed (SpillSound P key) Relies none
      (fun _ s' => During content (writeAt file m data) s' ∧ Behind index s') s := by
  induction left generalizing data m file s with
  | zero =>
    obtain rfl := length_eq_zero_iff.mp (Nat.le_zero.mp hleft)
    obtain ⟨hbehind, hm⟩ := hdone rfl
    rw [writeAt_nil hm]
    exact ⟨hs, hbehind⟩
  | succ left ih =>
    rw [writeLoop]
    split
    · rename_i hnil
      subst hnil
      obtain ⟨hbehind, hm⟩ := hdone rfl
      rw [writeAt_nil hm]
      exact ⟨hs, hbehind⟩
    · intro s1 hrely hI (n : Nat) s' hserve
      obtain ⟨⟨hplace, hbehind⟩, hsome, hle, hs'⟩ := hserve
      have hpos : 0 < n := hsome
      have hn : n ≤ data.length := hle
      have hs1 := local_during.relies s s1 hrely hs
      have hoffset : s1.offset = m := hplace.trans (hrely.mark.trans hmark)
      rw [hoffset] at hs'
      obtain ⟨hsound, hothers⟩ := hI.write hP hs1 hbehind hn hfrom (by omega) hroom hs'
      refine ⟨hsound, hothers, ?_⟩
      have hlen : (data.take n).length = n := length_take_of_le hn
      have hnext : During content (writeAt file m (data.take n)) s' := by
        rw [hs', ← hs1.1]
        exact ⟨rfl, hs1.2⟩
      have hmark' : s'.mark none = m + n := by
        rw [hs']
        exact Function.update_self none (m + n) s1.mark
      have hbehind' : Behind index s' := by
        rw [hs']
        exact hbehind
      have hdrop : (data.drop n).length = data.length - n := length_drop
      have hrest :=
        ih (show (data.drop n).length ≤ left by omega) hnext hmark' (by omega) (by omega) (by
        intro _
        refine ⟨hbehind', ?_⟩
        rw [length_writeAt, hlen]
        exact Nat.le_max_right ..)
      have hjoin := writeAt_append file m (data.take n) (data.drop n)
      rw [hlen, take_append_drop] at hjoin
      rwa [hjoin] at hrest

/-- The steps end as the call does, in a state that the two results are related to. -/
def Refines {α β : Type} (P : Primitives) (key : Key) (op : Op α) (x : Except CliError β)
    (R : α → β → Shared ι → Prop) (s : Shared ι) : Prop :=
  op.run.Minds placed (SpillSound P key) Relies none (fun y s' =>
    match x with
    | .ok b => ∃ a, y = .ok a ∧ R a b s'
    | .error e => y = .error e) s

namespace Refines

variable {α β γ δ : Type} {op : Op α} {x : Except CliError β} {R R' : α → β → Shared ι → Prop}

theorem pure {a : α} {b : β} (h : R a b s) : Refines P key (Pure.pure a : Op α) (.ok b) R s :=
  ⟨a, rfl, h⟩

theorem bind {f : α → Op γ} {g : β → Except CliError δ} {R'' : γ → δ → Shared ι → Prop}
    (h : Refines P key op x R s) (hf : ∀ a b s', R a b s' → Refines P key (f a) (g b) R'' s') :
    Refines P key (op >>= f) (x >>= g) R'' s := by
  rw [Refines, ExceptT.run_bind]
  apply Prog.Minds.bind h
  intro y s' hy
  cases x with
  | error e =>
    obtain rfl := hy
    exact rfl
  | ok b =>
    obtain ⟨a, rfl, hR⟩ := hy
    exact hf a b s' hR

theorem mono (h : Refines P key op x R s) (hR : ∀ a b s', R a b s' → R' a b s') :
    Refines P key op x R' s := by
  apply Prog.Minds.mono h
  intro y s' hy
  cases x with
  | error e => exact hy
  | ok b =>
    obtain ⟨a, ha, hab⟩ := hy
    exact ⟨a, ha, hR a b s' hab⟩

theorem seek {start : Nat} {f : Unit → Op α} {L : Shared ι → Prop} (hL : Local none L) (hs : L s)
    (hf : ∀ s', L s' → s'.mark none = start → start < maxOffset → Refines P key (f ()) x R s') :
    Refines P key (Prog.query (Syscall.seek start) >>= f) x R s := minds_seek hL hs hf

theorem lift {q : Prog Syscall Reply γ} {f : γ → Op α} {post : γ → Shared ι → Prop}
    (h : q.Minds placed (SpillSound P key) Relies none post s)
    (hf : ∀ c s', post c s' → Refines P key (f c) x R s') :
    Refines P key (ExceptT.lift q >>= f) x R s := minds_lift h hf

end Refines

def Owned (key : Key) (content : Bytes) (h : SpillHead) (t : Spill) (s : Shared ι) : Prop :=
  h = t.head ∧ t.key = key ∧ During content t.file s

theorem refines_readFrame (hP : P.Lawful) (hs : During content t.file s) :
    Refines P key (t.head.readFrame P index) (t.readFrame P index)
      (fun a b s' => a = b ∧ b.length ≤ frameLen ∧ During content t.file s') s := by
  have hlen : t.head.len = t.len := rfl
  have hkey : t.head.key = t.key := rfl
  unfold SpillHead.readFrame Spill.readFrame
  simp only [hlen, hkey]
  split
  · exact Refines.pure ⟨rfl, Nat.zero_le _, hs⟩
  · apply Refines.seek local_during hs
    intro s1 hs1 hmark _
    apply Refines.lift (minds_readLoop local_during (Nat.le_refl _)
      (fun s2 hs2 k _ _ => by rw [hs2.1]) hs1 hmark)
    rintro blob s2 ⟨rfl, hs2⟩
    split
    · exact Refines.pure ⟨rfl, Nat.zero_le _, hs2⟩
    · cases hdec : Aead.decrypt P t.key (readAt t.file (index * slotLen) (blobLen index t.len))
        (frameAad index) with
      | error e => exact rfl
      | ok plain =>
        refine ⟨plain, rfl, rfl, ?_, hs2⟩
        have hblob := Aead.decrypt_length hP hdec
        have hwant : blobLen index t.len ≤ slotLen := by
          unfold blobLen
          simp only [slotLen]
          split
          · exact Nat.zero_le _
          · exact Nat.add_le_add_right (Nat.min_le_right _ _) _
        rw [length_readAt] at hblob
        simp only [nonceLen, tagLen, frameLen, overhead, slotLen] at *
        omega

theorem refines_writeFrame (hP : P.Lawful) {plain : Bytes} (hs : During content t.file s)
    (hkey : t.key = key) (hplain : plain.length ≤ frameLen) :
    Refines P key (t.head.writeFrame P rng index plain) (t.writeFrame P rng index plain)
      (fun h t' s' => Owned key content h t' s' ∧ Behind index s') s := by
  obtain ⟨blob, hblob, hwrite⟩ := @Spill.writeFrame_eq P rng t index hP plain hplain
  have hsteps : t.head.writeFrame P rng index plain = (do
      Prog.query (Syscall.seek (index * slotLen))
      ExceptT.lift (writeAll index blob)
      pure { t.head with drawn := t.drawn + 1 } : Op SpillHead) := by
    unfold SpillHead.writeFrame
    rw [show Aead.encrypt P t.head.key (rng t.head.drawn) plain (frameAad index) =
      .ok blob from hblob]
    rfl
  have hlen := length_blob_le hP hblob hplain
  have hsome : blob ≠ [] := by
    apply ne_nil_of_length_pos
    rw [length_blob hP hblob]
    simp only [overhead]
    omega
  rw [hsteps, hwrite]
  apply Refines.seek local_during hs
  intro s1 hs1 hmark hroom
  apply Refines.lift (minds_writeLoop hP (Nat.le_refl _) hs1 hmark (Nat.le_refl _)
    (by rw [Nat.succ_mul]; omega) hroom fun h => absurd h hsome)
  rintro - s2 ⟨hs2, hbehind⟩
  exact Refines.pure ⟨⟨rfl, hkey, hs2⟩, hbehind⟩

theorem length_patched {frame chunk : Bytes} {within : Nat} (hframe : frame.length ≤ frameLen)
    (hin : within + chunk.length ≤ frameLen) : (patched frame within chunk).length ≤ frameLen := by
  rw [patched_eq, length_writeAt]
  exact Nat.max_le.mpr ⟨hframe, hin⟩

section

variable (hP : P.Lawful)
include hP

theorem refines_patch {position : Nat} {chunk : Bytes} {h : SpillHead}
    (hs : Owned key content h t s) (hin : position % frameLen + chunk.length ≤ frameLen) :
    Refines P key (h.patch P rng position chunk) (t.patch P rng position chunk)
      (Owned key content) s := by
  obtain ⟨rfl, hkey, hs⟩ := hs
  apply (refines_readFrame hP hs).bind
  rintro frame _ s1 ⟨rfl, hframe, hs1⟩
  exact (refines_writeFrame hP hs1 hkey (length_patched hframe hin)).mono fun h t' s' hR => hR.1

theorem refines_fillGap {rounds at' offset : Nat} {h : SpillHead} (hrounds : offset - at' ≤ rounds)
    (hs : Owned key content h t s) :
    Refines P key (SpillHead.fillGap P rng rounds h at' offset) (t.fillGap P rng at' offset)
      (Owned key content) s := by
  induction rounds generalizing at' h t s with
  | zero =>
    rw [Spill.fillGap, dif_neg (by omega)]
    exact Refines.pure hs
  | succ rounds ih =>
    rw [Spill.fillGap, SpillHead.fillGap]
    split
    · rename_i hless
      have hpos : 0 < Spill.takeLen at' (offset - at') := Spill.takeLen_pos (by omega)
      have hin := Spill.takeLen_le at' (offset - at')
      apply (refines_patch hP hs (by rw [zeros, length_replicate]; exact hin)).bind
      intro h1 t1 s1 hs1
      exact ih (by omega) hs1
    · exact Refines.pure hs

theorem refines_writeChunks {rounds position : Nat} {h : SpillHead} (hrounds : data.length ≤ rounds)
    (hs : Owned key content h t s) :
    Refines P key (SpillHead.writeChunks P rng rounds h position data)
      (t.writeChunks P rng position data) (Owned key content) s := by
  induction rounds generalizing position data h t s with
  | zero =>
    rw [Spill.writeChunks, dif_pos (length_eq_zero_iff.mp (Nat.le_zero.mp hrounds))]
    exact Refines.pure hs
  | succ rounds ih =>
    rw [Spill.writeChunks, SpillHead.writeChunks]
    split
    · exact Refines.pure hs
    · rename_i hdata
      have hpos : 0 < Spill.takeLen position data.length :=
        Spill.takeLen_pos (length_pos_iff.mpr hdata)
      have hin := Spill.takeLen_le position data.length
      apply (refines_patch hP hs (by rw [Spill.length_take_takeLen]; exact hin)).bind
      rintro h1 t1 s1 ⟨rfl, hkey, hs1⟩
      apply ih
      · rw [length_drop]
        omega
      · exact ⟨rfl, hkey, hs1⟩

theorem refines_writeAt {offset : Nat} {h : SpillHead} (hs : Owned key content h t s) :
    Refines P key (h.writeAt P rng offset data) (t.writeAt P rng offset data)
      (Owned key content) s := by
  have hlen : h.len = t.len := by rw [hs.1]; rfl
  unfold SpillHead.writeAt Spill.writeAt
  rw [hlen]
  split
  · exact Refines.pure hs
  · by_cases hgap : t.len < offset
    · simp only [if_pos hgap]
      apply (refines_fillGap hP (Nat.le_refl _) hs).bind
      rintro h1 t1 s1 ⟨rfl, hkey, hs1⟩
      exact refines_writeChunks (t := { t1 with len := offset }) hP (Nat.le_refl _) ⟨rfl, hkey, hs1⟩
    · simp only [if_neg hgap]
      exact refines_writeChunks hP (Nat.le_refl _) hs

theorem refines_growTo {rounds at' len step : Nat} (hstep : 0 < step) {h : SpillHead}
    (hrounds : len - at' ≤ rounds) (hs : Owned key content h t s) :
    Refines P key (SpillHead.growTo P rng rounds h at' len step) (t.growTo P rng at' len step hstep)
      (Owned key content) s := by
  induction rounds generalizing at' h t s with
  | zero =>
    rw [Spill.growTo, dif_neg (by omega)]
    exact Refines.pure hs
  | succ rounds ih =>
    rw [Spill.growTo, SpillHead.growTo]
    split
    · apply (refines_writeAt hP hs).bind
      intro h1 t1 s1 hs1
      exact ih (by omega) hs1
    · exact Refines.pure hs

end

omit [DecidableEq ι] in
theorem SpillSound.cut (hP : P.Lawful) (h : SpillSound P key s) (hduring : During content file s)
    (hbehind : Behind index s) {len : Nat} (hlen : index * slotLen ≤ len) (hroom : len < maxOffset)
    (hs' : s' = { s with bytes := sized s.bytes len }) :
    SpillSound P key s' ∧ ∀ j, j ≠ none → Relies j s s' := by
  subst hs'
  refine ⟨⟨h.landed, ?_, ?_, ?_⟩, ?_⟩
  · show (sized s.bytes len).length ≤ maxOffset + slotLen
    rw [length_sized]
    omega
  · intro hidle
    have hbusy : s.busy = false := hidle
    rw [hduring.2.1] at hbusy
    cases hbusy
  · intro j hj c hc
    apply (h.views j hj c hc).keeps hP
    exact KeepsBelow.sized _ ((slotsOf_mul_le (hbehind j hj c hc)).trans hlen)
  · intro j hne
    cases j with
    | none => exact absurd rfl hne
    | some j =>
      refine ⟨rfl, rfl, Iff.rfl, ?_⟩
      intro hj c hc
      exact KeepsBelow.sized _ ((slotsOf_mul_le (hbehind j hj c hc)).trans hlen)

section

variable (hP : P.Lawful) {h : SpillHead} (hs : Owned key content h t s)
include hP hs

theorem refines_setLen {len : Nat} (hbehind : Behind index s) (hlen : index * slotLen ≤ len) :
    Refines P key (do
        Prog.query (Syscall.setLen len)
        pure h : Op SpillHead)
      (.ok { t with file := sized t.file len }) (Owned key content) s := by
  obtain ⟨rfl, hkey, hs⟩ := hs
  intro s1 hrely hI x s' hserve
  obtain ⟨-, hroom, hs'⟩ := hserve
  obtain ⟨hs1, hbehind1⟩ := local_behind.relies s s1 hrely ⟨hs, hbehind⟩
  obtain ⟨hsound, hothers⟩ := hI.cut hP hs1 hbehind1 hlen hroom hs'
  refine ⟨hsound, hothers, t.head, rfl, rfl, hkey, ?_⟩
  rw [hs', ← hs1.1]
  exact ⟨rfl, hs1.2⟩

theorem refines_truncate {len : Nat} :
    Refines P key (h.truncate P rng len) (t.truncate P rng len) (Owned key content) s := by
  have hlen : h.len = t.len := by rw [hs.1]; rfl
  unfold SpillHead.truncate Spill.truncate
  rw [hlen]
  have hend : ∀ h1 t1 (s1 : Shared ι), Owned key content h1 t1 s1 →
      Refines P key (pure { h1 with len } : Op SpillHead) (.ok { t1 with len })
        (Owned key content) s1 := by
    rintro h1 t1 s1 ⟨rfl, hkey, hs1⟩
    exact Refines.pure ⟨rfl, hkey, hs1⟩
  rcases Nat.lt_trichotomy len t.len with hless | heq | hmore
  · simp only [if_pos hless]
    obtain ⟨rfl, hkey, hs⟩ := hs
    apply (refines_readFrame hP hs).bind
    rintro frame _ s1 ⟨rfl, hframe, hs1⟩
    apply (refines_writeFrame hP hs1 hkey ((length_take_le' _ _).trans hframe)).bind
    rintro h2 t2 s2 ⟨hs2, hbehind⟩
    apply Refines.bind (refines_setLen hP hs2 hbehind _) hend
    apply Nat.mul_le_mul_right
    simp only [frameLen]
    omega
  · simp only [if_neg (show ¬len < t.len by omega), dif_neg (show ¬t.len < len by omega),
      if_neg (show ¬t.len < len by omega)]
    exact hend h t s hs
  · simp only [if_neg (show ¬len < t.len by omega), dif_pos hmore, if_pos hmore]
    exact (refines_growTo hP _ (Nat.le_refl _) hs).bind hend

theorem refines_call (call : SpillCall) :
    Refines P key (h.call P rng call) (t.call P rng call) (Owned key content) s := by
  cases call with
  | write offset data => exact refines_writeAt hP hs
  | truncate len => exact refines_truncate hP hs

end

theorem minds_ownerProg (hP : P.Lawful) {post : Ended → Shared ι → Prop}
    (hpost : ∀ outcome s, post (.owner outcome) s) (calls : List SpillCall)
    (hbytes : s.bytes = t.file) (hcontent : s.content = content) (hkey : t.key = key)
    (hflat : Flat P content t) :
    (ownerProg P rng calls t.head).Minds placed (SpillSound P key) Relies none post s := by
  induction calls generalizing s t content with
  | nil => exact hpost _ _
  | cons call calls ih =>
    intro s1 hrely hI x s2 hserve
    obtain ⟨-, rfl⟩ := hserve
    refine ⟨⟨hI.landed, hI.room, nofun, hI.views⟩, ?_, ?_⟩
    · intro j hne
      cases j with
      | none => exact absurd rfl hne
      | some j => exact ⟨rfl, rfl, Iff.rfl, fun _ _ _ => KeepsBelow.refl _ _⟩
    · obtain ⟨t', hcall, hflat'⟩ := @Flat.call P rng content t hP hflat call
      have hholds : Owned key content t.head t { s1 with busy := true } :=
        ⟨rfl, hkey, hrely.1.trans hbytes, rfl, hrely.2.2.2.1.trans hcontent⟩
      have hrun :
          Refines P key (t.head.call P rng call) (t.call P rng call) (Owned key content) _ :=
        refines_call hP hholds call
      rw [hcall] at hrun
      apply Prog.Minds.bind hrun
      rintro - s3 ⟨-, rfl, rfl, hkey', hbytes', hbusy', hcontent'⟩
      intro s4 hrely4 hI4 x s5 hserve
      obtain ⟨-, rfl⟩ := hserve
      have hbytes4 : s4.bytes = t'.file := hrely4.1.trans hbytes'
      have hcontent4 : s4.content = content := hrely4.2.2.2.1.trans hcontent'
      refine ⟨⟨hI4.landed, hI4.room, ?_, hI4.views⟩, ?_, ?_⟩
      · intro _
        refine ⟨?_, ?_, hkey'⟩
        · show Sealed P key s4.bytes (flatCall s4.content call)
          rw [hbytes4, hcontent4, ← hkey']
          exact hflat'.slots
        · show t'.len = (flatCall s4.content call).length
          rw [hcontent4]
          exact hflat'.len
      · intro j hne
        cases j with
        | none => exact absurd rfl hne
        | some j => exact ⟨rfl, rfl, Iff.rfl, fun _ _ _ => KeepsBelow.refl _ _⟩
      · have hnext : flatCall s4.content call = flatCall content call := by rw [hcontent4]
        exact @ih
          { s4 with busy := false, head := t'.head, content := flatCall s4.content call } _ _
          hbytes4 hnext hkey' hflat'

end Dctl.Mount
