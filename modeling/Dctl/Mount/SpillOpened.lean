import Dctl.Mount.SpillOwner

/-! The readers of a shared spill, and every run of a spill with its readers.  While the steps are
in place, a reader yields the content that the spill had when the reader was made. -/

namespace Dctl.Mount

open ProofKit Crypto Cli List Function

variable {P : Primitives} {rng : Nat → Nonce} {key : Key} {ι : Type} [DecidableEq ι]
  {s s' : Shared ι} {content : Bytes} {index out : Nat} {j : ι} {v : ReaderHead}

def Reading (P : Primitives) (key : Key) (content : Bytes) (j : ι) (v : ReaderHead) (s : Shared ι) :
    Prop :=
  s.opened j = some content ∧ j ∈ s.live ∧ v.key = key ∧ Views P content (v.over s.bytes)

theorem local_reading (hP : P.Lawful) : Local (some j) (Reading P key content j v) where
  relies s s' h hs := by
    obtain ⟨-, hopened, hlive, hkeep⟩ := h
    obtain ⟨hcontent, hj, hkey, hviews⟩ := hs
    exact ⟨hopened.trans hcontent, hlive.mpr hj, hkey,
      hviews.slots.keeps hP (hkeep hj content hcontent), hviews.len, hviews.bound, hviews.atHand⟩
  moved s p hs := hs

theorem local_standing (hP : P.Lawful) {blob : Bytes}
    (hend : index * slotLen + blob.length ≤ slotsOf content * slotLen) :
    Local (some j) fun s => Reading P key content j v s ∧
      Stands s.bytes (index * slotLen) blob where
  relies s s' h hs := by
    refine ⟨(local_reading hP).relies s s' h hs.1, ?_⟩
    exact (h.2.2.2 hs.1.2.1 content hs.1.1).stands hs.2 hend
  moved s p hs := hs

theorem minds_load (hP : P.Lawful) (hs : Reading P key content j v s)
    (hin : index * frameLen < content.length) :
    (v.load P index).run.Minds placed (SpillSound P key) Relies (some j) (fun x s' =>
      ∃ v', x = .ok v' ∧ Reading P key content j v s' ∧ Reading P key content j v' s' ∧
        (v.over s'.bytes).load P index = .ok (v'.over s'.bytes)) s := by
  unfold ReaderHead.load
  split
  · rename_i hsame
    refine ⟨v, rfl, hs, hs, ?_⟩
    exact if_pos hsame
  · rename_i hother
    obtain ⟨nonce, blob, hseal, hstands⟩ := hs.2.2.2.slots index hin
    have hplain : (frameOf content index).length ≤ frameLen := by
      rw [length_frameOf]
      exact Nat.min_le_left ..
    have hend := slot_end_le hin (length_blob_le hP hseal hplain)
    have hwant : blobLen index v.len = blob.length := by
      have hlen : v.len = content.length := hs.2.2.2.len
      unfold blobLen
      simp only [hlen, if_neg (Nat.not_le_of_lt hin)]
      rw [length_blob hP hseal, length_frameOf]
      omega
    have hlocal := @local_standing P key ι _ content index j v hP blob hend
    apply minds_seek hlocal ⟨hs, hstands⟩
    intro s1 hs1 hmark _
    rw [hwant]
    have hagree : ∀ s2 : Shared ι, Reading P key content j v s2 ∧
        Stands s2.bytes (index * slotLen) blob → ∀ k, index * slotLen ≤ k →
        k < index * slotLen + blob.length → s2.bytes[k]? = s1.bytes[k]? := by
      intro s2 hs2 k hk hk'
      have hget := hs2.2 (k - index * slotLen) (by omega)
      rw [← hs1.2 (k - index * slotLen) (by omega), Nat.add_sub_cancel' hk] at hget
      exact hget
    apply minds_lift (minds_readLoop hlocal (Nat.le_refl _) hagree hs1 hmark)
    rintro got s2 ⟨rfl, hreading, hstands2⟩
    rw [hs1.2.readAt_eq]
    have hdec : Aead.decrypt P v.key blob (frameAad index) = .ok (frameOf content index) :=
      Aead.decrypt_encrypt hP hseal
    rw [hdec]
    refine ⟨{ v with frame := frameOf content index, frameIndex := index }, rfl, hreading, ?_, ?_⟩
    · obtain ⟨hopened, hj, hkey, hviews⟩ := hreading
      exact ⟨hopened, hj, hkey, hviews.slots, hviews.len, hviews.bound, .inr rfl⟩
    · have hread : readAt s2.bytes (index * slotLen) (blobLen index v.len) = blob := by
        rw [hwant]
        exact hstands2.readAt_eq
      unfold SpillReader.load
      simp only [ReaderHead.over, if_neg hother, hread, hdec]
      rfl

theorem minds_read (hP : P.Lawful) (hs : Reading P key content j v s) :
    (v.read P out).run.Minds placed (SpillSound P key) Relies (some j) (fun x s' =>
      ∃ bytes v', x = .ok (bytes, v') ∧ Reading P key content j v s' ∧
        Reading P key content j v' s' ∧
        (v.over s'.bytes).read P out = .ok (bytes, v'.over s'.bytes)) s := by
  unfold ReaderHead.read
  split
  · rename_i hend
    exact ⟨[], v, rfl, hs, hs, if_pos hend⟩
  · rename_i hmore
    have hlen : v.len = content.length := hs.2.2.2.len
    have hin : v.position / frameLen * frameLen < content.length := by
      have hle := Nat.div_mul_le_self v.position frameLen
      omega
    rw [ExceptT.run_bind]
    apply (minds_load hP hs hin).bind
    rintro x s1 ⟨v', rfl, hs1, hs1', hload⟩
    refine ⟨_, _, rfl, hs1, ?_, ?_⟩
    · obtain ⟨hopened, hj, hkey, hviews⟩ := hs1'
      exact ⟨hopened, hj, hkey, hviews.slots, hviews.len, hviews.bound, hviews.atHand⟩
    · unfold SpillReader.read
      have hmore' : ¬((v.over s1.bytes).len ≤ (v.over s1.bytes).position ∨ out = 0) := hmore
      rw [if_neg hmore']
      have hload' : (v.over s1.bytes).load P ((v.over s1.bytes).position / frameLen) =
          .ok (v'.over s1.bytes) := hload
      simp only [hload']
      rfl

theorem ReaderHead.seek_ok (v : ReaderHead) {v' : ReaderHead} {dest : SpillReader.SeekFrom}
    (h : v.seek dest = .ok v') : ∃ position, v' = { v with position } := by
  unfold ReaderHead.seek at h
  cases hseek : (v.over []).seek dest with
  | error e =>
    rw [hseek] at h
    cases h
  | ok r =>
    rw [hseek] at h
    exact ⟨r.position, (Except.ok.inj h).symm⟩

theorem minds_uses (hP : P.Lawful) (us : List Use) (hs : Reading P key content j v s) :
    (ReaderHead.uses P us v).Minds placed (SpillSound P key) Relies (some j) (fun yields s' =>
      s'.opened j = some content ∧ ∀ y ∈ yields, y.Of content) s := by
  induction us generalizing v s with
  | nil => exact ⟨hs.1, nofun⟩
  | cons use us ih =>
    cases use with
    | read out =>
      rw [ReaderHead.uses]
      apply (minds_read hP hs).bind
      rintro x s1 ⟨bytes, v', rfl, hs1, hs1', hread⟩
      apply (ih hs1').bind
      rintro yields s2 ⟨hopened, hyields⟩
      refine ⟨hopened, ?_⟩
      intro y hy
      rcases mem_cons.mp hy with rfl | hy
      · intro bytes' hbytes
        cases hbytes
        obtain ⟨_, _, hread', -, -, -, hslice, hempty⟩ := hs1.2.2.2.read hP out
        rw [hread] at hread'
        cases hread'
        exact ⟨hslice, hempty⟩
      · exact hyields y hy
    | seek dest =>
      rw [ReaderHead.uses]
      cases hseek : v.seek dest with
      | error e => exact ih hs
      | ok v' =>
        obtain ⟨position, rfl⟩ := v.seek_ok hseek
        obtain ⟨hopened, hj, hkey, hviews⟩ := hs
        exact ih ⟨hopened, hj, hkey, hviews.slots, hviews.len, hviews.bound, hviews.atHand⟩

def EndsWell : Option ι → Ended → Shared ι → Prop
  | none, _, _ => True
  | some _, .owner _, _ => True
  | some j, .reader yields, s => ∀ content, s.opened j = some content → ∀ y ∈ yields, y.Of content

theorem minds_readerProg (hP : P.Lawful) (us : List Use) :
    (readerProg P us).Minds placed (SpillSound P key) Relies (some j) (EndsWell (some j)) s := by
  intro s1 hrely hI head s2 hserve
  obtain ⟨-, hfree, rfl, rfl⟩ := hserve
  obtain ⟨hsealed, hlen, hkey⟩ := hI.idle hfree
  have hviews : Views P s1.content (s1.head.reader.over s1.bytes) := by
    have hslots : Sealed P s1.head.key s1.bytes s1.content := by
      rw [hkey]
      exact hsealed
    refine ⟨hslots, hlen, ?_, .inl rfl⟩
    have hle := hsealed.length_le hP
    have hroom := hI.room
    simp only [frameLen, overhead, slotLen, maxOffset] at *
    omega
  refine ⟨⟨hI.landed, hI.room, hI.idle, ?_⟩, ?_, ?_⟩
  · intro j' hj' c hc
    by_cases hsame : j' = j
    · subst hsame
      have hopened : update s1.opened j' (some s1.content) j' = some c := hc
      rw [update_self] at hopened
      cases hopened
      exact hsealed
    · have hopened : update s1.opened j (some s1.content) j' = some c := hc
      rw [update_of_ne hsame] at hopened
      exact hI.views j' ((mem_cons.mp hj').resolve_left hsame) c hopened
  · intro i hne
    cases i with
    | none =>
      refine ⟨rfl, rfl, rfl, rfl, ?_⟩
      intro hbusy
      rw [hfree] at hbusy
      cases hbusy
    | some j' =>
      have hother : j' ≠ j := fun h => hne (congrArg some h)
      refine ⟨rfl, update_of_ne hother _ _, ?_, fun _ _ _ => KeepsBelow.refl _ _⟩
      exact ⟨fun h => (mem_cons.mp h).resolve_left hother, mem_cons_of_mem j⟩
  · have hreading : Reading P key s1.content j s1.head.reader
        { s1 with opened := update s1.opened j (some s1.content), live := j :: s1.live } :=
      ⟨update_self .., mem_cons_self, hkey, hviews⟩
    apply (minds_uses hP us hreading).bind
    rintro yields s3 ⟨hopened, hyields⟩ s4 hrely4 hI4 x s5 hserve
    obtain ⟨-, rfl⟩ := hserve
    refine ⟨⟨hI4.landed, hI4.room, hI4.idle, ?_⟩, ?_, ?_⟩
    · intro j' hj' c hc
      exact hI4.views j' (mem_of_mem_filter hj') c hc
    · intro i hne
      cases i with
      | none =>
        exact ⟨rfl, rfl, rfl, rfl, fun _ j' hj' => ⟨mem_of_mem_filter hj', rfl⟩⟩
      | some j' =>
        have hother : j' ≠ j := fun h => hne (congrArg some h)
        refine ⟨rfl, rfl, ?_, fun _ _ _ => KeepsBelow.refl _ _⟩
        show j' ∈ s4.live.filter (· ≠ j) ↔ j' ∈ s4.live
        simp [hother]
    · intro c hc
      have hsame : some c = some s1.content := hc.symm.trans (hrely4.2.1.trans hopened)
      cases hsame
      exact hyields

omit [DecidableEq ι] in
theorem spillSound_start (key : Key) : SpillSound P key
    (⟨[], 0, fun _ => 0, false, ⟨key, 0, 0⟩, [], fun _ => none, [], []⟩ : Shared ι) :=
  ⟨nofun, Nat.zero_le _, fun _ => ⟨nofun, rfl, rfl⟩, nofun⟩

/-- A run of a spill and any number of readers, in any order of their single steps: as long as every
read and write finds the offset where its caller left it, and no write goes into a slot that a
reader in use is of, every write lands in its own slot and every reader yields the content the spill
had when it was made. -/
theorem kept_of_inPlace (hP : P.Lawful) {calls : List SpillCall} {us : ι → List Use}
    {c : Crowd (Option ι) Syscall Reply Ended (Shared ι)}
    (h : Crowd.Steps (fun i => (onFile i).given (InPlace i)) (fun _ _ => False)
      (sharedStart P rng key calls us) c) : Shared.Kept c := by
  have hstart : Crowd.Minded placed (SpillSound P key) Relies EndsWell
      (sharedStart P rng key calls us) := by
    refine ⟨spillSound_start key, ?_⟩
    intro i
    cases i with
    | none =>
      exact minds_ownerProg (t := .new key) hP (fun _ _ => trivial) calls rfl rfl rfl
        (flat_new P key)
    | some j => exact minds_readerProg hP (us j)
  have hend := hstart.steps Relies.trans Relies.refl (by
    intro i a s s' ha hrely
    cases i with
    | none => trivial
    | some j =>
      cases a with
      | owner outcome => trivial
      | reader yields => exact fun content hc => ha content (hrely.2.1.symm.trans hc)) (by
    intro s s' _ hfalse
    exact hfalse.elim) h
  refine ⟨hend.invariant.landed, ?_⟩
  intro j yields content htodo hopened
  have hminds := hend.minds (some j)
  rw [htodo] at hminds
  exact hminds content hopened

def wholeSteps : Option ι → Shared ι → (r : Syscall) → Reply r × Shared ι
  | i, s, .seek start => ((), s.moved i start)
  | i, s, .read want =>
    (readAt s.bytes s.offset want, s.moved i (s.offset + (readAt s.bytes s.offset want).length))
  | _, s, .write index data => (data.length, { s.moved none (s.offset + data.length) with
      bytes := writeAt s.bytes s.offset data
      landed := s.landed ++ [⟨index, s.offset, data.length⟩] })
  | _, s, .setLen len => ((), { s with bytes := sized s.bytes len })
  | _, s, .enter => ((), { s with busy := true })
  | _, s, .leave call head =>
    ((), { s with busy := false, head, content := flatCall s.content call })
  | some j, s, .tryClone =>
    (s.head, { s with opened := update s.opened j (some s.content), live := j :: s.live })
  | some j, s, .close => ((), { s with live := s.live.filter (· ≠ j) })
  | none, s, .tryClone => (s.head, s)
  | none, s, .close => ((), s)

/-- The caller makes such a step, and the file lets it. -/
def stepServed : Option ι → Shared ι → Syscall → Bool
  | _, _, .seek start => start < maxOffset
  | _, _, .read _ => true
  | none, _, .write _ data => data ≠ []
  | none, _, .setLen len => len < maxOffset
  | none, _, .enter => true
  | none, _, .leave .. => true
  | some _, s, .tryClone => !s.busy
  | some _, _, .close => true
  | _, _, _ => false

theorem onFile_wholeSteps (i : Option ι) (s : Shared ι) (r : Syscall)
    (h : stepServed i s r = true) :
    onFile i s r (wholeSteps i s r).1 (wholeSteps i s r).2 := by
  cases r with
  | seek start =>
    rw [onFile_seek]
    exact ⟨of_decide_eq_true h, rfl⟩
  | read want =>
    rw [onFile_read]
    refine ⟨?_, ?_, ?_, rfl⟩
    · show readAt s.bytes s.offset want = readAt s.bytes s.offset
          (readAt s.bytes s.offset want).length
      rw [length_readAt]
      unfold readAt
      rw [take_eq_take_iff, length_drop]
      omega
    · show (readAt s.bytes s.offset want).length ≤ want
      rw [length_readAt]
      exact Nat.min_le_left ..
    · intro hnil
      have hlen := congrArg List.length hnil
      have hshort : (readAt s.bytes s.offset want).length = 0 := hlen
      rw [length_readAt] at hshort
      omega
  | write index data =>
    cases i with
    | none =>
      have hsome : data ≠ [] := of_decide_eq_true h
      refine ⟨length_pos_iff.mpr hsome, Nat.le_refl _, ?_⟩
      simp only [wholeSteps, take_length]
    | some j => cases h
  | setLen len =>
    cases i with
    | none => exact ⟨of_decide_eq_true h, rfl⟩
    | some j => cases h
  | enter =>
    cases i with
    | none => exact rfl
    | some j => cases h
  | leave call head =>
    cases i with
    | none => exact rfl
    | some j => cases h
  | tryClone =>
    cases i with
    | none => cases h
    | some j =>
      have hfree : (!s.busy) = true := h
      exact ⟨by simpa using hfree, rfl, rfl⟩
  | close =>
    cases i with
    | none => cases h
    | some j => exact rfl

def byteStart : Crowd (Option Bool) Syscall Reply Ended (Shared Bool) :=
  sharedStart clearPrimitives (fun _ => .replicate nonceLen 0) (.replicate keyLen 0)
    [.write 0 [1], .write 0 [2]] fun _ => [.read 1]

/-- The owner begins its second write between two steps of the first reader, and goes on with it
when that reader is done.  The second reader is made behind that write. -/
def alternateOrder : List (Option Bool) :=
  .replicate 4 none ++ [some false, none] ++ .replicate 3 (some false) ++ .replicate 5 none ++
    .replicate 4 (some true)

/-- The first reader is made behind the first write.  It reads its frame after the owner has sought
the slot for the second write, and the second reader is made behind that write. -/
def disturbedOrder : List (Option Bool) :=
  .replicate 4 none ++ [some false] ++ .replicate 4 none ++ .replicate 2 (some false) ++
    .replicate 2 none ++ .replicate 4 (some true)

instance decidableInPlace (i : Option ι) (s : Shared ι) : (r : Syscall) → (x : Reply r) →
    Decidable (InPlace i s r x)
  | .read _, _ => inferInstanceAs (Decidable (_ = _))
  | .write index _, _ =>
    inferInstanceAs (Decidable (_ = _ ∧ ∀ j ∈ s.live, ∀ content ∈ s.opened j,
      content.length ≤ index * frameLen))
  | .seek _, _ | .setLen _, _ | .enter, _ | .leave .., _ | .tryClone, _ | .close,
    _ => .isTrue trivial

def stepInPlace (i : Option ι) (s : Shared ι) (r : Syscall) : Bool :=
  stepServed i s r && decide (InPlace i s r (wholeSteps i s r).1)

theorem placed_wholeSteps (i : Option ι) (s : Shared ι) (r : Syscall)
    (h : stepInPlace i s r = true) :
    placed i s r (wholeSteps i s r).1 (wholeSteps i s r).2 := by
  rw [stepInPlace, Bool.and_eq_true] at h
  exact ⟨of_decide_eq_true h.2, onFile_wholeSteps i s r h.1⟩

/-- Each reader yields the byte that stood there when it was made. -/
theorem kept_of_inPlace_alternate :
    (Crowd.play wholeSteps alternateOrder byteStart).todo (some false) =
        .done (.reader [⟨0, 1, .ok [1]⟩]) ∧
      (Crowd.play wholeSteps alternateOrder byteStart).todo (some true) =
        .done (.reader [⟨0, 1, .ok [2]⟩]) ∧
      Shared.Kept (Crowd.play wholeSteps alternateOrder byteStart) := by
  have hplay : Crowd.playable wholeSteps stepInPlace alternateOrder byteStart = true := by decide
  exact ⟨by rfl, by rfl, kept_of_inPlace clearPrimitives_lawful
    (Crowd.steps_play placed_wholeSteps hplay)⟩

/-- The second write lands behind the first blob, and a reader made after it yields the byte that
was written over. -/
theorem disturbed_not_kept : ¬∀ (calls : List SpillCall) (us : Bool → List Use)
    (c : Crowd (Option Bool) Syscall Reply Ended (Shared Bool)),
    Crowd.Steps onFile (fun _ _ => False)
      (sharedStart clearPrimitives (fun _ => .replicate nonceLen 0)
        (.replicate keyLen 0) calls us) c →
    Shared.Kept c := by
  intro h
  have hplay : Crowd.playable wholeSteps stepServed disturbedOrder byteStart = true := by
    decide
  have hkept := h _ _ _ (Crowd.steps_play onFile_wholeSteps hplay)
  have hdone : (Crowd.play wholeSteps disturbedOrder byteStart).todo (some true) =
      .done (.reader [⟨0, 1, .ok [1]⟩]) := by rfl
  have hyield := hkept.2 true _ [2] hdone (by rfl) _ mem_cons_self [1] rfl
  exact absurd hyield.1 (by decide)

end Dctl.Mount
