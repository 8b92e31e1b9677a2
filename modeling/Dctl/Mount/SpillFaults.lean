import Dctl.Mount.Spill

/-! The calls of a spill on its backing file, one of which may fail (`mount/staging.rs`), and what
that leaves of the spill.  An operation that fails keeps what it did to the spill before. -/

namespace Dctl.Mount

open ProofKit Crypto Cli List

def ioError (what error : String) : CliError :=
  ⟨.fatalError, "the write spill could not be " ++ what ++ ": " ++ error, none⟩

/-- A call on the backing file for one frame.  A write that fails has moved some bytes of the blob,
and not all. -/
inductive FrameCall where
  | seekToRead
  | read
  | seekToWrite
  | write (moved : Nat)
  deriving DecidableEq

structure FrameFault where
  call : FrameCall
  error : String

/-- The call of an operation that fails: for the frame that a gap or the data reached at a position,
for the frame that a cut lands in, or for the length of the file. -/
inductive Fault where
  | gap (position : Nat) (frame : FrameFault)
  | data (position : Nat) (frame : FrameFault)
  | cut (frame : FrameFault)
  | setLen (error : String)

namespace Fault

def inGap (position : Nat) : Fault → Option FrameFault
  | gap p frame => if p = position then some frame else none
  | _ => none

def inData (position : Nat) : Fault → Option FrameFault
  | data p frame => if p = position then some frame else none
  | _ => none

def inCut : Fault → Option FrameFault
  | cut frame => some frame
  | _ => none

def inSetLen : Fault → Option String
  | setLen error => some error
  | _ => none

end Fault

structure SealedFrame where
  index : Nat
  plaintext : Bytes
  blob : Bytes

/-- A spill and the frames that it has sealed so far, the latest first.  No operation looks at them.
-/
structure Logged where
  spill : Spill
  frames : List SealedFrame

abbrev SpillIo : Type → Type := EStateM CliError Logged

namespace SpillIo

variable (P : Primitives) (rng : Nat → Nonce)

def attempt (fails : Option FrameFault) (call : FrameCall) (what : String) : SpillIo Unit :=
  match fails with
  | some fault => if fault.call = call then throw (ioError what fault.error) else pure ()
  | none => pure ()

def ofExcept {α : Type} : Except CliError α → SpillIo α
  | .ok a => pure a
  | .error e => throw e

def readFrame (fails : Option FrameFault) (index : Nat) : SpillIo Bytes := do
  let s := (← get).spill
  let want := blobLen index s.len
  if want = 0 then return []
  attempt fails .seekToRead "sought"
  attempt fails .read "read"
  let blob := readAt s.file (index * slotLen) want
  if blob.length < want then return []
  ofExcept ((Aead.decrypt P s.key blob (frameAad index)).mapError fun _ =>
    cryptoError "open a frame")

def putBlob (fails : Option FrameFault) (index : Nat) (blob : Bytes) : SpillIo Unit := do
  attempt fails .seekToWrite "sought"
  match fails with
  | some ⟨.write moved, error⟩ =>
    modify fun r => { r with
      spill.file := flatWrite r.spill.file (index * slotLen)
        (blob.take (min moved (blob.length - 1))) }
    throw (ioError "written" error)
  | _ => modify fun r => { r with spill.file := writeAt r.spill.file (index * slotLen) blob }

def writeFrame (fails : Option FrameFault) (index : Nat) (plaintext : Bytes) : SpillIo Unit := do
  let s := (← get).spill
  let blob ← ofExcept ((Aead.encrypt P s.key (rng s.drawn) plaintext (frameAad index)).mapError
    fun _ => cryptoError "seal a frame")
  modify fun r => ⟨{ r.spill with drawn := r.spill.drawn + 1 },
    ⟨index, plaintext, blob⟩ :: r.frames⟩
  putBlob fails index blob

def patch (fails : Option FrameFault) (position : Nat) (chunk : Bytes) : SpillIo Unit := do
  let frame ← readFrame P fails (position / frameLen)
  writeFrame P rng fails (position / frameLen) (patched frame (position % frameLen) chunk)

variable (fault : Option Fault)

def fillGap (at' offset : Nat) : SpillIo Unit :=
  if _h : at' < offset then do
    let take := Spill.takeLen at' (offset - at')
    patch P rng (fault.bind (·.inGap at')) at' (zeros take)
    fillGap (at' + take) offset
  else pure ()
termination_by offset - at'
decreasing_by
  have hpos : 0 < Spill.takeLen at' (offset - at') := Spill.takeLen_pos (by omega)
  omega

def writeChunks (position : Nat) (data : Bytes) : SpillIo Unit :=
  if _h : data = [] then pure ()
  else do
    let take := Spill.takeLen position data.length
    patch P rng (fault.bind (·.inData position)) position (data.take take)
    modify fun r => { r with spill.len := max r.spill.len (position + take) }
    writeChunks (position + take) (data.drop take)
termination_by data.length
decreasing_by
  have hdata := length_pos_iff.mpr _h
  have hpos : 0 < Spill.takeLen position data.length := Spill.takeLen_pos hdata
  rw [length_drop]
  omega

def writeAt (offset : Nat) (data : Bytes) : SpillIo Unit := do
  if data = [] then return
  let s := (← get).spill
  if s.len < offset then
    fillGap P rng fault s.len offset
    modify fun r => { r with spill.len := offset }
  writeChunks P rng fault offset data

def growTo (at' len step : Nat) (hstep : 0 < step) : SpillIo Unit :=
  if _h : at' < len then do
    let take := min (len - at') step
    writeAt P rng fault at' (zeros take)
    growTo (at' + take) len step hstep
  else pure ()
termination_by len - at'

theorem growStep_pos {start len : Nat} (h : start < len) : 0 < min (len - start) frameLen :=
  Nat.lt_min.mpr ⟨Nat.sub_pos_of_lt h, by decide⟩

def grow (start len : Nat) : SpillIo Unit :=
  if h : start < len then
    growTo P rng fault start len (min (len - start) frameLen) (growStep_pos h)
  else pure ()

def truncate (len : Nat) : SpillIo Unit := do
  let s := (← get).spill
  if len < s.len then
    let frame ← readFrame P (fault.bind (·.inCut)) (len / frameLen)
    writeFrame P rng (fault.bind (·.inCut)) (len / frameLen) (frame.take (len % frameLen))
    match fault.bind (·.inSetLen) with
    | some error => throw (ioError "truncated" error)
    | none =>
      modify fun r => { r with
        spill.file := sized r.spill.file ((len + frameLen - 1) / frameLen * slotLen) }
  else
    grow P rng fault s.len len
  modify fun r => { r with spill.len := len }

def call : SpillCall → SpillIo Unit
  | .write offset data => writeAt P rng fault offset data
  | .truncate len => truncate P rng fault len

end SpillIo

variable {P : Primitives} {rng : Nat → Nonce} {key : Key} {file content blob data chunk : Bytes}
  {r r' : Logged} {fails : Option FrameFault} {fault : Option Fault}
  {index position offset at' len : Nat}

/-- The fault has moved no byte of a slot. -/
def FrameFault.Untorn (f : FrameFault) : Prop := ∀ moved, f.call = .write moved → moved = 0

/-- A failing call spares a spill of `len` bytes.  A write that moved something was for a slot
without a recorded byte; a gap is being filled at the recorded length, or from a whole number of
frames on; and the length of the file does not follow a frame that was cut short. -/
def Fault.Spares (len : Nat) : Fault → Prop
  | .gap position f => (frameLen ∣ len ∨ position = len) ∧
      (f.Untorn ∨ len ≤ position / frameLen * frameLen)
  | .data position f => f.Untorn ∨ max len position ≤ position / frameLen * frameLen
  | .cut f => f.Untorn
  | .setLen _ => False

theorem Fault.inGap_eq_some {f : FrameFault} :
    fault.bind (·.inGap position) = some f ↔ fault = some (.gap position f) := by
  rcases fault with _ | ⟨p, g⟩ | ⟨p, g⟩ | g | e <;> simp [inGap]

theorem Fault.inData_eq_some {f : FrameFault} :
    fault.bind (·.inData position) = some f ↔ fault = some (.data position f) := by
  rcases fault with _ | ⟨p, g⟩ | ⟨p, g⟩ | g | e <;> simp [inData]

theorem Fault.inCut_eq_some {f : FrameFault} :
    fault.bind (·.inCut) = some f ↔ fault = some (.cut f) := by
  rcases fault with _ | ⟨p, g⟩ | ⟨p, g⟩ | g | e <;> simp [inCut]

theorem Fault.inSetLen_eq_some {e : String} :
    fault.bind (·.inSetLen) = some e ↔ fault = some (.setLen e) := by
  rcases fault with _ | ⟨p, g⟩ | ⟨p, g⟩ | g | e <;> simp [inSetLen]

theorem Sealed.torn (hP : P.Lawful) (h : Sealed P key file content) {moved : Nat}
    (hspares : moved = 0 ∨ content.length ≤ index * frameLen) :
    Sealed P key (flatWrite file (index * slotLen) (blob.take moved)) content := by
  unfold flatWrite
  by_cases hnone : blob.take moved = []
  · rwa [if_pos hnone]
  · rw [if_neg hnone]
    have hpast : content.length ≤ index * frameLen := by
      refine hspares.resolve_left fun hzero => hnone ?_
      rw [hzero, take_zero]
    intro i hi
    obtain ⟨nonce, sealedBlob, hseal, hstands⟩ := h i hi
    refine ⟨nonce, sealedBlob, hseal, hstands.writeAt (.inl ?_)⟩
    have hlen := length_blob hP hseal
    have hbefore : i < index := Nat.lt_of_mul_lt_mul_right (Nat.lt_of_lt_of_le hi hpast)
    have hmul := Nat.mul_le_mul_right slotLen hbefore
    rw [length_frameOf] at hlen
    simp only [frameLen, overhead, slotLen] at *
    omega

theorem Sealed.of_sized (h : Sealed P key file (sized content len)) (hle : content.length ≤ len)
    (hdvd : frameLen ∣ content.length) : Sealed P key file content := by
  intro i hi
  obtain ⟨nonce, sealedBlob, hseal, hstands⟩ := h i (by rw [length_sized]; omega)
  have hwhole : (i + 1) * frameLen ≤ content.length := by
    obtain ⟨n, hn⟩ := hdvd
    rw [hn, Nat.mul_comm frameLen] at hi ⊢
    exact Nat.mul_le_mul_right _ (Nat.lt_of_mul_lt_mul_right hi)
  have hsame : frameOf (sized content len) i = frameOf content i := by
    rw [← @frameOf_take_whole (sized content len) i content.length hwhole,
      ← sized_of_length_le (by rwa [length_sized]), sized_sized_of_le hle, sized_length]
  exact ⟨nonce, sealedBlob, hsame ▸ hseal, hstands⟩

theorem Sealed.cut (hP : P.Lawful) (h : Sealed P key file content) (hless : len < content.length)
    {nonce : Nonce} (hseal : Aead.encrypt P key nonce (frameOf (content.take len) (len / frameLen))
      (frameAad (len / frameLen)) = .ok blob) :
    Sealed P key (sized (writeAt file (len / frameLen * slotLen) blob)
      ((len + frameLen - 1) / frameLen * slotLen)) (content.take len) := by
  have hlen : (content.take len).length = len := by
    rw [length_take]
    omega
  have hslots := h.write hP hseal fun i hi hlt => by
    rw [hlen] at hlt
    have hbefore : i + 1 ≤ len / frameLen := by
      have hi' := (Nat.le_div_iff_mul_le (show 0 < frameLen by decide)).mpr (Nat.le_of_lt hlt)
      omega
    have hmul := (Nat.le_div_iff_mul_le (show 0 < frameLen by decide)).mp hbefore
    exact ⟨by omega, frameOf_take_whole hmul⟩
  intro i hi
  obtain ⟨nonce', blob', hseal', hstands⟩ := hslots i hi
  refine ⟨nonce', blob', hseal', hstands.sized ?_⟩
  have hsize := length_blob hP hseal'
  rw [length_frameOf, hlen] at hsize
  rw [hlen] at hi
  have hslot : i + 1 ≤ (len + frameLen - 1) / frameLen := by
    simp only [frameLen] at *
    omega
  have hmul := Nat.mul_le_mul_right slotLen hslot
  simp only [frameLen, overhead, slotLen] at *
  omega

def Logged.sealed (r : Logged) (index : Nat) (plaintext blob file : Bytes) : Logged :=
  ⟨{ r.spill with file, drawn := r.spill.drawn + 1 }, ⟨index, plaintext, blob⟩ :: r.frames⟩

namespace SpillIo

section

variable {α β : Type} {x : SpillIo α} {f : α → SpillIo β} {a : α} {e : CliError}

theorem bind_ok (h : x r = .ok a r') : (x >>= f) r = f a r' := by
  simp only [bind, EStateM.bind, h]

theorem get_bind {f : Logged → SpillIo β} : (get >>= f) r = f r r := rfl

theorem bind_error (h : x r = .error e r') : (x >>= f) r = .error e r' := by
  simp only [bind, EStateM.bind, h]

end

section

variable (fails : Option FrameFault)

theorem attempt_cases (call : FrameCall) (what : String) (r : Logged) :
    attempt fails call what r = .ok () r ∨
      (∃ f, fails = some f) ∧ ∃ e, attempt fails call what r = .error e r := by
  cases fails with
  | none => exact .inl rfl
  | some f =>
    by_cases hcall : f.call = call
    · exact .inr ⟨⟨f, rfl⟩, ioError what f.error, by simp only [attempt, if_pos hcall]; rfl⟩
    · exact .inl (by simp only [attempt, if_neg hcall]; rfl)

theorem readFrame_apply (index : Nat) (r : Logged) :
    readFrame P fails index r = (if blobLen index r.spill.len = 0 then pure []
      else do
        attempt fails .seekToRead "sought"
        attempt fails .read "read"
        ofExcept (r.spill.readFrame P index) : SpillIo Bytes) r := by
  unfold readFrame Spill.readFrame
  show (if blobLen index r.spill.len = 0 then _ else _ : SpillIo Bytes) r = _
  by_cases hzero : blobLen index r.spill.len = 0
  · rw [if_pos hzero, if_pos hzero]
  · rw [if_neg hzero, if_neg hzero]
    simp only [hzero, if_false]
    split <;> rfl

theorem readFrame_cases (index : Nat) (r : Logged) :
    readFrame P fails index r = ofExcept (r.spill.readFrame P index) r ∨
      (∃ f, fails = some f) ∧ ∃ e, readFrame P fails index r = .error e r := by
  rw [readFrame_apply]
  by_cases hzero : blobLen index r.spill.len = 0
  · left
    rw [if_pos hzero, Spill.readFrame]
    simp only [hzero, if_true]
    rfl
  · rw [if_neg hzero]
    rcases attempt_cases fails .seekToRead "sought" r with hseek | ⟨hfails, e, hseek⟩
    · rcases attempt_cases fails .read "read" r with hread | ⟨hfails, e, hread⟩
      · exact .inl ((bind_ok hseek).trans (bind_ok hread))
      · exact .inr ⟨hfails, e, (bind_ok hseek).trans (bind_error hread)⟩
    · exact .inr ⟨hfails, e, bind_error hseek⟩

theorem putBlob_cases (index : Nat) (blob : Bytes) (r : Logged) :
    putBlob fails index blob r =
        .ok () { r with spill.file := ProofKit.writeAt r.spill.file (index * slotLen) blob } ∨
      ∃ f, fails = some f ∧ ∃ e moved, (f.Untorn → moved = 0) ∧ putBlob fails index blob r =
        .error e { r with
          spill.file := flatWrite r.spill.file (index * slotLen) (blob.take moved) } := by
  rcases attempt_cases fails .seekToWrite "sought" r with hseek | ⟨⟨f, hf⟩, e, hseek⟩
  · have hput : putBlob fails index blob r = _ := bind_ok hseek
    rw [hput]
    rcases fails with _ | ⟨_ | _ | _ | moved, error⟩
    · exact .inl rfl
    · exact .inl rfl
    · exact .inl rfl
    · exact .inl rfl
    · refine .inr ⟨_, rfl, ioError "written" error, min moved (blob.length - 1), fun hf => ?_, rfl⟩
      rw [hf moved rfl, Nat.zero_min]
  · exact .inr ⟨f, hf, e, 0, fun _ => rfl, bind_error hseek⟩

theorem writeFrame_cases {plain : Bytes}
    (hblob : Aead.encrypt P r.spill.key (rng r.spill.drawn) plain (frameAad index) = .ok blob) :
    writeFrame P rng fails index plain r =
        .ok () (r.sealed index plain blob (ProofKit.writeAt r.spill.file (index * slotLen) blob)) ∨
      ∃ f, fails = some f ∧ ∃ e moved, (f.Untorn → moved = 0) ∧
        writeFrame P rng fails index plain r = .error e (r.sealed index plain blob
          (flatWrite r.spill.file (index * slotLen) (blob.take moved))) := by
  have hwrite : writeFrame P rng fails index plain r =
      putBlob fails index blob (r.sealed index plain blob r.spill.file) := by
    have hsealed : ofExcept ((Aead.encrypt P r.spill.key (rng r.spill.drawn) plain
        (frameAad index)).mapError fun _ => cryptoError "seal a frame") r = .ok blob r := by
      rw [hblob]
      rfl
    exact get_bind.trans (bind_ok hsealed)
  rw [hwrite]
  exact putBlob_cases fails index blob _

end

section

variable (hP : P.Lawful)
include hP

theorem patch_cases (h : Sealed P r.spill.key r.spill.file content)
    (hle : position ≤ content.length) (hin : position % frameLen + chunk.length ≤ frameLen)
    (hread : r.spill.readFrame P (position / frameLen) =
      .ok (frameOf content (position / frameLen))) :
    (∃ r', patch P rng fails position chunk r = .ok () r' ∧
        r.spill.patch P rng position chunk = .ok r'.spill ∧ r'.spill.len = r.spill.len ∧
        Sealed P r'.spill.key r'.spill.file (ProofKit.writeAt content position chunk)) ∨
      ∃ f, fails = some f ∧ ∃ e r', patch P rng fails position chunk r = .error e r' ∧
        r'.spill.len = r.spill.len ∧ ∀ content, Sealed P r.spill.key r.spill.file content →
          f.Untorn ∨ content.length ≤ position / frameLen * frameLen →
          Sealed P r'.spill.key r'.spill.file content := by
  rcases readFrame_cases fails (position / frameLen) r with hok | ⟨⟨f, hf⟩, e, herror⟩
  · rw [hread] at hok
    have hpatched := patched_eq (frameOf content (position / frameLen)) (position % frameLen) chunk
    rw [← frameOf_writeAt_same hin hle] at hpatched
    obtain ⟨blob, hblob, hwrite⟩ := @Spill.writeFrame_eq P rng r.spill (position / frameLen) hP _
      (length_frameOf_le (ProofKit.writeAt content position chunk) (position / frameLen))
    rw [← hpatched] at hblob hwrite
    rcases writeFrame_cases fails hblob with hdone | ⟨f, hf, e, moved, htorn, herror⟩
    · refine .inl ⟨_, (bind_ok hok).trans hdone, ?_, rfl, ?_⟩
      · rw [Spill.patch, hread]
        exact hwrite
      · rw [hpatched] at hblob
        exact h.write hP hblob fun i hi hlt =>
          ⟨mul_lt_of_lt_writeAt hin hle hi hlt, frameOf_writeAt_other hin hle hi⟩
    · refine .inr ⟨f, hf, e, _, (bind_ok hok).trans herror, rfl, fun content h hspares => ?_⟩
      exact h.torn hP (hspares.imp_left htorn)
  · exact .inr ⟨f, hf, e, r, bind_error herror, rfl, fun _ h _ => h⟩

theorem fillGap_cases (h : Sealed P r.spill.key r.spill.file (sized content at'))
    (hlen : r.spill.len = content.length) (hfrom : content.length ≤ at') (hto : at' ≤ offset)
    (hedge : at' = content.length ∨ frameLen ∣ at' ∨ at' = offset)
    (hspares : ∀ p f, fault = some (.gap p f) → (Fault.gap p f).Spares content.length) :
    (∃ r', fillGap P rng fault at' offset r = .ok () r' ∧
        r.spill.fillGap P rng at' offset = .ok r'.spill ∧
        Sealed P r'.spill.key r'.spill.file (sized content offset)) ∨
      ∃ f, fault = some f ∧ ∃ e r', fillGap P rng fault at' offset r = .error e r' ∧
        Flat P content r'.spill := by
  induction hgap : offset - at' using Nat.strong_induction_on generalizing r at' with
  | _ gap ih =>
    rw [fillGap, Spill.fillGap]
    by_cases hless : at' < offset
    · rw [dif_pos hless, dif_pos hless]
      have hread : r.spill.readFrame P (at' / frameLen) =
          .ok (frameOf (sized content at') (at' / frameLen)) := by
        rcases hedge with rfl | hdvd | rfl
        · rw [sized_length] at h ⊢
          exact Spill.readFrame_eq hP h hlen
        · have hmul := Nat.div_mul_cancel hdvd
          rw [frameOf_eq_nil (by rw [length_sized]; exact Nat.le_of_eq hmul.symm)]
          exact Spill.readFrame_past (by omega)
        · omega
      have hin := Spill.takeLen_le at' (offset - at')
      have hpos : 0 < Spill.takeLen at' (offset - at') := Spill.takeLen_pos (by omega)
      have htake : Spill.takeLen at' (offset - at') ≤ offset - at' := Nat.min_le_right ..
      have hzeros : (zeros (Spill.takeLen at' (offset - at'))).length =
          Spill.takeLen at' (offset - at') := length_replicate
      have hchunk : at' % frameLen + (zeros (Spill.takeLen at' (offset - at'))).length ≤
          frameLen := by
        rwa [hzeros]
      rcases @patch_cases P rng _ _ r (fault.bind (·.inGap at')) at' hP h
        (Nat.le_of_eq length_sized.symm) hchunk hread with
        ⟨r₁, hpatch, hpure, hlen₁, hslots₁⟩ | ⟨f, hf, e, r₁, herror, hlen₁, hkeeps⟩
      · rw [writeAt_sized_zeros hfrom] at hslots₁
        rcases ih _ (by omega) hslots₁ (hlen₁.trans hlen) (by omega) (by omega) (by
          unfold Spill.takeLen
          simp only [frameLen]
          omega) rfl with ⟨r', hfill, hpure', hslots'⟩ | ⟨f, hf, e, r', herror, hflat⟩
        · refine .inl ⟨r', (bind_ok hpatch).trans hfill, ?_, hslots'⟩
          simp only [hpure]
          exact hpure'
        · exact .inr ⟨f, hf, e, r', (bind_ok hpatch).trans herror, hflat⟩
      · have hgapFault := Fault.inGap_eq_some.mp hf
        obtain ⟨hsteady, hslot⟩ := hspares _ _ hgapFault
        have hcontent : Sealed P r.spill.key r.spill.file content := by
          rcases hsteady with hdvd | rfl
          · exact h.of_sized hfrom hdvd
          · rwa [sized_length] at h
        exact .inr ⟨_, hgapFault, e, r₁, bind_error herror, hkeeps content hcontent hslot,
          hlen₁.trans hlen⟩
    · have heq : at' = offset := by omega
      rw [dif_neg hless, dif_neg hless]
      exact .inl ⟨r, rfl, rfl, heq ▸ h⟩

theorem writeChunks_cases (h : Flat P content r.spill) (hle : position ≤ content.length)
    (hspares : ∀ p f, fault = some (.data p f) → position ≤ p →
      (Fault.data p f).Spares content.length) :
    (∃ r', writeChunks P rng fault position data r = .ok () r' ∧
        r.spill.writeChunks P rng position data = .ok r'.spill ∧
        Flat P (ProofKit.writeAt content position data) r'.spill) ∨
      ∃ f, fault = some f ∧ ∃ e r' k, writeChunks P rng fault position data r = .error e r' ∧
        k < data.length ∧ Flat P (ProofKit.writeAt content position (data.take k)) r'.spill := by
  induction hsize : data.length using Nat.strong_induction_on
    generalizing r content position data with
  | _ size ih =>
    rw [writeChunks, Spill.writeChunks]
    by_cases hdata : data = []
    · rw [dif_pos hdata, dif_pos hdata, hdata, writeAt_nil hle]
      exact .inl ⟨r, rfl, rfl, h⟩
    · rw [dif_neg hdata, dif_neg hdata]
      have hsome := length_pos_iff.mpr hdata
      have hpos : 0 < Spill.takeLen position data.length := Spill.takeLen_pos hsome
      have hin := Spill.takeLen_le position data.length
      have htake : (data.take (Spill.takeLen position data.length)).length = _ :=
        Spill.length_take_takeLen
      have hread := @Spill.readFrame_eq P content r.spill (position / frameLen) hP h.slots h.len
      rcases @patch_cases P rng _ _ r (fault.bind (·.inData position)) position hP h.slots hle
        (htake.symm ▸ hin) hread with
        ⟨r₁, hpatch, hpure, hlen₁, hslots₁⟩ | ⟨f, hf, e, r₁, herror, hlen₁, hkeeps⟩
      · have hlong : (ProofKit.writeAt content position (data.take (Spill.takeLen position
            data.length))).length = max content.length
              (position + Spill.takeLen position data.length) := by
          rw [length_writeAt, htake]
        have hflat : Flat P (ProofKit.writeAt content position (data.take (Spill.takeLen position
            data.length))) { r₁.spill with
              len := max r₁.spill.len (position + Spill.takeLen position data.length) } := by
          refine ⟨hslots₁, ?_⟩
          rw [hlong, hlen₁, h.len]
        have hless : (data.drop (Spill.takeLen position data.length)).length < size := by
          rw [length_drop]
          omega
        have hjoin := fun more => writeAt_append content position
          (data.take (Spill.takeLen position data.length)) more
        rw [htake] at hjoin
        rcases @ih _ hless _ (data.drop (Spill.takeLen position data.length)) ⟨{ r₁.spill with
            len := max r₁.spill.len (position + Spill.takeLen position data.length) }, r₁.frames⟩
          (position + Spill.takeLen position data.length) hflat (by rw [hlong]; omega) (by
            intro p f hf hp
            have hspared := hspares p f hf (by omega)
            rw [hlong]
            simp only [Fault.Spares] at hspared ⊢
            rwa [Nat.max_assoc, Nat.max_eq_right hp]) rfl with
          ⟨r', hwrite, hpure', hflat'⟩ | ⟨f, hf, e, r', k, herror, hk, hflat'⟩
        · rw [hjoin, take_append_drop] at hflat'
          refine .inl ⟨r', (bind_ok hpatch).trans hwrite, ?_, hflat'⟩
          simp only [hpure]
          exact hpure'
        · rw [hjoin, ← take_add] at hflat'
          rw [length_drop] at hk
          exact .inr ⟨f, hf, e, r', _, (bind_ok hpatch).trans herror, by omega, hflat'⟩
      · have hdataFault := Fault.inData_eq_some.mp hf
        have hslot := hspares _ _ hdataFault (Nat.le_refl _)
        refine .inr ⟨_, hdataFault, e, r₁, 0, bind_error herror, by omega, ?_⟩
        rw [take_zero, writeAt_nil hle]
        refine ⟨hkeeps content h.slots (hslot.imp_right fun hpast => ?_), hlen₁.trans h.len⟩
        exact (Nat.le_max_left ..).trans hpast

theorem writeAt_cases (h : Flat P content r.spill)
    (hgap : ∀ p f, fault = some (.gap p f) → content.length < offset →
      (Fault.gap p f).Spares content.length)
    (hdata : ∀ p f, fault = some (.data p f) → offset ≤ p →
      (Fault.data p f).Spares content.length) :
    (∃ r', writeAt P rng fault offset data r = .ok () r' ∧
        r.spill.writeAt P rng offset data = .ok r'.spill ∧
        Flat P (flatWrite content offset data) r'.spill) ∨
      ∃ f, fault = some f ∧ ∃ e r' content', writeAt P rng fault offset data r = .error e r' ∧
        Flat P content' r'.spill ∧ (content' = content ∨
          ∃ k < data.length, content' = ProofKit.writeAt content offset (data.take k)) := by
  unfold writeAt Spill.writeAt flatWrite
  by_cases hnone : data = []
  · rw [if_pos hnone, if_pos hnone, if_pos hnone]
    exact .inl ⟨r, rfl, rfl, h⟩
  · rw [if_neg hnone, if_neg hnone, if_neg hnone]
    by_cases hless : r.spill.len < offset
    · rw [if_pos hless, get_bind, if_pos hless]
      have hpast : content.length < offset := by rwa [← h.len]
      have hle := Nat.le_of_lt hpast
      have hslots : Sealed P r.spill.key r.spill.file (sized content content.length) := by
        rw [sized_length]
        exact h.slots
      rw [h.len]
      rcases fillGap_cases hP hslots h.len (Nat.le_refl _) hle (.inl rfl)
        (fun p f hf => hgap p f hf hpast) with
        ⟨r₁, hfill, hpure, hslots₁⟩ | ⟨f, hf, e, r₁, herror, hflat⟩
      · have hflat : Flat P (sized content offset) { r₁.spill with len := offset } :=
          ⟨hslots₁, length_sized.symm⟩
        rcases @writeChunks_cases P rng _ data ⟨{ r₁.spill with len := offset },
          r₁.frames⟩ fault offset
          hP hflat (Nat.le_of_eq length_sized.symm) (by
            intro p f hf hp
            have hspared := hdata p f hf hp
            simp only [Fault.Spares, length_sized] at hspared ⊢
            rw [Nat.max_eq_right (hle.trans hp)] at hspared
            rwa [Nat.max_eq_right hp]) with
          ⟨r', hwrite, hpure', hflat'⟩ | ⟨f, hf, e, r', k, herror, hk, hflat'⟩
        · rw [writeAt_sized hle] at hflat'
          refine .inl ⟨r', (bind_ok hfill).trans hwrite, ?_, hflat'⟩
          rw [hpure]
          exact hpure'
        · rw [writeAt_sized hle] at hflat'
          exact .inr ⟨f, hf, e, r', _, (bind_ok hfill).trans herror, hflat', .inr ⟨k, hk, rfl⟩⟩
      · exact .inr ⟨f, hf, e, r₁, content, bind_error herror, hflat, .inl rfl⟩
    · rw [if_neg hless, get_bind, if_neg hless]
      have hle : offset ≤ content.length := by
        rw [← h.len]
        exact Nat.le_of_not_lt hless
      rcases @writeChunks_cases P rng _ data r fault offset hP h hle hdata with
        hdone | ⟨f, hf, e, r', k, herror, hk, hflat⟩
      · exact .inl hdone
      · exact .inr ⟨f, hf, e, r', _, herror, hflat, .inr ⟨k, hk, rfl⟩⟩

theorem growTo_cases {step : Nat} (h : Flat P content r.spill) (hle : content.length ≤ len)
    (hstep : 0 < step)
    (hspares : ∀ p f, fault = some (.data p f) → content.length ≤ p →
      (Fault.data p f).Spares content.length) :
    (∃ r', growTo P rng fault content.length len step hstep r = .ok () r' ∧
        r.spill.growTo P rng content.length len step hstep = .ok r'.spill ∧
        Flat P (sized content len) r'.spill) ∨
      ∃ f, fault = some f ∧ ∃ e r' n, growTo P rng fault content.length len step hstep
        r = .error e r' ∧
        content.length ≤ n ∧ n ≤ len ∧ Flat P (sized content n) r'.spill := by
  induction hgap : len - content.length using Nat.strong_induction_on generalizing r content with
  | _ gap ih =>
    rw [growTo, Spill.growTo]
    by_cases hless : content.length < len
    · rw [dif_pos hless, dif_pos hless]
      have hsome : zeros (min (len - content.length) step) ≠ [] := by
        apply ne_nil_of_length_pos
        rw [zeros, length_replicate]
        omega
      rcases @writeAt_cases P rng content (zeros (min (len - content.length) step)) r fault
        content.length hP h (fun _ _ _ hlt => absurd hlt (Nat.lt_irrefl _)) hspares with
        ⟨r₁, hwrite, hpure, hflat⟩ | ⟨f, hf, e, r₁, content', herror, hflat, hleft⟩
      · rw [flatWrite, if_neg hsome, writeAt_length_zeros] at hflat
        have hlong : (sized content (content.length + min (len - content.length) step)).length =
            content.length + min (len - content.length) step := length_sized
        rcases ih _ (by omega) hflat (by omega) (by
            intro p f hf hp
            have hfrom : content.length ≤ p := by omega
            have hspared := hspares p f hf hfrom
            simp only [Fault.Spares] at hspared ⊢
            rw [Nat.max_eq_right hfrom] at hspared
            rwa [Nat.max_eq_right hp]) rfl with
          ⟨r', hgrow, hpure', hflat'⟩ | ⟨f, hf, e, r', n, herror, hn, hnlen, hflat'⟩
        · rw [hlong] at hgrow hpure'
          rw [sized_sized_of_le (by omega)] at hflat'
          refine .inl ⟨r', (bind_ok hwrite).trans hgrow, ?_, hflat'⟩
          simp only [hpure]
          exact hpure'
        · rw [hlong] at herror hn
          rw [sized_sized_of_le (by omega)] at hflat'
          exact .inr ⟨f, hf, e, r', n, (bind_ok hwrite).trans herror, by omega, hnlen, hflat'⟩
      · refine .inr ⟨f, hf, e, r₁, ?_⟩
        rcases hleft with hsame | ⟨k, hk, rfl⟩
        · rw [hsame, ← sized_length content] at hflat
          exact ⟨content.length, bind_error herror, Nat.le_refl _, hle, hflat⟩
        · rw [zeros, length_replicate] at hk
          rw [zeros, take_replicate, Nat.min_eq_left (Nat.le_of_lt hk)] at hflat
          have hend := writeAt_length_zeros content k
          exact ⟨content.length + k, bind_error herror, Nat.le_add_right .., by omega, hend ▸ hflat⟩
    · have heq : content.length = len := by omega
      rw [dif_neg hless, dif_neg hless, ← heq, sized_length]
      exact .inl ⟨r, rfl, rfl, h⟩

/-- The frame that the cut lands in is sealed again, and the slots behind it go. -/
theorem shrink_cases (h : Flat P content r.spill) (hless : len < content.length)
    (hspares : ∀ f, fault = some f → f.Spares content.length) :
    (∃ r', truncate P rng fault len r = .ok () r' ∧ r.spill.truncate P rng len = .ok r'.spill ∧
        Flat P (content.take len) r'.spill) ∨
      ∃ f, fault = some f ∧ ∃ e r', truncate P rng fault len r = .error e r' ∧
        Flat P content r'.spill := by
  have hcut : len < r.spill.len := by rwa [h.len]
  have hpure := @Spill.readFrame_eq P content r.spill (len / frameLen) hP h.slots h.len
  unfold truncate Spill.truncate
  rw [get_bind, if_pos hcut, if_pos hcut]
  rcases readFrame_cases (fault.bind (·.inCut)) (len / frameLen) r with hread | ⟨⟨f, hf⟩, e, herror⟩
  · rw [hpure] at hread
    obtain ⟨blob, hblob, hwrite⟩ := @Spill.writeFrame_eq P rng r.spill (len / frameLen) hP _
      (length_frameOf_le (content.take len) (len / frameLen))
    have hslots := h.slots.cut hP hless hblob
    rw [frameOf_take_cut] at hblob hwrite
    rcases writeFrame_cases (fault.bind (·.inCut)) hblob with hdone |
      ⟨f, hf, e, moved, htorn, herror⟩
    · cases hset : fault.bind (·.inSetLen) with
      | some error => exact (hspares _ (Fault.inSetLen_eq_some.mp hset)).elim
      | none =>
        refine .inl ⟨_, (bind_ok hread).trans (bind_ok hdone), ?_, hslots, ?_⟩
        · rw [hpure, ok_bind, hwrite]
          rfl
        · rw [length_take]
          exact (Nat.min_eq_left (Nat.le_of_lt hless)).symm
    · have hcutFault := Fault.inCut_eq_some.mp hf
      refine .inr ⟨_, hcutFault, e, _, (bind_ok hread).trans (bind_error herror), ?_, h.len⟩
      exact h.slots.torn hP (.inl (htorn (hspares _ hcutFault)))
  · exact .inr ⟨_, Fault.inCut_eq_some.mp hf, e, r, bind_error herror, h⟩

theorem truncate_cases (h : Flat P content r.spill)
    (hspares : ∀ f, fault = some f → f.Spares content.length) :
    (∃ r', truncate P rng fault len r = .ok () r' ∧ r.spill.truncate P rng len = .ok r'.spill ∧
        Flat P (sized content len) r'.spill) ∨
      ∃ f, fault = some f ∧ ∃ e r' n, truncate P rng fault len r = .error e r' ∧
        content.length ≤ n ∧ (n = content.length ∨ n ≤ len) ∧
          Flat P (sized content n) r'.spill := by
  rcases Nat.lt_trichotomy len content.length with hless | rfl | hmore
  · rcases shrink_cases hP h hless hspares with hdone | ⟨f, hf, e, r', herror, hflat⟩
    · rw [sized_of_length_le (Nat.le_of_lt hless)]
      exact .inl hdone
    · rw [← sized_length content] at hflat
      exact .inr ⟨f, hf, e, r', _, herror, Nat.le_refl _, .inl rfl, hflat⟩
  · left
    unfold truncate Spill.truncate
    rw [get_bind, if_neg (by rw [h.len]; omega), grow, dif_neg (by rw [h.len]; omega),
      if_neg (by rw [h.len]; omega), dif_neg (by rw [h.len]; omega), sized_length]
    exact ⟨_, rfl, rfl, h.slots, rfl⟩
  · unfold truncate Spill.truncate
    rw [get_bind, if_neg (by rw [h.len]; omega), grow, dif_pos (by rwa [h.len]),
      if_neg (by rw [h.len]; omega), dif_pos (by rwa [h.len])]
    have hstep : 0 < min (len - r.spill.len) frameLen := growStep_pos (by rwa [h.len])
    have hgrows := @growTo_cases P rng content r fault len hP _ h (Nat.le_of_lt hmore) hstep
      (fun p f hf _ => hspares _ hf)
    rw [← h.len] at hgrows
    rcases hgrows with ⟨r₁, hgrow, hpure, hflat⟩ | ⟨f, hf, e, r', n, herror, hn, hlen, hflat⟩
    · refine .inl ⟨_, bind_ok hgrow, ?_, hflat.slots, length_sized.symm⟩
      rw [hpure]
      rfl
    · rw [h.len] at hn
      exact .inr ⟨f, hf, e, r', n, bind_error herror, hn, .inr hlen, hflat⟩

end

end SpillIo

/-- What a call that fails may leave of the content: some of the data is written, or some of the
zeros are appended. -/
def SpillCall.Leaves (content content' : Bytes) : SpillCall → Prop
  | .write offset data => content' = content ∨
      ∃ k < data.length, content' = writeAt content offset (data.take k)
  | .truncate len =>
    ∃ n, content.length ≤ n ∧ (n = content.length ∨ n ≤ len) ∧ content' = sized content n

/-- The call may change the byte at this position. -/
def SpillCall.Touches (position : Nat) : SpillCall → Prop
  | .write offset data => offset ≤ position ∧ position < offset + data.length
  | .truncate len => len ≤ position

theorem SpillCall.Leaves.kept {call : SpillCall} {content' : Bytes}
    (h : call.Leaves content content') (hin : position < content.length)
    (hother : ¬call.Touches position) : content'[position]? = content[position]? := by
  cases call with
  | write offset data =>
    rcases h with rfl | ⟨k, hk, rfl⟩
    · rfl
    · rw [getElem?_writeAt, length_take, Nat.min_eq_left (Nat.le_of_lt hk)]
      by_cases hbefore : position < offset
      · rw [if_pos hbefore, if_pos hin]
      · have hbehind : ¬position < offset + data.length :=
          fun hlt => hother ⟨Nat.le_of_not_lt hbefore, hlt⟩
        rw [if_neg hbefore, if_neg (by omega)]
  | truncate len =>
    obtain ⟨n, hn, -, rfl⟩ := h
    rw [getElem?_sized, if_pos (by omega), if_pos hin]

theorem Flat.call_cases (hP : P.Lawful) (h : Flat P content r.spill)
    (hspares : ∀ f, fault = some f → f.Spares content.length) (call : SpillCall) :
    (∃ r', SpillIo.call P rng fault call r = .ok () r' ∧ r.spill.call P rng call = .ok r'.spill ∧
        Flat P (flatCall content call) r'.spill) ∨
      ∃ f, fault = some f ∧ ∃ e r' content', SpillIo.call P rng fault call r = .error e r' ∧
        Flat P content' r'.spill ∧ call.Leaves content content' := by
  cases call with
  | write offset data =>
    exact @SpillIo.writeAt_cases P rng content data r fault offset hP h
      (fun p f hf _ => hspares _ hf) (fun p f hf _ => hspares _ hf)
  | truncate len =>
    rcases @SpillIo.truncate_cases P rng content r fault len hP h hspares with
      hdone | ⟨f, hf, e, r', n, herror, hn, hlen, hflat'⟩
    · exact .inl hdone
    · exact .inr ⟨f, hf, e, r', _, herror, hflat', n, hn, hlen, rfl⟩

theorem Flat.call {s : Spill} (hP : P.Lawful) (h : Flat P content s) (call : SpillCall) :
    ∃ s', s.call P rng call = .ok s' ∧ Flat P (flatCall content call) s' := by
  rcases @Flat.call_cases P rng content ⟨s, []⟩ none hP h nofun call with
    ⟨r', -, hpure, hflat⟩ | ⟨f, hf, -⟩
  · exact ⟨r'.spill, hpure, hflat⟩
  · cases hf

end Dctl.Mount
