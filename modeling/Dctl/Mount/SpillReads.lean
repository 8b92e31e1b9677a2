import Dctl.Mount.SpillFaults

/-! What the reader of a spill yields after any sequence of writes and truncates, and that a spill
is as good after a call on the backing file that failed and spared it. -/

namespace Dctl.Mount

open ProofKit Crypto Cli List

variable {P : Primitives} {rng : Nat → Nonce} {key : Key} {content out : Bytes} {s : Spill}

section Reader

variable {r r' : SpillReader} {index n : Nat}

/-- The reader is of the content: its length fits a `u64`, and the frame at hand is the one it says.
-/
structure Views (P : Primitives) (content : Bytes) (r : SpillReader) : Prop where
  slots : Sealed P r.key r.file content
  len : r.len = content.length
  bound : content.length < 2 ^ 64 - 1
  atHand : r.frameIndex = 2 ^ 64 - 1 ∨ r.frame = frameOf content r.frameIndex

theorem Flat.views (h : Flat P content s) (hbound : content.length < 2 ^ 64 - 1) :
    Views P content s.reader :=
  ⟨h.slots, h.len, hbound, .inl rfl⟩

theorem Views.load (hP : P.Lawful) (h : Views P content r)
    (hin : index * frameLen < content.length) :
    ∃ r', r.load P index = .ok r' ∧ Views P content r' ∧ r'.frame = frameOf content index ∧
      r'.position = r.position ∧ r'.len = r.len := by
  unfold SpillReader.load
  by_cases hsame : r.frameIndex = index
  · rw [if_pos hsame]
    refine ⟨r, rfl, h, ?_, rfl, rfl⟩
    rcases h.atHand with hnone | hframe
    · have hbound := h.bound
      simp only [frameLen] at hin
      omega
    · rw [hframe, hsame]
  · rw [if_neg hsame]
    obtain ⟨nonce, blob, hseal, hstands⟩ := h.slots index hin
    have hblob := length_blob hP hseal
    have hwant : blobLen index r.len = blob.length := by
      unfold blobLen
      simp only [h.len, if_neg (Nat.not_le_of_lt hin)]
      rw [hblob, length_frameOf]
      omega
    refine ⟨{ r with frame := frameOf content index, frameIndex := index }, ?_,
      ⟨h.slots, h.len, h.bound, .inr rfl⟩, rfl, rfl, rfl⟩
    simp only [hwant, hstands.readAt_eq, Aead.decrypt_encrypt hP hseal]
    rfl

theorem take_drop_frameOf (content : Bytes) (position : Nat) {count : Nat}
    (h : count ≤ frameLen - position % frameLen) :
    ((frameOf content (position / frameLen)).drop (position % frameLen)).take count =
      readAt content position count := by
  have hdiv := Nat.div_add_mod position frameLen
  apply ext_getElem?
  intro k
  unfold frameOf
  rw [List.getElem?_take, List.getElem?_drop, getElem?_readAt, getElem?_readAt]
  by_cases hk : k < count
  · have hframeEnd : position % frameLen + k < frameLen := by omega
    rw [if_pos hk, if_pos hk, if_pos hframeEnd, ← Nat.add_assoc, Nat.mul_comm _ frameLen, hdiv]
  · rw [if_neg hk, if_neg hk]

theorem Views.read (hP : P.Lawful) (h : Views P content r) (n : Nat) :
    ∃ bytes r', r.read P n = .ok (bytes, r') ∧ Views P content r' ∧
      r'.position = r.position + bytes.length ∧ bytes.length ≤ n ∧
      bytes = readAt content r.position bytes.length ∧
      (bytes = [] ↔ content.length ≤ r.position ∨ n = 0) := by
  unfold SpillReader.read
  by_cases hend : r.len ≤ r.position ∨ n = 0
  · rw [if_pos hend]
    rw [h.len] at hend
    exact ⟨[], r, rfl, h, rfl, Nat.zero_le _, rfl, by simp only [hend]⟩
  · rw [if_neg hend]
    rw [h.len] at hend
    obtain ⟨hmore, hsome⟩ := not_or.mp hend
    have hdiv := Nat.div_add_mod r.position frameLen
    have hmod := Nat.mod_lt r.position (show 0 < frameLen by decide)
    have hin : r.position / frameLen * frameLen < content.length := by
      rw [Nat.mul_comm]
      omega
    obtain ⟨r₁, hload, hviews, hframe, hposition, hlen⟩ := h.load hP hin
    have hsize := @length_frameOf content (r.position / frameLen)
    obtain ⟨count, hcount⟩ : ∃ count, count = min (min ((frameOf content
        (r.position / frameLen)).length - r.position % frameLen) (content.length - r.position)) n :=
      ⟨_, rfl⟩
    have hall : (((frameOf content (r.position / frameLen)).drop (r.position % frameLen)).take
        count).length = count := by
      rw [length_take, length_drop, hcount]
      exact Nat.min_eq_left ((Nat.min_le_left _ n).trans (Nat.min_le_left ..))
    refine ⟨((frameOf content (r.position / frameLen)).drop (r.position % frameLen)).take count,
      { r₁ with position := r.position + count }, ?_,
      ⟨hviews.slots, hviews.len, hviews.bound, hviews.atHand⟩, ?_, ?_, ?_, ?_⟩
    · simp only [hload, ok_bind, hframe, hlen, hposition, h.len, hcount]
      rfl
    · rw [hall]
    · rw [hall, hcount]
      exact Nat.min_le_right ..
    · rw [hall]
      refine take_drop_frameOf content r.position ?_
      rw [hcount, hsize]
      exact (Nat.min_le_left _ n).trans ((Nat.min_le_left ..).trans
        (Nat.sub_le_sub_right (Nat.min_le_left ..) _))
    · have hwithin : r.position % frameLen < content.length - r.position / frameLen * frameLen := by
        rw [Nat.mul_comm]
        clear hcount
        omega
      have hpos : 0 < count := by
        rw [hcount, hsize, Nat.lt_min, Nat.lt_min]
        exact ⟨⟨Nat.sub_pos_of_lt (Nat.lt_min.mpr ⟨hmod, hwithin⟩),
          Nat.sub_pos_of_lt (Nat.lt_of_not_le hmore)⟩, Nat.pos_of_ne_zero hsome⟩
      simp only [hend, iff_false]
      apply ne_nil_of_length_pos
      rw [hall]
      exact hpos

theorem SpillReader.seek_ok {dest : SeekFrom} (h : r.seek dest = .ok r') :
    ∃ position, r' = { r with position } := by
  cases dest
  all_goals
    simp only [seek] at h
    split at h
    · cases h
    · exact ⟨_, (Except.ok.inj h).symm⟩

theorem Views.seek (h : Views P content r) {dest : SpillReader.SeekFrom}
    (hseek : r.seek dest = .ok r') : Views P content r' := by
  obtain ⟨position, rfl⟩ := SpillReader.seek_ok hseek
  exact ⟨h.slots, h.len, h.bound, h.atHand⟩

/-- Readers that some reads and seeks lead to. -/
inductive Used (P : Primitives) (r : SpillReader) : SpillReader → Prop
  | refl : Used P r r
  | read {r₁ r₂ : SpillReader} {n : Nat} {bytes : Bytes} :
      Used P r r₁ → r₁.read P n = .ok (bytes, r₂) → Used P r r₂
  | seek {r₁ r₂ : SpillReader} {dest : SpillReader.SeekFrom} :
      Used P r r₁ → r₁.seek dest = .ok r₂ → Used P r r₂

theorem Views.used (hP : P.Lawful) (h : Views P content r) (hused : Used P r r') :
    Views P content r' := by
  induction hused with
  | refl => exact h
  | @read r₁ r₂ n bytes _ hread ih =>
    obtain ⟨_, _, hread', hviews, -⟩ := ih.read hP n
    rw [hread] at hread'
    cases hread'
    exact hviews
  | seek _ hseek ih => exact ih.seek hseek

/-- What reading to the end yields, whatever the sizes of the buffers: `read_to_end`. -/
inductive Drains (P : Primitives) : SpillReader → Bytes → Prop
  | done {r r' : SpillReader} {n : Nat} : 0 < n → r.read P n = .ok ([], r') → Drains P r []
  | more {r r' : SpillReader} {n : Nat} {bytes rest : Bytes} :
      r.read P n = .ok (bytes, r') → Drains P r' rest → Drains P r (bytes ++ rest)

theorem Views.drains_iff (hP : P.Lawful) (h : Views P content r) :
    Drains P r out ↔ out = content.drop r.position := by
  constructor
  · intro hdrains
    induction hdrains with
    | @done r r' n hpos hread =>
      obtain ⟨bytes, _, hread', -, -, -, -, hiff⟩ := h.read hP n
      rw [hread] at hread'
      cases hread'
      have hend := (hiff.mp rfl).resolve_right hpos.ne'
      exact (drop_of_length_le hend).symm
    | @more r r' n bytes rest hread _ ih =>
      obtain ⟨_, _, hread', hviews, hposition, -, hbytes, -⟩ := h.read hP n
      rw [hread] at hread'
      cases hread'
      rw [ih hviews, hposition]
      exact readAt_append_drop hbytes
  · rintro rfl
    induction hleft : content.length - r.position using Nat.strong_induction_on generalizing r with
    | _ left ih =>
      obtain ⟨bytes, r', hread, hviews, hposition, -, hbytes, hiff⟩ := h.read hP 1
      by_cases hend : content.length ≤ r.position
      · obtain rfl := hiff.mpr (.inl hend)
        rw [drop_of_length_le hend]
        exact .done Nat.one_pos hread
      · have hsome : bytes ≠ [] := by
          rw [Ne, hiff]
          omega
        have hlong := length_pos_iff.mpr hsome
        have hrest := ih _ (by omega) hviews rfl
        rw [hposition] at hrest
        rw [← readAt_append_drop hbytes]
        exact .more hread hrest

end Reader

/-- Offsets are below 2^47.  A slice holds fewer than 2^63 bytes. -/
def SpillCall.InRange : SpillCall → Prop
  | write offset data => offset < 2 ^ 47 ∧ data.length < 2 ^ 63
  | truncate len => len < 2 ^ 47

theorem length_flatCall {call : SpillCall} (hcall : call.InRange)
    (h : content.length < 2 ^ 47 + 2 ^ 63) : (flatCall content call).length < 2 ^ 47 + 2 ^ 63 := by
  cases call with
  | write offset data =>
    obtain ⟨hoffset, hdata⟩ := hcall
    show (flatWrite content offset data).length < _
    unfold flatWrite
    split
    · exact h
    · rw [length_writeAt]
      omega
  | truncate len =>
    have hlen : len < 2 ^ 47 := hcall
    show (sized content len).length < _
    rw [length_sized]
    omega

theorem length_flatCalls {calls : List SpillCall} (hcalls : ∀ call ∈ calls, call.InRange)
    (h : content.length < 2 ^ 47 + 2 ^ 63) :
    (calls.foldl flatCall content).length < 2 ^ 47 + 2 ^ 63 := by
  induction calls generalizing content with
  | nil => exact h
  | cons call calls ih =>
    rw [forall_mem_cons] at hcalls
    exact ih hcalls.2 (length_flatCall hcalls.1 h)

theorem Flat.calls (hP : P.Lawful) (h : Flat P content s) (calls : List SpillCall) :
    ∃ s', calls.foldlM (Spill.call P rng) s = .ok s' ∧
      Flat P (calls.foldl flatCall content) s' := by
  induction calls generalizing s content with
  | nil => exact ⟨s, rfl, h⟩
  | cons call calls ih =>
    obtain ⟨s₁, hcall, h₁⟩ := @Flat.call P rng content s hP h call
    obtain ⟨s', hcalls, h'⟩ := ih h₁
    refine ⟨s', ?_, h'⟩
    rw [foldlM_cons, hcall]
    exact hcalls

/-- After any writes and truncates a spill records the length of the byte array they make, and its
reader, wherever it was moved, reads without an error and yields what is left of the array. -/
theorem spill_flat (hP : P.Lawful) (rng : Nat → Nonce) (key : Key) (calls : List SpillCall)
    (hcalls : ∀ call ∈ calls, call.InRange) :
    ∃ s, calls.foldlM (Spill.call P rng) (.new key) = .ok s ∧
      s.len = (calls.foldl flatCall []).length ∧
      ∀ r, Used P s.reader r → (∀ n, ∃ bytes r', r.read P n = .ok (bytes, r')) ∧
        ∀ out, Drains P r out ↔ out = (calls.foldl flatCall []).drop r.position := by
  obtain ⟨s, hrun, hflat⟩ := @Flat.calls P rng _ _ hP (flat_new P key) calls
  have hlen := length_flatCalls hcalls (show ([] : Bytes).length < 2 ^ 47 + 2 ^ 63 by decide)
  refine ⟨s, hrun, hflat.len, fun r hused => ?_⟩
  have hviews := (hflat.views (by omega)).used hP hused
  refine ⟨fun n => ?_, fun out => hviews.drains_iff hP⟩
  obtain ⟨bytes, r', hread, -⟩ := hviews.read hP n
  exact ⟨bytes, r', hread⟩

/-- A byte behind a gap, cut off again, and the file made longer. -/
theorem spill_flat_three :
    (∀ call ∈ [SpillCall.write 2 [7], .truncate 1, .truncate 4], call.InRange) ∧
    ∃ s, [SpillCall.write 2 [7], .truncate 1, .truncate 4].foldlM
        (Spill.call clearPrimitives fun _ => .replicate nonceLen 0)
          (.new (.replicate keyLen 0)) = .ok s ∧
      s.len = 4 ∧ ∀ r, Used clearPrimitives s.reader r →
        (∀ n, ∃ bytes r', r.read clearPrimitives n = .ok (bytes, r')) ∧
        ∀ out, Drains clearPrimitives r out ↔ out = ([0, 0, 0, 0] : Bytes).drop r.position := by
  have hcalls : ∀ call ∈ [SpillCall.write 2 [7], .truncate 1, .truncate 4], call.InRange := by
    intro call hcall
    simp only [mem_cons, not_mem_nil, or_false] at hcall
    rcases hcall with rfl | rfl | rfl
    · exact ⟨by decide, by decide⟩
    · show 1 < 2 ^ 47
      decide
    · show 4 < 2 ^ 47
      decide
  exact ⟨hcalls, spill_flat clearPrimitives_lawful _ _ _ hcalls⟩

section Faults

variable {data : Bytes} {r r' : Logged} {position offset : Nat}

/-- The spill is as one that holds the content and saw no failure: after any further calls its slots
hold the frames of the byte array that they make and it records the array's length, and its reader,
wherever it was moved, reads without an error and yields what is left of the array. -/
def ActsAs (P : Primitives) (rng : Nat → Nonce) (content : Bytes) (r : Logged) : Prop :=
  ∀ calls : List SpillCall, ∃ r', calls.forM (SpillIo.call P rng none) r = .ok () r' ∧
    Flat P (calls.foldl flatCall content) r'.spill ∧
    (r'.spill.len < 2 ^ 64 - 1 → ∀ reader, Used P r'.spill.reader reader →
      (∀ n, ∃ bytes reader', reader.read P n = .ok (bytes, reader')) ∧
        ∀ out, Drains P reader out ↔ out = (calls.foldl flatCall content).drop reader.position)

theorem Flat.forM (hP : P.Lawful) (h : Flat P content r.spill) (calls : List SpillCall) :
    ∃ r', calls.forM (SpillIo.call P rng none) r = .ok () r' ∧
      Flat P (calls.foldl flatCall content) r'.spill := by
  induction calls generalizing r content with
  | nil => exact ⟨r, rfl, h⟩
  | cons call calls ih =>
    rcases @Flat.call_cases P rng content r none hP h nofun call with
      ⟨r₁, hcall, -, hflat⟩ | ⟨f, hf, -⟩
    · obtain ⟨r', hcalls, hflat'⟩ := ih hflat
      exact ⟨r', (SpillIo.bind_ok hcall).trans hcalls, hflat'⟩
    · cases hf

theorem Flat.actsAs (hP : P.Lawful) (h : Flat P content r.spill) : ActsAs P rng content r := by
  intro calls
  obtain ⟨r', hcalls, hflat⟩ := @Flat.forM P rng content r hP h calls
  refine ⟨r', hcalls, hflat, fun hlen reader hused => ?_⟩
  rw [hflat.len] at hlen
  have hviews := (hflat.views hlen).used hP hused
  refine ⟨fun n => ?_, fun out => hviews.drains_iff hP⟩
  obtain ⟨bytes, reader', hread, -⟩ := hviews.read hP n
  exact ⟨bytes, reader', hread⟩

/-- A call on a spill, and the call on the backing file that fails in it, if one does. -/
structure SpillStep where
  call : SpillCall
  fault : Option Fault

def Logged.after (P : Primitives) (rng : Nat → Nonce) (r : Logged) (step : SpillStep) : Logged :=
  match SpillIo.call P rng step.fault step.call r with
  | .ok _ r' | .error _ r' => r'

def Logged.new (key : Key) : Logged := ⟨.new key, []⟩

/-- Every failure of a run spares the spill as it is then. -/
def Spared (P : Primitives) (rng : Nat → Nonce) : Logged → List SpillStep → Prop
  | _, [] => True
  | r, step :: steps => (∀ f, step.fault = some f → f.Spares r.spill.len) ∧
      Spared P rng (r.after P rng step) steps

/-- The spill holds some content, and a step takes it to the content that the call makes of that, or
fails and takes it to one where every byte stands that the call is not for. -/
def Survives (P : Primitives) (rng : Nat → Nonce) (r : Logged) (step : SpillStep) : Prop :=
  ∃ content, ActsAs P rng content r ∧
    match SpillIo.call P rng step.fault step.call r with
    | .ok _ r' => ActsAs P rng (flatCall content step.call) r'
    | .error _ r' => ∃ content', ActsAs P rng content' r' ∧
        ∀ position < content.length, ¬step.call.Touches position →
          content'[position]? = content[position]?

theorem Flat.after (hP : P.Lawful) (h : Flat P content r.spill) {step : SpillStep}
    (hspares : ∀ f, step.fault = some f → f.Spares r.spill.len) :
    Survives P rng r step ∧ ∃ content', Flat P content' (r.after P rng step).spill := by
  rw [h.len] at hspares
  unfold Survives Logged.after
  rcases @Flat.call_cases P rng content r step.fault hP h hspares step.call with
    ⟨r', hcall, -, hflat⟩ | ⟨f, -, e, r', content', hcall, hflat, hleaves⟩
  · rw [hcall]
    exact ⟨⟨content, h.actsAs hP, hflat.actsAs hP⟩, _, hflat⟩
  · rw [hcall]
    exact ⟨⟨content, h.actsAs hP, content', hflat.actsAs hP, fun p hin hother =>
      hleaves.kept hin hother⟩, _, hflat⟩

theorem Flat.survives (hP : P.Lawful) (h : Flat P content r.spill) {steps : List SpillStep}
    {step : SpillStep} (hspared : Spared P rng r (steps ++ [step])) :
    Survives P rng (steps.foldl (Logged.after P rng) r) step := by
  induction steps generalizing r content with
  | nil => exact (h.after hP hspared.1).1
  | cons first steps ih =>
    obtain ⟨-, content', h'⟩ := @Flat.after P rng content r hP h first hspared.1
    exact ih h' hspared.2

/-- In a run of a spill whose failing calls on the backing file all spare it, every step finds the
spill as if nothing had failed before, and leaves it so. -/
theorem survives_of_spared (hP : P.Lawful) (rng : Nat → Nonce) (key : Key) (steps : List SpillStep)
    (step : SpillStep) (hspared : Spared P rng (.new key) (steps ++ [step])) :
    Survives P rng (steps.foldl (Logged.after P rng) (.new key)) step :=
  Flat.survives hP (flat_new P key) hspared

def lengthPrimitives : Primitives :=
  taggedPrimitives fun _ _ plaintext _ => UInt8.ofNat plaintext.length

theorem SpillIo.writeChunks_one (fault : Option Fault) (hdata : data ≠ [])
    (hone : Spill.takeLen position data.length = data.length)
    (hpatch : patch P rng (fault.bind (·.inData position)) position data r = .ok () r') :
    writeChunks P rng fault position data r = .ok ()
      { r' with spill.len := max r'.spill.len (position + data.length) } := by
  rw [writeChunks, dif_neg hdata]
  simp only [hone, take_length, drop_length]
  refine (bind_ok hpatch).trans ?_
  show writeChunks P rng fault (position + data.length) [] _ = _
  rw [writeChunks, dif_pos rfl]
  rfl

theorem SpillIo.writeAt_one (hle : offset ≤ r.spill.len) (hdata : data ≠ [])
    (hone : Spill.takeLen offset data.length = data.length)
    (hpatch : patch P rng none offset data r = .ok () r') :
    writeAt P rng none offset data r = .ok ()
      { r' with spill.len := max r'.spill.len (offset + data.length) } := by
  unfold writeAt
  rw [if_neg hdata, get_bind, if_neg (Nat.not_lt.mpr hle)]
  exact writeChunks_one none hdata hone hpatch

def twoBytes : Logged where
  spill := ⟨.replicate nonceLen 0 ++ [1, 2] ++ .replicate tagLen 2, .replicate keyLen 0, 2, 1⟩
  frames := [⟨0, [1, 2], .replicate nonceLen 0 ++ [1, 2] ++ .replicate tagLen 2⟩]

theorem write_twoBytes : SpillIo.call lengthPrimitives (fun _ => .replicate nonceLen 0) none
    (.write 0 [1, 2]) (.new (.replicate keyLen 0)) = .ok () twoBytes := by
  have hpatch : SpillIo.patch lengthPrimitives (fun _ => .replicate nonceLen 0) none 0 [1, 2]
      (.new (.replicate keyLen 0)) = .ok () { twoBytes with spill.len := 0 } := by rfl
  have hdata : ([1, 2] : Bytes) ≠ [] := by decide
  have hone : Spill.takeLen 0 ([1, 2] : Bytes).length = ([1, 2] : Bytes).length := by decide
  have hwrite := SpillIo.writeAt_one (Nat.zero_le _) hdata hone hpatch
  exact hwrite

theorem after_write_twoBytes : Logged.after lengthPrimitives (fun _ => .replicate nonceLen 0)
    (.new (.replicate keyLen 0)) ⟨.write 0 [1, 2], none⟩ = twoBytes := by
  unfold Logged.after
  rw [write_twoBytes]

/-- Two bytes are written, and the device is full within the frame of a third one. -/
theorem survives_full_device : Survives lengthPrimitives (fun _ => .replicate nonceLen 0) twoBytes
    ⟨.write frameLen [7], some (.data frameLen ⟨.write 5, "No space left on device"⟩)⟩ := by
  have hlawful : lengthPrimitives.Lawful := taggedPrimitives_lawful
  rw [← after_write_twoBytes]
  refine survives_of_spared hlawful (fun _ => .replicate nonceLen 0) (.replicate keyLen 0)
    [⟨.write 0 [1, 2], none⟩] _ ⟨nofun, fun f hf => ?_, trivial⟩
  obtain rfl := Option.some.inj hf
  rw [after_write_twoBytes]
  exact .inr (by decide)

/-- The length of the backing file cannot be set: the first byte is sealed on its own then, but two
are recorded, and the frame does not open any more. -/
theorem not_survives_setLen : ¬∀ (steps : List SpillStep) (step : SpillStep),
    Survives lengthPrimitives (fun _ => .replicate nonceLen 0)
      (steps.foldl (Logged.after lengthPrimitives fun _ => .replicate nonceLen 0)
        (.new (.replicate keyLen 0))) step := by
  intro h
  obtain ⟨content, -, hstep⟩ := h [⟨.write 0 [1, 2], none⟩]
    ⟨.truncate 1, some (.setLen "input/output error")⟩
  rw [foldl_cons, foldl_nil, after_write_twoBytes] at hstep
  have hcall : SpillIo.call lengthPrimitives (fun _ => .replicate nonceLen 0)
      (some (.setLen "input/output error")) (.truncate 1) twoBytes =
        .error (ioError "truncated" "input/output error")
          ⟨⟨.replicate nonceLen 0 ++ [1] ++ .replicate tagLen 1 ++ [2], .replicate keyLen 0, 2, 2⟩,
            ⟨0, [1], .replicate nonceLen 0 ++ [1] ++ .replicate tagLen 1⟩ :: twoBytes.frames⟩ :=
              by rfl
  rw [hcall] at hstep
  obtain ⟨content', hacts, -⟩ := hstep
  obtain ⟨r', hcalls, -, hreads⟩ := hacts []
  obtain rfl := (EStateM.Result.ok.inj hcalls).2
  obtain ⟨bytes, reader, hread⟩ := (hreads (by decide) _ .refl).1 1
  have herror : (Spill.reader ⟨.replicate nonceLen 0 ++ [1] ++ .replicate tagLen 1 ++ [2],
      .replicate keyLen 0, 2, 2⟩).read lengthPrimitives 1 = .error spillFrameFailed := by rfl
  cases herror.symm.trans hread

end Faults

end Dctl.Mount
