import Dctl.Cli.Error
import Dctl.Crypto.Aead
import Dctl.ProofKit.Extent

/-! The encrypted spill that a file being written through a mount lives in (`mount/staging.rs`),
where every call on its backing file succeeds.  The backing file is its bytes, and the nonces that
the code draws are a sequence.  Offsets stay below 2^47, so the arithmetic on 64 bits is exact.  A
spill is a flat byte array: its slots hold the frames of the array, and every write, every truncate
and every read of its reader is that of the array. -/

namespace Dctl.Mount

open ProofKit Crypto Cli List

@[simp, reducible] def frameLen : Nat := 64 * 1024

/-- Bytes that sealing adds around a plaintext: the nonce and the tag. -/
@[simp, reducible] def overhead : Nat := 24 + 16

@[simp, reducible] def slotLen : Nat := frameLen + overhead

def blobLen (index plaintextLen : Nat) : Nat :=
  let start := index * frameLen
  if plaintextLen ≤ start then 0 else min (plaintextLen - start) frameLen + overhead

def cryptoError (what : String) : CliError :=
  ⟨.fatalError, "the write spill failed to " ++ what ++ ". The spill is sealed under a key " ++
    "held only in this process, so this means the file on disk was " ++
    "altered or truncated underneath us; nothing has been written to " ++ "the vault.", none⟩

/-- A file being written, held encrypted until it is sealed into the vault.  `drawn` counts the
nonces drawn so far. -/
structure Spill where
  file : Bytes
  key : Key
  len : Nat
  drawn : Nat

def frameAad (index : Nat) : Bytes := le 8 index

def patched (frame : Bytes) (within : Nat) (chunk : Bytes) : Bytes :=
  let frame := frame ++ zeros (within + chunk.length - frame.length)
  frame.take within ++ chunk ++ frame.drop (within + chunk.length)

namespace Spill

variable (P : Primitives) (rng : Nat → Nonce)

def new (key : Key) : Spill := ⟨[], key, 0, 0⟩

def readFrame (s : Spill) (index : Nat) : Except CliError Bytes :=
  let want := blobLen index s.len
  if want = 0 then .ok []
  else
    let blob := readAt s.file (index * slotLen) want
    if blob.length < want then .ok []
    else (Aead.decrypt P s.key blob (frameAad index)).mapError fun _ => cryptoError "open a frame"

/-- Seal `plaintext` into slot `index`, replacing whatever was there. -/
def writeFrame (s : Spill) (index : Nat) (plaintext : Bytes) : Except CliError Spill := do
  let blob ← (Aead.encrypt P s.key (rng s.drawn) plaintext (frameAad index)).mapError
    fun _ => cryptoError "seal a frame"
  return { s with file := writeAt s.file (index * slotLen) blob, drawn := s.drawn + 1 }

def patch (s : Spill) (position : Nat) (chunk : Bytes) : Except CliError Spill := do
  let frame ← s.readFrame P (position / frameLen)
  s.writeFrame P rng (position / frameLen) (patched frame (position % frameLen) chunk)

def takeLen (position rest : Nat) : Nat := min (frameLen - position % frameLen) rest

theorem takeLen_pos {position rest : Nat} (h : 0 < rest) : 0 < takeLen position rest := by
  have hmod := Nat.mod_lt position (show 0 < frameLen by decide)
  unfold takeLen
  omega

/-- Seal zeros from `at'` up to `offset`.  The length is set afterwards. -/
def fillGap (s : Spill) (at' offset : Nat) : Except CliError Spill :=
  if _h : at' < offset then do
    let take := takeLen at' (offset - at')
    let s ← s.patch P rng at' (zeros take)
    fillGap s (at' + take) offset
  else return s
termination_by offset - at'
decreasing_by
  have hpos : 0 < takeLen at' (offset - at') := takeLen_pos (by omega)
  omega

def writeChunks (s : Spill) (position : Nat) (data : Bytes) : Except CliError Spill :=
  if _h : data = [] then return s
  else do
    let take := takeLen position data.length
    let s ← s.patch P rng position (data.take take)
    writeChunks { s with len := max s.len (position + take) } (position + take) (data.drop take)
termination_by data.length
decreasing_by
  have hdata := length_pos_iff.mpr _h
  have hpos : 0 < takeLen position data.length := takeLen_pos hdata
  rw [length_drop]
  omega

def writeAt (s : Spill) (offset : Nat) (data : Bytes) : Except CliError Spill :=
  if data = [] then return s
  else do
    let s ← if s.len < offset then do
        let s ← s.fillGap P rng s.len offset
        pure { s with len := offset }
      else pure s
    s.writeChunks P rng offset data

def growTo (s : Spill) (at' len step : Nat) (hstep : 0 < step) : Except CliError Spill :=
  if _h : at' < len then do
    let take := min (len - at') step
    let s ← s.writeAt P rng at' (zeros take)
    growTo s (at' + take) len step hstep
  else return s
termination_by len - at'

def truncate (s : Spill) (len : Nat) : Except CliError Spill := do
  let s ←
    if len < s.len then do
      let frame ← s.readFrame P (len / frameLen)
      let s ← s.writeFrame P rng (len / frameLen) (frame.take (len % frameLen))
      pure { s with file := sized s.file ((len + frameLen - 1) / frameLen * slotLen) }
    else if h : s.len < len then
      s.growTo P rng s.len len (min (len - s.len) frameLen)
        (by have hgap := Nat.sub_pos_of_lt h; simp only [frameLen]; omega)
    else pure s
  return { s with len }

end Spill

/-- A sequential, seekable, decrypting view over a spill. -/
structure SpillReader where
  file : Bytes
  key : Key
  len : Nat
  position : Nat
  frame : Bytes
  frameIndex : Nat

def spillFrameFailed : String :=
  "a write-spill frame failed authentication; the file was altered underneath us"

def Spill.reader (s : Spill) : SpillReader := ⟨s.file, s.key, s.len, 0, [], 2 ^ 64 - 1⟩

namespace SpillReader

variable (P : Primitives)

def load (r : SpillReader) (index : Nat) : Except String SpillReader :=
  if r.frameIndex = index then .ok r
  else do
    let blob := readAt r.file (index * slotLen) (blobLen index r.len)
    let plain ← (Aead.decrypt P r.key blob (frameAad index)).mapError fun _ => spillFrameFailed
    return { r with frame := plain, frameIndex := index }

def read (r : SpillReader) (out : Nat) : Except String (Bytes × SpillReader) :=
  if r.len ≤ r.position ∨ out = 0 then .ok ([], r)
  else do
    let within := r.position % frameLen
    let r ← r.load P (r.position / frameLen)
    let available := r.frame.length - within
    let remaining := r.len - r.position
    let take := min (min available remaining) out
    return ((r.frame.drop within).take take, { r with position := r.position + take })

inductive SeekFrom where
  | start (n : Nat)
  | fromEnd (d : Int)
  | current (d : Int)

def seek (r : SpillReader) (dest : SeekFrom) : Except String SpillReader :=
  let target : Int := match dest with
    | .start n => n
    | .fromEnd d => r.len + d
    | .current d => r.position + d
  if target < 0 then .error "seek before the start of the spill"
  -- the source's `target as u64` drops what lies above 64 bits
  else .ok { r with position := target.toNat % 2 ^ 64 }

end SpillReader

variable {P : Primitives} {rng : Nat → Nonce} {key : Key} {file content content' chunk data : Bytes}
  {s s' : Spill} {index position offset len : Nat}

def frameOf (content : Bytes) (index : Nat) : Bytes := readAt content (index * frameLen) frameLen

theorem length_frameOf :
    (frameOf content index).length = min frameLen (content.length - index * frameLen) :=
  length_readAt

theorem length_frameOf_le (content : Bytes) (index : Nat) :
    (frameOf content index).length ≤ frameLen := by
  rw [length_frameOf]
  exact Nat.min_le_left ..

theorem frameOf_eq_nil (h : content.length ≤ index * frameLen) : frameOf content index = [] := by
  apply eq_nil_of_length_eq_zero
  rw [length_frameOf]
  omega

theorem patched_eq (frame : Bytes) (within : Nat) (chunk : Bytes) :
    patched frame within chunk = writeAt frame within chunk := by
  apply ext_getElem?
  intro k
  unfold patched
  rw [getElem?_writeAt, append_assoc, List.getElem?_append]
  simp only [length_take, length_append, zeros, length_replicate, List.getElem?_take]
  by_cases hk : k < within
  · rw [if_pos (by omega), if_pos hk, if_pos hk]
    by_cases hin : k < frame.length
    · rw [if_pos hin, List.getElem?_append_left hin]
    · rw [if_neg hin, List.getElem?_append_right (by omega), List.getElem?_replicate,
        if_pos (by omega)]
  · have hfull : min within (frame.length + (within + chunk.length - frame.length)) = within := by
      omega
    rw [hfull, if_neg hk, if_neg hk, List.getElem?_append, List.getElem?_drop]
    by_cases hin : k < within + chunk.length
    · rw [if_pos (by omega), if_pos hin]
    · have hback : within + chunk.length + (k - within - chunk.length) = k := by omega
      rw [if_neg (by omega), if_neg hin, hback]
      by_cases hlen : k < frame.length
      · rw [List.getElem?_append_left hlen]
      · rw [List.getElem?_eq_none (by simp; omega), List.getElem?_eq_none (by omega)]

section

variable (hin : position % frameLen + chunk.length ≤ frameLen) (hle : position ≤ content.length)
include hin hle

theorem frameOf_writeAt_same : frameOf (writeAt content position chunk) (position / frameLen) =
      writeAt (frameOf content (position / frameLen)) (position % frameLen) chunk := by
  have hdiv := Nat.div_add_mod position frameLen
  apply ext_getElem?
  intro k
  unfold frameOf
  rw [getElem?_readAt, getElem?_writeAt, getElem?_writeAt, getElem?_readAt, length_readAt]
  simp only [frameLen] at *
  by_cases hbefore : k < position % (64 * 1024)
  · rw [if_pos (by omega), if_pos (by omega), if_pos (by omega), if_pos hbefore, if_pos (by omega),
      if_pos (by omega)]
  · by_cases hinside : k < position % (64 * 1024) + chunk.length
    · rw [if_pos (by omega), if_neg (by omega), if_pos (by omega), if_neg hbefore, if_pos hinside]
      congr 1
      omega
    · rw [if_neg hbefore, if_neg hinside]
      by_cases hk : k < 64 * 1024
      · rw [if_pos hk, if_neg (by omega), if_neg (by omega), if_pos hk]
      · rw [if_neg hk, if_neg hk]

theorem frameOf_writeAt_other (hother : index ≠ position / frameLen) :
    frameOf (writeAt content position chunk) index = frameOf content index := by
  have hdiv := Nat.div_add_mod position frameLen
  apply ext_getElem?
  intro k
  unfold frameOf
  rw [getElem?_readAt, getElem?_readAt, getElem?_writeAt]
  simp only [frameLen] at *
  by_cases hk : k < 64 * 1024
  · rw [if_pos hk, if_pos hk]
    by_cases hbefore : index * (64 * 1024) + k < position
    · rw [if_pos hbefore, if_pos (by omega)]
    · have hlater : position / (64 * 1024) < index := by
        by_contra hle'
        have hlt : index + 1 ≤ position / (64 * 1024) := by omega
        have hmul := Nat.mul_le_mul_right (64 * 1024) hlt
        omega
      have hmul := Nat.mul_le_mul_right (64 * 1024) hlater
      rw [if_neg hbefore, if_neg (by omega)]
  · rw [if_neg hk, if_neg hk]

theorem mul_lt_of_lt_writeAt (hother : index ≠ position / frameLen)
    (hlt : index * frameLen < (writeAt content position chunk).length) :
    index * frameLen < content.length := by
  have hdiv := Nat.div_add_mod position frameLen
  rw [length_writeAt] at hlt
  simp only [frameLen] at *
  by_contra hge
  have hless : index ≤ position / (64 * 1024) := by
    by_contra hgt
    have hmul := Nat.mul_le_mul_right (64 * 1024) (Nat.lt_of_not_le hgt)
    omega
  have hmul := Nat.mul_le_mul_right (64 * 1024) (show index + 1 ≤ position / (64 * 1024) by omega)
  omega

end

/-- Every frame of the content stands sealed in its slot. -/
def Sealed (P : Primitives) (key : Key) (file content : Bytes) : Prop :=
  ∀ index, index * frameLen < content.length → ∃ nonce blob,
    Aead.encrypt P key nonce (frameOf content index) (frameAad index) = .ok blob ∧
      Stands file (index * slotLen) blob

theorem length_blob (hP : P.Lawful) {nonce : Nonce} {plain blob : Bytes}
    (h : Aead.encrypt P key nonce plain (frameAad index) = .ok blob) :
    blob.length = plain.length + overhead := by
  have hlen := Aead.encrypt_length hP h
  simp only [nonceLen, tagLen, overhead] at *
  omega

theorem Sealed.write (hP : P.Lawful) (h : Sealed P key file content) {nonce : Nonce} {blob : Bytes}
    (hseal : Aead.encrypt P key nonce (frameOf content' index) (frameAad index) = .ok blob)
    (hother : ∀ i, i ≠ index → i * frameLen < content'.length →
      i * frameLen < content.length ∧ frameOf content' i = frameOf content i) :
    Sealed P key (writeAt file (index * slotLen) blob) content' := by
  intro i hi
  by_cases hsame : i = index
  · subst hsame
    exact ⟨nonce, blob, hseal, stands_writeAt _ _ _⟩
  · obtain ⟨hlt, hframe⟩ := hother i hsame hi
    obtain ⟨nonce', blob', hseal', hstands⟩ := h i hlt
    refine ⟨nonce', blob', hframe ▸ hseal', hstands.writeAt ?_⟩
    have hlen := length_blob hP hseal
    have hlen' := length_blob hP hseal'
    rw [length_frameOf] at hlen hlen'
    simp only [frameLen, overhead, slotLen] at *
    rcases Nat.lt_or_gt_of_ne hsame with hbefore | hafter
    · have hmul := Nat.mul_le_mul_right (64 * 1024 + (24 + 16)) hbefore
      omega
    · have hmul := Nat.mul_le_mul_right (64 * 1024 + (24 + 16)) hafter
      omega

namespace Spill

theorem readFrame_stands (hP : P.Lawful) (hlen : s.len = content.length)
    (hin : index * frameLen < content.length) {nonce : Nonce} {blob : Bytes}
    (hseal : Aead.encrypt P s.key nonce (frameOf content index) (frameAad index) = .ok blob)
    (hstands : Stands s.file (index * slotLen) blob) :
    s.readFrame P index = .ok (frameOf content index) := by
  have hblob := length_blob hP hseal
  have hwant : blobLen index s.len = blob.length := by
    unfold blobLen
    simp only [hlen, if_neg (Nat.not_le_of_lt hin)]
    rw [hblob, length_frameOf]
    omega
  have hpos : blob.length ≠ 0 := by
    rw [hblob]
    simp only [overhead]
    omega
  unfold readFrame
  simp only [hwant, if_neg hpos, hstands.readAt_eq, Nat.lt_irrefl, if_false,
    Aead.decrypt_encrypt hP hseal]
  rfl

theorem readFrame_eq (hP : P.Lawful) (h : Sealed P s.key s.file content)
    (hlen : s.len = content.length) : s.readFrame P index = .ok (frameOf content index) := by
  by_cases hpast : content.length ≤ index * frameLen
  · have hzero : blobLen index s.len = 0 := by
      unfold blobLen
      rw [hlen]
      exact if_pos hpast
    unfold readFrame
    simp only [hzero, if_pos, frameOf_eq_nil hpast]
  · have hin := Nat.lt_of_not_le hpast
    obtain ⟨nonce, blob, hseal, hstands⟩ := h index hin
    exact readFrame_stands hP hlen hin hseal hstands

theorem readFrame_past (h : s.len ≤ index * frameLen) : s.readFrame P index = .ok [] := by
  have hzero : blobLen index s.len = 0 := if_pos h
  unfold readFrame
  simp only [hzero, if_pos]

theorem writeFrame_eq (hP : P.Lawful) {plain : Bytes} (hplain : plain.length ≤ frameLen) :
    ∃ blob, Aead.encrypt P s.key (rng s.drawn) plain (frameAad index) = .ok blob ∧
      s.writeFrame P rng index plain =
        .ok { s with file := ProofKit.writeAt s.file (index * slotLen) blob, drawn :=
          s.drawn + 1 } := by
  obtain ⟨blob, hblob⟩ := Aead.encrypt_isOk hP s.key (rng s.drawn) plain (frameAad index) (by
    simp only [frameLen, maxMessageLen] at *
    omega)
  refine ⟨blob, hblob, ?_⟩
  unfold writeFrame
  rw [hblob]
  rfl

theorem takeLen_le (position rest : Nat) :
    position % frameLen + takeLen position rest ≤ frameLen := by
  have hmod := Nat.mod_lt position (show 0 < frameLen by decide)
  unfold takeLen
  omega

theorem length_take_takeLen : (data.take (takeLen position data.length)).length =
    takeLen position data.length := by
  rw [length_take]
  unfold takeLen
  omega

end Spill

/-- The spill stands for these bytes. -/
structure Flat (P : Primitives) (content : Bytes) (s : Spill) : Prop where
  slots : Sealed P s.key s.file content
  len : s.len = content.length

theorem flat_new (P : Primitives) (key : Key) : Flat P [] (.new key) := ⟨nofun, rfl⟩

def flatWrite (content : Bytes) (offset : Nat) (data : Bytes) : Bytes :=
  if data = [] then content else writeAt content offset data

theorem frameOf_take_whole (h : (index + 1) * frameLen ≤ len) :
    frameOf (content.take len) index = frameOf content index := by
  apply ext_getElem?
  intro k
  unfold frameOf
  rw [getElem?_readAt, getElem?_readAt, List.getElem?_take]
  simp only [frameLen] at *
  by_cases hk : k < 64 * 1024
  · rw [if_pos hk, if_pos hk, if_pos (by omega)]
  · rw [if_neg hk, if_neg hk]

theorem frameOf_take_cut : frameOf (content.take len) (len / frameLen) =
    (frameOf content (len / frameLen)).take (len % frameLen) := by
  have hdiv := Nat.div_add_mod len frameLen
  have hmod := Nat.mod_lt len (show 0 < frameLen by decide)
  apply ext_getElem?
  intro k
  unfold frameOf
  rw [getElem?_readAt, List.getElem?_take, List.getElem?_take, getElem?_readAt]
  simp only [frameLen] at *
  by_cases hk : k < len % (64 * 1024)
  · rw [if_pos (by omega), if_pos (by omega), if_pos hk, if_pos (by omega)]
  · rw [if_neg hk]
    by_cases hin : k < 64 * 1024
    · rw [if_pos hin, if_neg (by omega)]
    · rw [if_neg hin]

inductive SpillCall where
  | write (offset : Nat) (data : Bytes)
  | truncate (len : Nat)

def Spill.call (P : Primitives) (rng : Nat → Nonce) (s : Spill) : SpillCall → Except CliError Spill
  | .write offset data => s.writeAt P rng offset data
  | .truncate len => s.truncate P rng len

def flatCall (content : Bytes) : SpillCall → Bytes
  | .write offset data => flatWrite content offset data
  | .truncate len => sized content len

end Dctl.Mount
