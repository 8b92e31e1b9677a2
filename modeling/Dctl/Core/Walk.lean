import Dctl.Core.Get

/-! What the window walk reads: the chunks of the object, one window after another, whatever follows
them. -/

namespace Dctl.Core

open ProofKit Crypto Index Object List

variable {L : Libraries} {σ : Type} {b : Backend}
  {ix : String → Except IndexError (Option Record)} {r : RangeReader}

/-- The reader has read the header that stands in front of `payload` under its key. -/
structure RangeReader.Reads (r : RangeReader) (b : Backend) (h : Header) (payload : Bytes) :
    Prop where
  stored : b[r.key]? = some (h.bytes ++ payload)
  head : r.header.head = h.head
  headBytes : r.header.headBytes = buildHead h.head
  payloadStart : r.header.payloadStart = h.bytes.length
  headerBytes : r.headerBytes = h.bytes

theorem Backend.get_eq_ok {key : String} {bytes : Bytes} :
    b.get key = .ok bytes ↔ b[key]? = some bytes := okOr_eq_ok

theorem Backend.getRange_eq_ok {key : String} {object : Bytes} (hobject : b[key]? = some object)
    {offset length : Nat} {bytes : Bytes} :
    b.getRange key offset length = .ok bytes ↔
      offset ≤ object.length ∧ bytes = (object.drop offset).take length := by
  simp only [getRange, bind_eq_ok, get_eq_ok, hobject, Option.some.injEq, reject_eq_ok, pure_eq_ok,
    not_lt]
  constructor
  · rintro ⟨_, rfl, _, hle, rfl⟩
    exact ⟨hle, rfl⟩
  · rintro ⟨hle, rfl⟩
    exact ⟨object, rfl, (), hle, rfl⟩

theorem RangeReader.fetch_eq_ok {object : Bytes} (hobject : b[r.key]? = some object)
    {span : ChunkSpan} {ct : Bytes} :
    r.fetch (b.view ix) span = .ok ct ↔
      span.ciphertextOffset + span.ciphertextLen ≤ object.length ∧
        ct = (object.drop span.ciphertextOffset).take span.ciphertextLen := by
  simp only [fetch, Backend.view, bind_eq_ok, ofStore_eq_ok, Backend.getRange_eq_ok hobject,
    reject_eq_ok, pure_eq_ok, ne_eq, not_not]
  constructor
  · rintro ⟨_, ⟨hle, rfl⟩, _, hlen, rfl⟩
    simp only [length_take, length_drop] at hlen
    exact ⟨by omega, rfl⟩
  · rintro ⟨hle, rfl⟩
    refine ⟨_, ⟨by omega, rfl⟩, (), ?_, rfl⟩
    simp only [length_take, length_drop]
    omega

def chunksFrom (index : Nat) (pts : List Bytes) : List DecryptedChunk :=
  (pts.zipIdx index).map fun p => { index := p.2, plaintext := p.1 }

theorem emitAll_collect (index : Nat) (pts : List Bytes) (chunks : List DecryptedChunk) :
    emitAll (fun chunks index plaintext => pure (chunks ++ [{ index, plaintext }]))
      index pts chunks =
      .ok (chunks ++ chunksFrom index pts) := by
  induction pts generalizing index chunks with
  | nil => simp [emitAll, chunksFrom, pure, Except.pure]
  | cons pt pts ih =>
    have hrest := ih (index + 1) (chunks ++ [{ index, plaintext := pt }])
    simp only [emitAll, chunksFrom, zipIdx_cons, foldlM_cons, pure_bind, map_cons,
      append_assoc, singleton_append] at hrest ⊢
    exact hrest

section Payload

variable {h : Header} {payload : Bytes}

def doneLen (h : Header) (k : Nat) : Nat :=
  min h.head.plaintextLen.toNat (k * h.head.chunkSize.toNat) + k * tagLen

variable {P : Primitives}

theorem ChunksOpen.length_flatten_done {dek : Key} {k : Nat} {cts pts : List Bytes}
    (hopen : ChunksOpen P dek h.head 0 k cts pts) : cts.flatten.length = doneLen h k := by
  rw [hopen.length_flatten_cts_eq, doneLen, Nat.zero_add, Nat.zero_mul, Nat.sub_zero]

theorem doneLen_add {dek : Key} {k n : Nat} {cts pts : List Bytes}
    (hk : k < h.head.chunkCount.toNat) (hopen : ChunksOpen P dek h.head k n cts pts) :
    doneLen h (k + n) = doneLen h k + cts.flatten.length := by
  have hbefore : k * h.head.chunkSize.toNat < h.head.plaintextLen.toNat := by
    rw [← lt_divCeil_iff h.head_valid.chunkSize_toNat_pos, ← h.head_valid.chunkCount]
    exact hk
  have hmono : k * h.head.chunkSize.toNat ≤ (k + n) * h.head.chunkSize.toNat :=
    Nat.mul_le_mul_right _ (by omega)
  have htags : (k + n) * tagLen = k * tagLen + n * tagLen := Nat.add_mul ..
  rw [hopen.length_flatten_cts_eq, doneLen, doneLen, htags]
  omega

theorem RangeReader.Reads.readChunksInner_eq_ok (hr : r.Reads b h payload)
    (hlen : (h.bytes ++ payload).length < 2 ^ 64) {k n : Nat} (hk : k < h.head.chunkCount.toNat)
    (hn : n = min streamWindowChunks (h.head.chunkCount.toNat - k)) {rest : Bytes}
    (hrest : payload.drop (doneLen h k) = rest) (hdone : doneLen h k ≤ payload.length)
    {footer footer' : Option Bytes} {chunks : List DecryptedChunk} :
    r.readChunksInner L (b.view ix) k streamWindowChunks footer = .ok (chunks, footer') ↔
      ∃ cts pts tail, ChunksOpen L.toPrimitives r.header.dek h.head k n cts pts ∧
        rest = cts.flatten ++ tail ∧ chunks = chunksFrom k pts ∧
        footer' = footer.map (· ++ cts.flatten) := by
  have hheadBytes : r.header.headBytes = buildHead r.header.head := by rw [hr.headBytes, hr.head]
  have hnpos : 0 < n ∧ n ≤ h.head.chunkCount.toNat - k := by
    simp only [streamWindowChunks] at hn
    omega
  obtain ⟨hoffset, hspanLen⟩ := r.header.run_eq (by rw [hr.head]; exact h.head_valid)
    hnpos.1 (show k + n ≤ r.header.head.chunkCount.toNat by rw [hr.head]; omega)
  rw [hr.head, hr.payloadStart] at hoffset
  rw [hr.head] at hspanLen
  have hspan := @RangeHeader.chunkSpan_eq_ok r.header k streamWindowChunks n
  rw [hr.head] at hspan
  have hrun : ¬(r.header.run k n).chunkCount = 0 := Nat.pos_iff_ne_zero.mp hnpos.1
  -- The object at the extent of the window is what follows the chunks that were read.
  have hdrop : (h.bytes ++ payload).drop (r.header.run k n).ciphertextOffset = rest := by
    rw [hoffset, ← hrest, ← drop_drop, drop_left]
    rfl
  have hsize : (h.bytes ++ payload).length = h.bytes.length + payload.length :=
    length_append
  have hrestLen : rest.length = payload.length - doneLen h k := by rw [← hrest, length_drop]
  have hend : (r.header.run k n).ciphertextOffset = h.bytes.length + doneLen h k := hoffset
  have hctLen : ∀ {cts pts}, ChunksOpen L.toPrimitives r.header.dek h.head k n cts pts →
      cts.flatten.length = (r.header.run k n).ciphertextLen := by
    intro cts pts hopen
    rw [hopen.length_flatten_cts_eq, hspanLen]
  simp only [readChunksInner, bind_eq_ok, ofCrypto_eq_ok, hspan hk (by decide) hn]
  constructor
  · rintro ⟨span, ⟨-, rfl⟩, hread⟩
    rw [if_neg hrun] at hread
    simp only [bind_eq_ok, fetch_eq_ok hr.stored, ofCrypto_eq_ok, pure_eq_ok, Prod.mk.injEq,
      RangeHeader.openChunks_eq_ok hheadBytes] at hread
    obtain ⟨ct, ⟨hfits, rfl⟩, chunks', ⟨hct, cts, pts, tail, hopen, hbytes, hcollect⟩, rfl, rfl⟩ :=
      hread
    rw [hr.head] at hopen
    have htail : tail = [] := by
      have hlength := congrArg List.length hbytes
      rw [hct, length_append, hctLen hopen] at hlength
      exact length_eq_zero_iff.mp (by omega)
    rw [emitAll_collect, nil_append, Except.ok.injEq] at hcollect
    rw [htail, append_nil, hdrop] at hbytes
    refine ⟨cts, pts, rest.drop (r.header.run k n).ciphertextLen, hopen, ?_, hcollect.symm, ?_⟩
    · rw [← hbytes, take_append_drop]
    · rw [hdrop, hbytes]
  · rintro ⟨cts, pts, tail, hopen, hbytes, rfl, rfl⟩
    have hflat := hctLen hopen
    have hlength := congrArg List.length hbytes
    rw [length_append, hrestLen] at hlength
    refine ⟨r.header.run k n, ⟨⟨by omega, by omega⟩, rfl⟩, ?_⟩
    rw [if_neg hrun]
    simp only [bind_eq_ok, fetch_eq_ok hr.stored, ofCrypto_eq_ok, pure_eq_ok, Prod.mk.injEq,
      RangeHeader.openChunks_eq_ok hheadBytes]
    have hct : rest.take (r.header.run k n).ciphertextLen = cts.flatten := by
      rw [hbytes, take_left' hflat]
    refine ⟨cts.flatten, ⟨by omega, by rw [hdrop, hct]⟩, _, ⟨hflat, cts, pts, [], ?_, ?_,
      emitAll_collect k pts []⟩, rfl, rfl⟩
    · rw [hr.head]
      exact hopen
    · rw [append_nil]

/-- The state of the walk at chunk `next`, after the chunks with these ciphertexts and plaintexts.
-/
def Walk.after (s : Walk σ) (next : Nat) (cts pts : List Bytes) (out : σ) : Walk σ where
  hashed := s.hashed ++ pts.flatten
  footer := s.footer.map (· ++ cts.flatten)
  written := s.written + pts.flatten.length
  next := next
  out := out

theorem Walk.after_after (s : Walk σ) (k k' : Nat) (cts pts cts' pts' : List Bytes) (out out' : σ) :
    (s.after k cts pts out).after k' cts' pts' out' =
      s.after k' (cts ++ cts') (pts ++ pts') out' := by
  cases s with
  | mk hashed footer written next o => cases footer <;> simp [after, Nat.add_assoc]

variable {w : Writer σ} {s s' : Walk σ}

theorem foldlM_emit (k : Nat) (pts : List Bytes) :
    (chunksFrom k pts).foldlM (Walk.emit w) s = .ok s' ↔
      ∃ out, pts.foldlM w.write s.out = some out ∧ s' =
        { hashed := s.hashed ++ pts.flatten, footer := s.footer,
          written := s.written + pts.flatten.length, next := s.next + pts.length, out } := by
  induction pts generalizing k s with
  | nil =>
    simp only [chunksFrom, zipIdx_nil, map_nil, foldlM_nil, pure_eq_ok,
      Option.pure_def, Option.some.injEq, flatten_nil, append_nil, length_nil,
      Nat.add_zero]
    constructor
    · rintro rfl
      exact ⟨_, rfl, rfl⟩
    · rintro ⟨_, rfl, rfl⟩
      rfl
  | cons pt pts ih =>
    simp only [chunksFrom, zipIdx_cons, map_cons, foldlM_cons, bind_eq_ok, Walk.emit,
      okOr_eq_ok, pure_eq_ok, Option.bind_eq_bind, Option.bind_eq_some_iff, flatten_cons,
      length_append, length_cons] at ih ⊢
    constructor
    · rintro ⟨_, ⟨out1, hout1, rfl⟩, hrest⟩
      obtain ⟨out, hout, rfl⟩ := (ih (k + 1)).mp hrest
      exact ⟨out, ⟨out1, hout1, hout⟩, by
        simp only [append_assoc, Nat.add_assoc, Nat.add_comm 1]⟩
    · rintro ⟨out, ⟨out1, hout1, hout⟩, rfl⟩
      refine ⟨_, ⟨out1, hout1, rfl⟩, (ih (k + 1)).mpr ⟨out, hout, ?_⟩⟩
      simp only [append_assoc, Nat.add_assoc, Nat.add_comm 1]

/-- The bytes behind the chunks that a walk has read go on with the remaining chunks, which open,
and `s'` is `s` after they were written. -/
def Walk.RunsTo (P : Primitives) (dek : Key) (h : Header) (payload : Bytes) (w : Writer σ)
    (s s' : Walk σ) : Prop :=
  ∃ cts pts tail out, ChunksOpen P dek h.head s.next (h.head.chunkCount.toNat - s.next) cts pts ∧
    payload.drop (doneLen h s.next) = cts.flatten ++ tail ∧
    pts.foldlM w.write s.out = some out ∧ s' = s.after h.head.chunkCount.toNat cts pts out

theorem Walk.runsTo_end {dek : Key} (hs : s.next = h.head.chunkCount.toNat) :
    s.RunsTo P dek h payload w s' ↔ s = s' := by
  unfold RunsTo
  rw [hs, Nat.sub_self]
  constructor
  · rintro ⟨cts, pts, tail, out, hopen, -, hout, rfl⟩
    cases hopen
    simp only [foldlM_nil, Option.pure_def, Option.some.injEq] at hout
    simp [after, ← hs, ← hout]
  · rintro rfl
    refine ⟨[], [], _, s.out, .nil _, rfl, rfl, ?_⟩
    simp [after, ← hs]

theorem Walk.runsTo_step {dek : Key} {n : Nat} (hn : s.next + n ≤ h.head.chunkCount.toNat)
    (hlt : s.next < h.head.chunkCount.toNat) :
    s.RunsTo P dek h payload w s' ↔
      ∃ cts pts tail out, ChunksOpen P dek h.head s.next n cts pts ∧
        payload.drop (doneLen h s.next) = cts.flatten ++ tail ∧
        pts.foldlM w.write s.out = some out ∧
        (s.after (s.next + n) cts pts out).RunsTo P dek h payload w s' := by
  unfold RunsTo
  have hcount : h.head.chunkCount.toNat - s.next =
      n + (h.head.chunkCount.toNat - (s.next + n)) := by omega
  constructor
  · rintro ⟨cts, pts, tail, out, hopen, hbytes, hout, rfl⟩
    have hfront := hopen.take (k := n) (by omega)
    have hrest := hopen.drop (k := n) (by omega)
    rw [show h.head.chunkCount.toNat - s.next - n = h.head.chunkCount.toNat - (s.next + n) by omega]
      at hrest
    rw [← take_append_drop n cts, flatten_append, append_assoc] at hbytes
    rw [← take_append_drop n pts, foldlM_append, Option.bind_eq_bind,
      Option.bind_eq_some_iff] at hout
    obtain ⟨out1, hout1, hout⟩ := hout
    refine ⟨cts.take n, pts.take n, _, out1, hfront, hbytes, hout1, cts.drop n, pts.drop n, tail,
      out, hrest, ?_, hout, ?_⟩
    · simp only [after, doneLen_add hlt hfront, ← drop_drop, hbytes, drop_left]
    · rw [after_after, take_append_drop, take_append_drop]
  · rintro ⟨cts, pts, tail, out1, hopen, hbytes, hout1, cts', pts', tail', out, hopen',
      hbytes', hout, rfl⟩
    simp only [after] at hopen' hbytes' hout
    rw [doneLen_add hlt hopen, ← drop_drop, hbytes, drop_left] at hbytes'
    refine ⟨cts ++ cts', pts ++ pts', tail', out, ?_, ?_, ?_, ?_⟩
    · rw [hcount]
      exact hopen.append hopen'
    · rw [hbytes, hbytes', flatten_append, append_assoc]
    · rw [foldlM_append, hout1]
      exact hout
    · rw [after_after]

theorem RangeReader.Reads.walk_eq_ok (hr : r.Reads b h payload)
    (hlen : (h.bytes ++ payload).length < 2 ^ 64) {normalized : String} {rounds : Nat}
    (hnext : s.next ≤ h.head.chunkCount.toNat) (hrounds : h.head.chunkCount.toNat - s.next ≤ rounds)
    (hdone : doneLen h s.next ≤ payload.length) :
    r.walk L (b.view ix) normalized w rounds s = .ok s' ↔
      s.RunsTo L.toPrimitives r.header.dek h payload w s' := by
  induction rounds generalizing s with
  | zero =>
    rw [walk, hr.head, if_neg (by omega), pure_eq_ok, Walk.runsTo_end (by omega)]
  | succ rounds ih =>
    rw [walk, hr.head]
    split
    next hlt =>
      generalize hn : min streamWindowChunks (h.head.chunkCount.toNat - s.next) = n
      have hnpos : 0 < n ∧ s.next + n ≤ h.head.chunkCount.toNat := by
        simp only [streamWindowChunks] at hn
        omega
      rw [Walk.runsTo_step hnpos.2 hlt]
      simp only [bind_eq_ok, Prod.exists, hr.readChunksInner_eq_ok hlen hlt hn.symm rfl hdone,
        reject_eq_ok]
      -- Behind a window the walk is at the next chunk, in front of the rest of the object.
      have hrest : ∀ {cts pts tail out},
          ChunksOpen L.toPrimitives r.header.dek h.head s.next n cts pts →
          payload.drop (doneLen h s.next) = cts.flatten ++ tail →
          (r.walk L (b.view ix) normalized w rounds (s.after (s.next + n) cts pts out) = .ok s' ↔
            (s.after (s.next + n) cts pts out).RunsTo L.toPrimitives r.header.dek h
              payload w s') := by
        intro cts pts tail out hopen hbytes
        have hdone' := doneLen_add hlt hopen
        have hpayload := congrArg List.length hbytes
        rw [length_drop, length_append] at hpayload
        exact ih hnpos.2 (by simp only [Walk.after]; omega) (by simp only [Walk.after]; omega)
      constructor
      · rintro ⟨_, _, ⟨cts, pts, tail, hopen, hbytes, rfl, rfl⟩, _, -, s1, hemit, hwalk⟩
        obtain ⟨out1, hout1, rfl⟩ := (foldlM_emit _ pts).mp hemit
        rw [hopen.length_pts] at hwalk
        exact ⟨cts, pts, tail, out1, hopen, hbytes, hout1, (hrest hopen hbytes).mp hwalk⟩
      · rintro ⟨cts, pts, tail, out1, hopen, hbytes, hout1, hruns⟩
        refine ⟨_, _, ⟨cts, pts, tail, hopen, hbytes, rfl, rfl⟩, (), ?_, _,
          (foldlM_emit _ pts).mpr ⟨out1, hout1, rfl⟩, ?_⟩
        · have hlength := hopen.length_pts
          cases pts with
          | nil => simp only [length_nil] at hlength; omega
          | cons pt pts => simp [chunksFrom]
        · rw [hopen.length_pts]
          exact (hrest hopen hbytes).mpr hruns
    next hge => rw [pure_eq_ok, Walk.runsTo_end (by omega)]

def frameOf (h : Header) (chunks : List Bytes) (footer : Bytes) : Frame :=
  { h with chunks, footer }

section

variable (hr : r.Reads b h payload) (hlen : (h.bytes ++ payload).length < 2 ^ 64)
include hr hlen

theorem RangeReader.Reads.payloadEnd_eq (hdone : doneLen h h.head.chunkCount.toNat ≤
    payload.length) :
    r.payloadEnd = .ok (h.bytes.length + doneLen h h.head.chunkCount.toNat) := by
  rw [length_append] at hlen
  unfold payloadEnd
  rw [hr.head, hr.payloadStart]
  split
  next hzero =>
    simp only [hzero, doneLen, pure_eq_ok]
    simp
  next hne =>
    have hcount : 0 < h.head.chunkCount.toNat := by
      rcases Nat.eq_zero_or_pos h.head.chunkCount.toNat with h0 | hpos
      · exact absurd (UInt64.toNat_inj.mp h0) hne
      · exact hpos
    have hbefore : (h.head.chunkCount.toNat - 1) * h.head.chunkSize.toNat <
        h.head.plaintextLen.toNat := by
      rw [← lt_divCeil_iff h.head_valid.chunkSize_toNat_pos, ← h.head_valid.chunkCount]
      omega
    have hlast : h.head.chunkCount.toNat - 1 + 1 ≤ r.header.head.chunkCount.toNat := by
      rw [hr.head]
      omega
    obtain ⟨hoffset, hspanLen⟩ := r.header.run_eq (by rw [hr.head]; exact h.head_valid) Nat.one_pos
      hlast
    have hspan := @RangeHeader.chunkSpan_eq_ok r.header (h.head.chunkCount.toNat - 1) 1 1
    rw [hr.head] at hoffset hspanLen hspan
    rw [hr.payloadStart] at hoffset
    rw [Nat.sub_add_cancel hcount] at hspanLen
    have htags : h.head.chunkCount.toNat * tagLen =
        (h.head.chunkCount.toNat - 1) * tagLen + 1 * tagLen := by
      rw [← Nat.add_mul, Nat.sub_add_cancel hcount]
    have hmono : (h.head.chunkCount.toNat - 1) * h.head.chunkSize.toNat ≤
        h.head.chunkCount.toNat * h.head.chunkSize.toNat := Nat.mul_le_mul_right _ (by omega)
    simp only [doneLen] at hdone ⊢
    simp only [bind_eq_ok, ofCrypto_eq_ok, pure_eq_ok]
    refine ⟨_, (hspan (by omega) Nat.one_pos (by omega)).mpr ⟨⟨by omega, by omega⟩, rfl⟩, ?_⟩
    have hsum : (r.header.run (h.head.chunkCount.toNat - 1) 1).ciphertextOffset +
        (r.header.run (h.head.chunkCount.toNat - 1) 1).ciphertextLen = h.bytes.length +
          (min h.head.plaintextLen.toNat (h.head.chunkCount.toNat * h.head.chunkSize.toNat) +
            h.head.chunkCount.toNat * tagLen) := by omega
    rw [hsum]
    exact Nat.min_eq_left (Nat.le_sub_one_of_lt (by omega))

theorem RangeReader.Reads.confirmFooter_eq_ok {cts : List Bytes} {tail fold : Bytes}
    (hcts : cts.flatten.length = doneLen h h.head.chunkCount.toNat)
    (hpayload : payload = cts.flatten ++ tail) :
    r.confirmFooter L (b.view ix) fold = .ok () ↔ ∃ extra, tail = (L.hash fold).bytes ++ extra := by
  have hsize := congrArg List.length hpayload
  rw [length_append, hcts] at hsize
  have hdrop : (h.bytes ++ payload).drop (h.bytes.length + doneLen h h.head.chunkCount.toNat) =
      tail := by
    rw [← drop_drop, drop_left, hpayload, ← hcts, drop_left]
  unfold confirmFooter
  simp only [hr.payloadEnd_eq hlen (by omega), ok_bind, Backend.view, bind_eq_ok, ofStore_eq_ok,
    Backend.getRange_eq_ok hr.stored, hdrop, reject_eq_ok, ne_eq, not_not, length_append]
  constructor
  · rintro ⟨_, ⟨-, rfl⟩, _, -, hfooter⟩
    exact ⟨tail.drop footerLen, by rw [← hfooter, take_append_drop]⟩
  · rintro ⟨extra, rfl⟩
    have htake : ((L.hash fold).bytes ++ extra).take footerLen = (L.hash fold).bytes :=
      take_left' (L.hash fold).length
    exact ⟨_, ⟨by omega, rfl⟩, (), by rw [htake, (L.hash fold).length], htake⟩

end

theorem RangeReader.confirmContent_eq_ok {path : String} {digest : Digest} :
    r.confirmContent path digest = .ok () ↔ ∀ m ∈ r.header.metadata, digest = m.contentBlake3 := by
  unfold confirmContent contentBlake3
  cases r.header.metadata with
  | none => simp
  | some m => simp

theorem RangeReader.Reads.streamTo_eq_ok (hr : r.Reads b h payload)
    (hlen : (h.bytes ++ payload).length < 2 ^ 64) {key : Key}
    (hopens : h.Opens L.toPrimitives key r.header.dek r.header.metadata) {path : String}
    {out out' : σ} {streamed : Streamed} :
    r.streamTo L (b.view ix) path w out = .ok (streamed, out') ↔
      ∃ (cts pts : List Bytes) (footer extra : Bytes),
        (frameOf h cts footer).Opens L.toPrimitives key r.header.dek r.header.metadata pts ∧
        payload = cts.flatten ++ footer ++ extra ∧
        (∀ m ∈ r.header.metadata, L.hash pts.flatten = m.contentBlake3) ∧
        (pts.foldlM w.write out).bind w.flush = some out' ∧
        streamed = { bytes := pts.flatten.length, plaintextHash := L.hash pts.flatten } := by
  have hwalk : ∀ s', r.walk L (b.view ix) path w h.head.chunkCount.toNat
      { hashed := [], footer := r.footerFold, written := 0, next := 0, out } = .ok s' ↔
        ∃ cts pts tail out1, ChunksOpen L.toPrimitives r.header.dek h.head 0
          h.head.chunkCount.toNat cts pts ∧ payload = cts.flatten ++ tail ∧
          pts.foldlM w.write out = some out1 ∧ s' =
          { hashed := pts.flatten, footer := r.footerFold.map (· ++ cts.flatten),
            written := pts.flatten.length, next := h.head.chunkCount.toNat, out := out1 } := by
    intro s'
    rw [hr.walk_eq_ok hlen (Nat.zero_le _) (Nat.sub_le _ _) (by simp [doneLen])]
    simp [Walk.RunsTo, Walk.after, doneLen]
  unfold streamTo
  rw [hr.head]
  simp only [bind_eq_ok, hwalk, reject_eq_ok, ne_eq, not_not, okOr_eq_ok, pure_eq_ok, Prod.mk.injEq,
    Option.bind_eq_some_iff]
  -- The footer hash is of the header and the ciphertext, so that it is the hash of the frame's
  -- body.
  have hfooter : ∀ cts tail, cts.flatten.length = doneLen h h.head.chunkCount.toNat →
      payload = cts.flatten ++ tail →
      (r.confirmFold L (b.view ix) (r.footerFold.map (· ++ cts.flatten)) = .ok () ↔
        ∃ footer extra, (footer = if h.head.hasFooter then
          (L.hash (frameOf h cts footer).body).bytes else []) ∧ tail = footer ++ extra) := by
    intro cts tail hcts hpayload
    unfold confirmFold footerFold
    rw [hr.head, hr.headerBytes]
    cases h.head.hasFooter with
    | false => simp
    | true =>
      simp only [if_true, Option.map_some, hr.confirmFooter_eq_ok hlen hcts hpayload]
      constructor
      · rintro ⟨extra, rfl⟩
        exact ⟨_, extra, rfl, rfl⟩
      · rintro ⟨footer, extra, hfoot, rfl⟩
        exact ⟨extra, congrArg (· ++ extra) hfoot⟩
  constructor
  · rintro ⟨s, ⟨cts, pts, tail, out1, hopen, hpayload, hout, rfl⟩, _, hproduced, _, hhash, _, hfold,
      out2, hflush, rfl, rfl⟩
    obtain ⟨footer, extra, hfoot, rfl⟩ :=
      (hfooter cts tail (ChunksOpen.length_flatten_done hopen) hpayload).mp hfold
    have hframe :
        (frameOf h cts footer).Opens L.toPrimitives key r.header.dek r.header.metadata pts :=
      ⟨hopens, hopen, hproduced, hfoot⟩
    refine ⟨cts, pts, footer, extra, hframe, ?_, confirmContent_eq_ok.mp hhash,
      ⟨out1, hout, hflush⟩, rfl⟩
    rw [hpayload, append_assoc]
  · rintro ⟨cts, pts, footer, extra, hframe, hpayload, hhash, ⟨out1, hout, hflush⟩, rfl⟩
    rw [append_assoc] at hpayload
    refine ⟨_, ⟨cts, pts, _, out1, hframe.chunks, hpayload, hout, rfl⟩, (), hframe.produced, (),
      confirmContent_eq_ok.mpr hhash, (), ?_, _, hflush, rfl, rfl⟩
    exact (hfooter cts _ (ChunksOpen.length_flatten_done hframe.chunks) hpayload).mpr
      ⟨footer, extra, hframe.footer, rfl⟩

end Payload

end Dctl.Core
