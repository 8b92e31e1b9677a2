import Dctl.Object.RoundTrip

/-! What the first phase of the streaming seal promises about the second (`object/sealer.rs`): the
length of the object and its name.  The second phase reads the input anew, and all that it notices
of a change is that the input has become too short. -/

namespace Dctl.Object

open ProofKit Crypto List

variable {P : Primitives} {key : Key} {draws : Draws} {input input' : Source} {len : UInt64}
  {m : Metadata} {chunkSize : UInt32} {plan : PlannedSeal}

namespace PlannedSeal

structure Fixed (plan : PlannedSeal) (head : Head) : Prop where
  valid : head.Valid
  headBytes : plan.headBytes = buildHead head
  header : ∃ rest, plan.header = buildHead head ++ rest
  fileId : plan.fileId = head.fileId
  baseNonce : plan.baseNonce = head.baseNonce
  chunkSize : plan.chunkSize = head.chunkSize
  plaintextLen : plan.plaintextLen = head.plaintextLen
  chunkCount : plan.chunkCount = head.chunkCount
  objectLen : plan.objectLen.toNat = plan.header.length +
    (plan.plaintextLen.toNat + plan.chunkCount.toNat * tagLen) + footerLen

theorem totalLen_eq_ok {headerLen plaintextLen chunkCount n : Nat} :
    totalLen headerLen plaintextLen chunkCount = .ok n ↔
      n = headerLen + (plaintextLen + chunkCount * tagLen) + footerLen ∧ n < 2 ^ 64 := by
  rw [totalLen_eq, okOr_eq_ok, checkedU64, Option.ite_none_right_eq_some, Option.some.injEq]
  omega

theorem prepare_fixed
    (h : prepare P key draws input len m chunkSize = .ok (plan, input')) :
    plan.Fixed (sealHead kemIdNone draws len chunkSize) := by
  simp only [prepare, bind_eq_ok, reject_eq_ok, pure_eq_ok, totalLen_eq_ok, Prod.exists,
    Prod.mk.injEq] at h
  obtain ⟨_, hcs, hashed, total, rewound, -, _, -, wrappedDek, -, _, -, metaPt, -, metaCt, -, _, -,
    objectLen, ⟨hlen, hfits⟩, rfl, -⟩ := h
  have hadm : AdmitsChunkSize chunkSize := by
    rw [not_or, not_lt] at hcs
    exact hcs
  refine ⟨sealHead_valid (.inl rfl) hadm, rfl, ⟨_, by simp only [append_assoc]; rfl⟩, rfl,
    rfl, rfl, rfl, rfl, ?_⟩
  simp only [UInt64.toNat_ofNat', Nat.mod_eq_of_lt hfits]
  exact hlen

theorem Fixed.emit_isOk (hP : P.Lawful) {head : Head} (hfixed : plan.Fixed head) {second : Source}
    (hlong : plan.plaintextLen.toNat ≤ second.rest.length) :
    ∃ object, plan.emit P second vecSink [] = .ok object ∧
      object.length = plan.objectLen.toNat ∧ Block.slice fileIdLen object 52 = plan.fileId := by
  have hlen := plan.plaintextLen.toNat_lt
  have hcs : 0 < plan.chunkSize.toNat := by
    rw [hfixed.chunkSize]
    exact hfixed.valid.chunkSize_toNat_pos
  generalize hpt : second.rest.take plan.plaintextLen.toNat = plaintext
  have hptLen : plaintext.length = plan.plaintextLen.toNat := by
    rw [← hpt, length_take, Nat.min_eq_left hlong]
  have hpieces : Pieces plan.plaintextLen.toNat plan.chunkSize.toNat 0
      (chunks plan.chunkSize.toNat plaintext) := by
    rw [← hptLen]
    exact pieces_chunks (by omega)
  have hcount : (chunks plan.chunkSize.toNat plaintext).length = plan.chunkCount.toNat := by
    rw [length_chunks hcs, hptLen, hfixed.chunkCount, hfixed.valid.chunkCount, hfixed.plaintextLen,
      hfixed.chunkSize]
  have hflat := flatten_chunks hcs plaintext
  obtain ⟨cts, hcts, -⟩ := sealChunks_isOk hP plan.dek hfixed.valid 0
    (chunks plan.chunkSize.toNat plaintext)
    (by rw [← hfixed.plaintextLen, ← hfixed.chunkSize]; exact hpieces)
  have hctsLen := length_sealChunks hP hcts
  rw [← hfixed.baseNonce, ← hfixed.headBytes] at hcts
  obtain ⟨rest, hheader⟩ := hfixed.header
  obtain ⟨input, hloop⟩ := plan.emitChunks_eq_ok hpieces hcts
    (s := { input := second, hashed := plan.header, output := plan.header })
    (show second.rest = _ ++ second.rest.drop plan.plaintextLen.toNat by
      rw [hflat, ← hpt, take_append_drop])
  rw [hcount] at hloop
  refine ⟨plan.header ++ cts.flatten ++ (P.hash (plan.header ++ cts.flatten)).bytes, ?_, ?_, ?_⟩
  · simp only [emit, EmitState.writeHashed, writeOut, vecSink, okOr, ok_bind, nil_append,
      pure_bind, hloop]
  · rw [length_append, length_append, hctsLen, hflat, hptLen, hcount, hfixed.objectLen,
      (P.hash _).length]
  · rw [hheader, append_assoc, append_assoc, hfixed.fileId]
    exact (readAt_buildHead head _).fileId

theorem le_length_of_emitChunks {n index : Nat} {s s' : EmitState Bytes}
    (h : plan.emitChunks P vecSink n index s = .ok s') :
    min plan.plaintextLen.toNat ((index + n) * plan.chunkSize.toNat) -
      index * plan.chunkSize.toNat ≤ s.input.rest.length := by
  induction n generalizing index s with
  | zero => simp
  | succ n ih =>
    simp only [emitChunks, bind_eq_ok, okOr_eq_ok, Prod.exists] at h
    obtain ⟨chunk, input, hread, ct, -, s1, hwrite, hloop⟩ := h
    simp only [EmitState.writeHashed, bind_eq_ok, pure_eq_ok] at hwrite
    obtain ⟨output, -, rfl⟩ := hwrite
    obtain ⟨hrest, hchunk, -⟩ := Source.readExact_eq_some hread
    have hleft := ih hloop
    rw [chunkPlaintextLen_eq plan.plaintextLen.toNat_lt] at hchunk
    rw [hrest, length_append, hchunk]
    rw [show index + 1 + n = index + (n + 1) by omega, Nat.add_one_mul index] at hleft
    simp only at hleft
    omega

theorem Fixed.emit_error {head : Head} (hfixed : plan.Fixed head) {second : Source}
    (hshort : second.rest.length < plan.plaintextLen.toNat) :
    ∃ e, plan.emit P second vecSink [] = .error e := by
  cases hemit : plan.emit P second vecSink [] with
  | error e => exact ⟨e, rfl⟩
  | ok object =>
    simp only [emit, EmitState.writeHashed, bind_eq_ok, pure_eq_ok] at hemit
    obtain ⟨_, ⟨output, -, rfl⟩, s, hloop, -⟩ := hemit
    have hread := le_length_of_emitChunks hloop
    have hcover : plan.plaintextLen.toNat ≤ plan.chunkCount.toNat * plan.chunkSize.toNat := by
      rw [hfixed.chunkCount, hfixed.valid.chunkCount, hfixed.plaintextLen, hfixed.chunkSize]
      exact (divCeil_le_iff hfixed.valid.chunkSize_toNat_pos).mp (Nat.le_refl _)
    rw [Nat.zero_add, Nat.zero_mul] at hread
    simp only at hread
    omega

/-- What the second phase is to do with the input `second` after a first phase over `first`: an
object that it completes has the promised length and name, and it completes none of other
contents. -/
def Keeps (plan : PlannedSeal) (P : Primitives) (first second : Source) : Prop :=
  (∀ object, plan.emit P second vecSink [] = .ok object →
    object.length = plan.objectLen.toNat ∧ Block.slice fileIdLen object 52 = plan.fileId) ∧
  (second.rest ≠ first.rest → ∃ e, plan.emit P second vecSink [] = .error e)

/-- The promise is kept exactly when the input has not changed or has become too short. -/
theorem keeps_iff (hP : P.Lawful)
    (h : prepare P key draws input len m chunkSize = .ok (plan, input')) (second : Source) :
    plan.Keeps P input second ↔
      second.rest = input.rest ∨ second.rest.length < plan.plaintextLen.toNat := by
  have hfixed := prepare_fixed h
  rcases Nat.lt_or_ge second.rest.length plan.plaintextLen.toNat with hshort | hlong
  · obtain ⟨e, herror⟩ := hfixed.emit_error (P := P) hshort
    refine iff_of_true ⟨fun object hok => ?_, fun _ => ⟨e, herror⟩⟩ (.inr hshort)
    rw [herror] at hok
    cases hok
  · obtain ⟨object, hok, hlen, hid⟩ := hfixed.emit_isOk hP hlong
    constructor
    · intro hkeeps
      by_contra hchanged
      obtain ⟨e, herror⟩ := hkeeps.2 fun hsame => hchanged (.inl hsame)
      rw [hok] at herror
      cases herror
    · intro hcond
      refine ⟨fun object' hok' => ?_, fun hchanged => ?_⟩
      · rw [hok] at hok'
        cases hok'
        exact ⟨hlen, hid⟩
      · rcases hcond with hsame | hshort
        · exact absurd hsame hchanged
        · omega

theorem exists_plan : ∃ plan input',
    prepare clearPrimitives default ⟨default, default, default, default, default⟩
      (Source.of [1, 2, 3] []) 3 (Metadata.new "a") 2 = .ok (plan, input') := by
  have hok : (prepare clearPrimitives default ⟨default, default, default, default, default⟩
      (Source.of [1, 2, 3] []) 3 (Metadata.new "a") 2).isOk = true := by decide +kernel
  generalize prepare clearPrimitives default ⟨default, default, default, default, default⟩
    (Source.of [1, 2, 3] []) 3 (Metadata.new "a") 2 = x at hok
  cases x with
  | error e => cases hok
  | ok out => exact ⟨out.1, out.2, rfl⟩

theorem keeps_iff_unchanged : ∃ plan input',
    prepare clearPrimitives default ⟨default, default, default, default, default⟩
      (Source.of [1, 2, 3] []) 3 (Metadata.new "a") 2 = .ok (plan, input') ∧
    plan.Keeps clearPrimitives (Source.of [1, 2, 3] []) (Source.of [1, 2, 3] [2]) := by
  obtain ⟨plan, input', h⟩ := exists_plan
  exact ⟨plan, input', h, (keeps_iff clearPrimitives_lawful h _).mpr (.inl rfl)⟩

/-- A byte that changes between the two phases is sealed under the hash of the old contents. -/
theorem emit_seals_changed_input : ∃ plan input' object,
    prepare clearPrimitives default ⟨default, default, default, default, default⟩
      (Source.of [1, 2, 3] []) 3 (Metadata.new "a") 2 = .ok (plan, input') ∧
    plan.emit clearPrimitives (Source.of [1, 2, 4] []) vecSink [] = .ok object ∧
    (Source.of [1, 2, 4] []).rest ≠ (Source.of [1, 2, 3] []).rest := by
  obtain ⟨plan, input', h⟩ := exists_plan
  have hfixed := prepare_fixed h
  have hlong : plan.plaintextLen.toNat ≤ (Source.of [1, 2, 4] []).rest.length := by
    rw [hfixed.plaintextLen]
    decide
  obtain ⟨object, hok, -⟩ := hfixed.emit_isOk clearPrimitives_lawful hlong
  exact ⟨plan, input', object, h, hok, by decide⟩

end PlannedSeal

end Dctl.Object
