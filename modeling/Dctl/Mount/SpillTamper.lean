import Dctl.Mount.SpillReads

/-! Spills whose backing file is changed between the calls.  The operations go on as they did, what
they seal is remembered, and a frame that opens is the last one that was sealed for its slot as long
as no slot holds an earlier one. -/

namespace Dctl.Mount

open ProofKit Crypto Cli List

variable {P : Primitives} {rng : Nat → Nonce} {content content' chunk data blob : Bytes}
  {r r' : Logged} {index position offset at' len n : Nat}

def Logged.last (r : Logged) (index : Nat) : Option SealedFrame := r.frames.find? (·.index = index)

/-- What opens in a slot was sealed for it: the cipher is ideal. -/
def Logged.Authentic (P : Primitives) (r : Logged) : Prop :=
  ∀ index n plaintext, Aead.decrypt P r.spill.key (readAt r.spill.file (index * slotLen) n)
    (frameAad index) = .ok plaintext →
      ∃ f ∈ r.frames, f.index = index ∧ f.blob = readAt r.spill.file (index * slotLen) n

/-- The slot does not start with an earlier frame of its own. -/
def Logged.Current (r : Logged) (index : Nat) : Prop :=
  ∀ f ∈ r.frames, f.index = index → ∀ n, readAt r.spill.file (index * slotLen) n = f.blob →
    (r.last index).map (·.blob) = some f.blob

/-- Every logged frame was sealed as it says, and the last ones are those of the content. -/
structure Remembers (P : Primitives) (content : Bytes) (r : Logged) : Prop where
  made : ∀ f ∈ r.frames, ∃ nonce, Aead.encrypt P r.spill.key nonce f.plaintext
    (frameAad f.index) = .ok f.blob
  last : ∀ index, index * frameLen < content.length →
    ∃ f, r.last index = some f ∧ f.plaintext = frameOf content index

theorem Logged.last_sealed (r : Logged) (i index : Nat) (plaintext blob file : Bytes) :
    (r.sealed i plaintext blob file).last index =
      if i = index then some ⟨i, plaintext, blob⟩ else r.last index := by
  unfold Logged.last Logged.sealed
  by_cases hsame : i = index
  · rw [if_pos hsame, List.find?_cons_of_pos (by simpa using hsame)]
  · rw [if_neg hsame, List.find?_cons_of_neg (by simpa using hsame)]

theorem Logged.index_of_last {f : SealedFrame} (h : r.last index = some f) :
    f ∈ r.frames ∧ f.index = index :=
  ⟨mem_of_find?_eq_some h, by simpa using List.find?_some h⟩

theorem Remembers.opened (h : Remembers P content r) (hP : P.Lawful) (hauthentic : r.Authentic P)
    (hcurrent : r.Current index) {plaintext : Bytes} (hopen : Aead.decrypt P r.spill.key
      (readAt r.spill.file (index * slotLen) n) (frameAad index) = .ok plaintext) :
    ∃ f, r.last index = some f ∧ f.plaintext = plaintext ∧
      f.blob = readAt r.spill.file (index * slotLen) n := by
  obtain ⟨f, hf, hindex', hblob⟩ := hauthentic index n plaintext hopen
  obtain ⟨g, hlast, hg⟩ := Option.map_eq_some_iff.mp (hcurrent f hf hindex' n hblob.symm)
  obtain ⟨hmem, hindex⟩ := Logged.index_of_last hlast
  obtain ⟨nonce, hseal⟩ := h.made g hmem
  have hdecrypt := Aead.decrypt_encrypt hP hseal
  rw [hindex, hg, hblob, hopen] at hdecrypt
  exact ⟨g, hlast, (Except.ok.inj hdecrypt).symm, hg.trans hblob⟩

/-- The frame is read as it stands in the content, or not at all. -/
def Reads (P : Primitives) (s : Spill) (content : Bytes) (index : Nat) : Prop :=
  { s with len := content.length }.readFrame P index = .ok (frameOf content index) ∨
    ∃ e, { s with len := content.length }.readFrame P index = .error e

theorem reads_past (P : Primitives) (s : Spill) (h : content.length ≤ index * frameLen) :
    Reads P s content index := by
  refine .inl ?_
  rw [frameOf_eq_nil h]
  exact Spill.readFrame_past h

theorem Reads.congr {s s' : Spill} (h : Reads P s content index)
    (hlen : content'.length = content.length)
    (hframe : frameOf content' index = frameOf content index) (hkey : s'.key = s.key)
    (hfile : ∀ n, readAt s'.file (index * slotLen) n = readAt s.file (index * slotLen) n) :
    Reads P s' content' index := by
  have hsame : { s' with len := content'.length }.readFrame P index =
      { s with len := content.length }.readFrame P index := by
    unfold Spill.readFrame
    simp only [hlen, hkey, hfile]
  unfold Reads
  rwa [hsame, hframe]

theorem Remembers.reads (h : Remembers P content r) (hP : P.Lawful) (hauthentic : r.Authentic P)
    (hcurrent : r.Current index)
    (hlong : blobLen index content.length ≤ r.spill.file.length - index * slotLen) :
    Reads P r.spill content index := by
  by_cases hpast : content.length ≤ index * frameLen
  · exact reads_past P r.spill hpast
  · unfold Reads Spill.readFrame
    have hwant : blobLen index content.length ≠ 0 := by
      simp only [blobLen, if_neg hpast, overhead]
      omega
    have hfull : ¬(readAt r.spill.file (index * slotLen) (blobLen index content.length)).length <
        blobLen index content.length := by
      rw [length_readAt]
      omega
    simp only [if_neg hwant, if_neg hfull]
    cases hopen : Aead.decrypt P r.spill.key
      (readAt r.spill.file (index * slotLen) (blobLen index content.length)) (frameAad index) with
    | error e => exact .inr ⟨_, rfl⟩
    | ok plaintext =>
      obtain ⟨f, hlast, rfl, -⟩ := h.opened hP hauthentic hcurrent hopen
      obtain ⟨g, hlast', hg⟩ := h.last index (Nat.lt_of_not_le hpast)
      obtain rfl := Option.some.inj (hlast.symm.trans hlast')
      exact .inl (congrArg Except.ok hg)

structure Resealed (P : Primitives) (index : Nat) (content : Bytes) (r r' : Logged) : Prop where
  key : r'.spill.key = r.spill.key
  len : r'.spill.len = r.spill.len
  remembers : Remembers P content r'
  last : ∃ f, r'.last index = some f ∧ f.plaintext = frameOf content index
  others : ∀ i, i ≠ index → r'.last i = r.last i
  behind : ∀ i n, index < i → readAt r'.spill.file (i * slotLen) n =
    readAt r.spill.file (i * slotLen) n
  stands :
    ∃ nonce blob, Aead.encrypt P r'.spill.key nonce (frameOf content index) (frameAad index) =
    .ok blob ∧ Stands r'.spill.file (index * slotLen) blob

theorem Remembers.seal (hP : P.Lawful) (h : Remembers P content r) {nonce : Nonce}
    (hseal : Aead.encrypt P r.spill.key nonce (frameOf content' index) (frameAad index) = .ok blob)
    (hothers : ∀ i, i ≠ index → i * frameLen < content'.length →
      i * frameLen < content.length ∧ frameOf content' i = frameOf content i) :
    Resealed P index content' r (r.sealed index (frameOf content' index) blob
      (writeAt r.spill.file (index * slotLen) blob)) where
  key := rfl
  len := rfl
  remembers := by
    refine ⟨?_, fun i hi => ?_⟩
    · intro f hf
      rcases mem_cons.mp hf with rfl | hf
      · exact ⟨nonce, hseal⟩
      · exact h.made f hf
    · rw [Logged.last_sealed]
      by_cases hsame : index = i
      · rw [if_pos hsame, ← hsame]
        exact ⟨_, rfl, rfl⟩
      · rw [if_neg hsame]
        obtain ⟨hin, hframe⟩ := hothers i (Ne.symm hsame) hi
        rw [hframe]
        exact h.last i hin
  last := by
    rw [Logged.last_sealed, if_pos rfl]
    exact ⟨_, rfl, rfl⟩
  others := by
    intro i hi
    rw [Logged.last_sealed, if_neg (Ne.symm hi)]
  behind := by
    intro i n hi
    refine readAt_writeAt_behind ?_
    have hlen := length_blob hP hseal
    have hmul := Nat.mul_le_mul_right slotLen hi
    rw [length_frameOf] at hlen
    simp only [frameLen, overhead, slotLen] at *
    omega
  stands := ⟨nonce, blob, hseal, stands_writeAt _ _ _⟩

theorem Resealed.reads_end (hP : P.Lawful) (h : Resealed P index content r r')
    (hfrom : index * frameLen < content.length) (hto : content.length ≤ (index + 1) * frameLen) :
    Reads P r'.spill content (content.length / frameLen) := by
  by_cases hfull : content.length = (index + 1) * frameLen
  · refine reads_past P _ (Nat.le_of_eq ?_)
    rw [hfull, Nat.mul_div_cancel _ (by decide : 0 < frameLen)]
  · have hdiv : content.length / frameLen = index :=
      Nat.div_eq_of_lt_le (Nat.le_of_lt hfrom) (by omega)
    obtain ⟨nonce, blob, hseal, hstands⟩ := h.stands
    rw [hdiv]
    have hread := @Spill.readFrame_stands P content { r'.spill with len := content.length } index hP
      rfl hfrom nonce blob hseal hstands
    exact .inl hread

namespace SpillIo

theorem patch_reads (hP : P.Lawful) (h : Remembers P content r) (hle : position ≤ content.length)
    (hin : position % frameLen + chunk.length ≤ frameLen)
    (hread : r.spill.readFrame P (position / frameLen) = .ok (frameOf content
      (position / frameLen)) ∨ ∃ e, r.spill.readFrame P (position / frameLen) = .error e) :
    (∃ r', patch P rng none position chunk r = .ok () r' ∧
        Resealed P (position / frameLen) (ProofKit.writeAt content position chunk) r r') ∨
      ∃ e, r.spill.readFrame P (position / frameLen) = .error e ∧
        patch P rng none position chunk r = .error e r := by
  have hrun := (@readFrame_cases P none (position / frameLen) r).resolve_right (by simp)
  rcases hread with hok | ⟨e, herror⟩
  · left
    rw [hok] at hrun
    have hframe := frameOf_writeAt_same hin hle
    have hplain : (frameOf (ProofKit.writeAt content position chunk) (position / frameLen)).length ≤
        frameLen := length_frameOf_le _ _
    obtain ⟨blob, hblob, -⟩ := @Spill.writeFrame_eq P rng r.spill (position / frameLen) hP _ hplain
    have hwrite := (writeFrame_cases none hblob).resolve_right (by simp)
    refine ⟨_, (bind_ok hrun).trans ?_, h.seal hP hblob fun i hi hlt => ?_⟩
    · rw [patched_eq, ← hframe]
      exact hwrite
    · exact ⟨mul_lt_of_lt_writeAt hin hle hi hlt, frameOf_writeAt_other hin hle hi⟩
  · right
    rw [herror] at hrun
    exact ⟨e, herror, bind_error hrun⟩

end SpillIo

structure Evolves (P : Primitives) (content : Bytes) (r r' : Logged) : Prop where
  key : r'.spill.key = r.spill.key
  remembers : Remembers P content r'
  touched : ∀ i, r'.last i = r.last i ∨ ∃ f, r'.last i = some f ∧ f.plaintext = frameOf content i

theorem Evolves.refl (h : Remembers P content r) :
    Evolves P content r r := ⟨rfl, h, fun _ => .inl rfl⟩

theorem Evolves.trans {r₁ : Logged} (h : Evolves P content r r₁) (h' : Evolves P content' r₁ r')
    (hgrow : content.length ≤ content'.length) : Evolves P content' r r' := by
  refine ⟨h'.key.trans h.key, h'.remembers, fun i => ?_⟩
  rcases h'.touched i with hsame | htouched
  · rcases h.touched i with hsame' | ⟨f, hf, hplain⟩
    · exact .inl (hsame.trans hsame')
    · refine .inr ⟨f, hsame.trans hf, ?_⟩
      by_cases hin : i * frameLen < content'.length
      · obtain ⟨g, hg, hplain'⟩ := h'.remembers.last i hin
        obtain rfl := Option.some.inj ((hsame.trans hf).symm.trans hg)
        exact hplain'
      · have hpast := Nat.le_of_not_lt hin
        rw [hplain, frameOf_eq_nil (hgrow.trans hpast), frameOf_eq_nil hpast]
  · exact .inr htouched

theorem Resealed.evolves (h : Resealed P index content r r') : Evolves P content r r' := by
  refine ⟨h.key, h.remembers, fun i => ?_⟩
  by_cases hsame : i = index
  · rw [hsame]
    exact .inr h.last
  · exact .inl (h.others i hsame)

theorem frame_bounds (position : Nat) (hin : position % frameLen + len ≤ frameLen) :
    position / frameLen * frameLen ≤ position ∧
      position + len ≤ (position / frameLen + 1) * frameLen := by
  have hdiv := Nat.div_add_mod position frameLen
  rw [Nat.mul_comm] at hdiv
  rw [Nat.add_mul]
  omega

theorem takeLen_full (position : Nat) {rest : Nat} (h : Spill.takeLen position rest < rest) :
    position + Spill.takeLen position rest = (position / frameLen + 1) * frameLen := by
  have hdiv := Nat.div_add_mod position frameLen
  have hmod := Nat.mod_lt position (show 0 < frameLen by decide)
  unfold Spill.takeLen at h ⊢
  rw [Nat.mul_comm] at hdiv
  rw [Nat.add_mul]
  omega

namespace SpillIo

theorem fillGap_reads (hP : P.Lawful) (h : Remembers P (sized content at') r)
    (hlen : r.spill.len = content.length) (hfrom : content.length ≤ at') (hto : at' ≤ offset)
    (hedge : at' = content.length ∨ frameLen ∣ at' ∨ at' = offset)
    (hreads : Reads P r.spill (sized content at') (at' / frameLen)) :
    (∃ r', fillGap P rng none at' offset r = .ok () r' ∧ Evolves P (sized content offset) r r' ∧
        Reads P r'.spill (sized content offset) (offset / frameLen)) ∨
      at' = content.length ∧ ∃ e, fillGap P rng none at' offset r = .error e r := by
  induction hgap : offset - at' using Nat.strong_induction_on generalizing r at' with
  | _ gap ih =>
    rw [fillGap]
    by_cases hless : at' < offset
    · rw [dif_pos hless]
      have hread : r.spill.readFrame P (at' / frameLen) =
            .ok (frameOf (sized content at') (at' / frameLen)) ∨
          at' = content.length ∧ ∃ e, r.spill.readFrame P (at' / frameLen) = .error e := by
        rcases hedge with heq | hdvd | heq
        · have hsame : { r.spill with len := (sized content at').length } = r.spill := by
            rw [length_sized, heq, ← hlen]
          rw [Reads, hsame] at hreads
          exact hreads.imp_right fun herror => ⟨heq, herror⟩
        · have hmul := Nat.div_mul_cancel hdvd
          rw [frameOf_eq_nil (by rw [length_sized]; exact Nat.le_of_eq hmul.symm)]
          exact .inl (Spill.readFrame_past (by omega))
        · omega
      have hin := Spill.takeLen_le at' (offset - at')
      have hpos : 0 < Spill.takeLen at' (offset - at') := Spill.takeLen_pos (by omega)
      have htake : Spill.takeLen at' (offset - at') ≤ offset - at' := Nat.min_le_right ..
      have hchunk : at' % frameLen + (zeros (Spill.takeLen at' (offset - at'))).length ≤
          frameLen := by
        rwa [zeros, length_replicate]
      rcases @patch_reads P rng (sized content at') _ r at' hP h (Nat.le_of_eq length_sized.symm)
        hchunk (hread.imp_right And.right) with ⟨r₁, hpatch, hsealed⟩ | ⟨e, hfails, herror⟩
      · obtain ⟨hfrom', hto'⟩ := frame_bounds at' hin
        rw [writeAt_sized_zeros hfrom] at hsealed
        have hlong : (sized content (at' + Spill.takeLen at' (offset - at'))).length =
            at' + Spill.takeLen at' (offset - at') := length_sized
        have hreads₁ := hsealed.reads_end hP (by omega) (by omega)
        rw [hlong] at hreads₁
        rcases ih _ (by omega) hsealed.remembers (hsealed.len.trans hlen) (by omega) (by omega) (by
          unfold Spill.takeLen
          simp only [frameLen]
          omega) hreads₁ rfl with ⟨r', hfill, hevolves, hreads'⟩ | ⟨heq, -⟩
        · refine .inl ⟨r', (bind_ok hpatch).trans hfill, ?_, hreads'⟩
          exact hsealed.evolves.trans hevolves (by rw [hlong, length_sized]; omega)
        · omega
      · rcases hread with hok | ⟨heq, -⟩
        · cases hfails.symm.trans hok
        · exact .inr ⟨heq, e, bind_error herror⟩
    · rw [dif_neg hless]
      have heq : at' = offset := by omega
      subst heq
      exact .inl ⟨r, rfl, .refl h, hreads⟩

theorem writeChunks_reads (hP : P.Lawful) (h : Remembers P content r)
    (hlen : r.spill.len = content.length) (hle : position ≤ content.length)
    (hreads : data ≠ [] → ∀ i, position / frameLen ≤ i → i * frameLen < position + data.length →
      Reads P r.spill content i) :
    (∃ r', writeChunks P rng none position data r = .ok () r' ∧
        Evolves P (ProofKit.writeAt content position data) r r' ∧
        r'.spill.len = (ProofKit.writeAt content position data).length ∧
        (data ≠ [] → content.length ≤ position + data.length →
          Reads P r'.spill (ProofKit.writeAt content position data)
            ((position + data.length) / frameLen))) ∨
      ∃ e r' k, writeChunks P rng none position data r = .error e r' ∧ k < data.length ∧
        Evolves P (ProofKit.writeAt content position (data.take k)) r r' ∧
        r'.spill.len = (ProofKit.writeAt content position (data.take k)).length := by
  induction hsize : data.length using Nat.strong_induction_on
    generalizing r content position data with
  | _ size ih =>
    by_cases hdata : data = []
    · subst hdata
      rw [writeChunks, dif_pos rfl, writeAt_nil hle]
      exact .inl ⟨r, rfl, .refl h, hlen, fun hsome => absurd rfl hsome⟩
    · have hsome := length_pos_iff.mpr hdata
      have hpos : 0 < Spill.takeLen position data.length := Spill.takeLen_pos hsome
      have hin := Spill.takeLen_le position data.length
      obtain ⟨hfrom, hto⟩ := frame_bounds position hin
      have htake : (data.take (Spill.takeLen position data.length)).length = _ :=
        Spill.length_take_takeLen
      have hread := hreads hdata (position / frameLen) (Nat.le_refl _) (by omega)
      have hsame : { r.spill with len := content.length } = r.spill := by rw [← hlen]
      rw [Reads, hsame] at hread
      rcases @patch_reads P rng content _ r position hP h hle (htake.symm ▸ hin) hread with
        ⟨r₁, hpatch, hsealed⟩ | ⟨e, -, herror⟩
      · obtain ⟨first, hfirst⟩ : ∃ first, first = data.take (Spill.takeLen position data.length) :=
          ⟨_, rfl⟩
        obtain ⟨rest, hrest⟩ : ∃ rest, rest = data.drop (Spill.takeLen position data.length) :=
          ⟨_, rfl⟩
        have hdataEq : first ++ rest = data := by rw [hfirst, hrest, take_append_drop]
        rw [← hfirst] at hpatch hsealed htake
        have hlong : (ProofKit.writeAt content position first).length =
            max content.length (position + Spill.takeLen position data.length) := by
          rw [length_writeAt, htake]
        have hsize' : data.length = Spill.takeLen position data.length + rest.length := by
          rw [← htake, ← length_append, hdataEq]
        obtain ⟨r₂, hr₂⟩ : ∃ r₂ : Logged, r₂ = { r₁ with
            spill.len :=
              max r₁.spill.len (position + Spill.takeLen position data.length) } := ⟨_, rfl⟩
        have hevolves : Evolves P (ProofKit.writeAt content position first) r r₂ := by
          have hev := hsealed.evolves
          rw [hr₂]
          exact ⟨hev.key, ⟨hev.remembers.made, hev.remembers.last⟩, hev.touched⟩
        have hlen₂ : r₂.spill.len = (ProofKit.writeAt content position first).length := by
          rw [hlong, hr₂, ← hlen, ← hsealed.len]
        have hrun : writeChunks P rng none position data r = writeChunks P rng none
            (position + Spill.takeLen position data.length) rest r₂ := by
          rw [writeChunks, dif_neg hdata, hr₂, hrest]
          rw [hfirst] at hpatch
          exact bind_ok hpatch
        by_cases hlast : rest = []
        · have hdone :
              writeChunks P rng none (position + Spill.takeLen position data.length) rest r₂ =
              .ok () r₂ := by
            rw [hlast, writeChunks, dif_pos rfl]
            rfl
          have hall : first = data := by rw [← hdataEq, hlast, append_nil]
          rw [hall] at hevolves hlen₂ hsealed hlong
          refine .inl ⟨r₂, hrun.trans hdone, hevolves, hlen₂, fun _ hend => ?_⟩
          rw [hlast, length_nil] at hsize'
          have hreads' := hsealed.reads_end hP (by omega) (by omega)
          rw [show (ProofKit.writeAt content position data).length = position + size by omega]
            at hreads'
          rw [hr₂]
          exact hreads'
        · have hrestLen := length_pos_iff.mpr hlast
          have hfull :=
            takeLen_full position (show Spill.takeLen position data.length < data.length by omega)
          have hreads₂ : rest ≠ [] →
              ∀ i, (position + Spill.takeLen position data.length) / frameLen ≤ i →
              i * frameLen < position + Spill.takeLen position data.length + rest.length →
              Reads P r₂.spill (ProofKit.writeAt content position first) i := by
            intro _ i hi hiEnd
            rw [hfull, Nat.mul_div_cancel _ (by decide : 0 < frameLen)] at hi
            by_cases hpast : (ProofKit.writeAt content position first).length ≤ i * frameLen
            · exact reads_past P _ hpast
            · have hother : i ≠ position / frameLen := by omega
              have hmul := Nat.mul_le_mul_right frameLen hi
              refine (hreads hdata i (by omega) (by omega)).congr (by omega)
                (frameOf_writeAt_other (htake.symm ▸ hin) hle hother) ?_ fun n => ?_
              · rw [hr₂]
                exact hsealed.key
              · rw [hr₂]
                exact hsealed.behind i n (by omega)
          have hjoin := fun more => writeAt_append content position first more
          rw [htake] at hjoin
          rw [hrun]
          rcases ih _ (by omega) hevolves.remembers hlen₂ (by omega) hreads₂ rfl with
            ⟨r', hdone, hevolves', hlen', hreads'⟩ | ⟨e, r', k, herror, hk, hevolves', hlen'⟩
          · rw [hjoin, hdataEq] at hevolves' hlen' hreads'
            refine .inl ⟨r', hdone, hevolves.trans hevolves' ?_, hlen', fun _ hend => ?_⟩
            · rw [hlong, length_writeAt]
              omega
            · have hend' := hreads' hlast (by omega)
              rwa [Nat.add_assoc, ← hsize', hsize] at hend'
          · have htaken :
                first ++ rest.take k = data.take (Spill.takeLen position data.length + k) := by
              rw [hfirst, hrest, take_add]
            rw [hjoin, htaken] at hevolves' hlen'
            refine .inr ⟨e, r', _, herror, by omega, hevolves.trans hevolves' ?_, hlen'⟩
            rw [hlong, length_writeAt, length_take]
            omega
      · rw [writeChunks, dif_neg hdata]
        refine .inr ⟨e, r, 0, bind_error herror, by omega, ?_⟩
        rw [take_zero, writeAt_nil hle]
        exact ⟨.refl h, hlen⟩

theorem reads_behind (s : Spill) (hlast : Reads P s content (content.length / frameLen)) {i : Nat}
    (hi : content.length / frameLen ≤ i) : Reads P s content i := by
  rcases Nat.eq_or_lt_of_le hi with rfl | hmore
  · exact hlast
  · refine reads_past P s ?_
    have hdiv := Nat.div_add_mod content.length frameLen
    have hmod := Nat.mod_lt content.length (show 0 < frameLen by decide)
    have hmul := Nat.mul_le_mul_right frameLen hmore
    rw [Nat.mul_comm] at hdiv
    rw [Nat.succ_mul] at hmul
    omega

theorem writeAt_reads (hP : P.Lawful) (h : Remembers P content r)
    (hlen : r.spill.len = content.length)
    (hreads : data ≠ [] → ∀ i, min offset content.length / frameLen ≤ i →
      i * frameLen < offset + data.length → Reads P r.spill content i) :
    (∃ r', writeAt P rng none offset data r = .ok () r' ∧
        Evolves P (flatWrite content offset data) r r' ∧
        r'.spill.len = (flatWrite content offset data).length ∧
        (data ≠ [] → content.length ≤ offset + data.length →
          Reads P r'.spill (flatWrite content offset data) ((offset + data.length) / frameLen))) ∨
      ∃ e r' content', writeAt P rng none offset data r = .error e r' ∧ Evolves P content' r r' ∧
        r'.spill.len = content'.length ∧ (content' = content ∨
          ∃ k < data.length, content' = ProofKit.writeAt content offset (data.take k)) := by
  unfold writeAt flatWrite
  by_cases hnone : data = []
  · rw [if_pos hnone, if_pos hnone]
    exact .inl ⟨r, rfl, .refl h, hlen, fun hsome => absurd hnone hsome⟩
  · have hsome := length_pos_iff.mpr hnone
    rw [if_neg hnone, if_neg hnone, get_bind]
    by_cases hless : r.spill.len < offset
    · rw [if_pos hless, hlen]
      have hpast : content.length < offset := by rwa [← hlen]
      have hle := Nat.le_of_lt hpast
      have hstart : Remembers P (sized content content.length) r := by rwa [sized_length]
      have hfirst : Reads P r.spill (sized content content.length) (content.length / frameLen) := by
        rw [sized_length]
        have hdiv := Nat.div_mul_le_self content.length frameLen
        exact hreads hnone _ (by rw [Nat.min_eq_right hle]) (by omega)
      rcases fillGap_reads hP hstart hlen (Nat.le_refl _) hle (.inl rfl) hfirst with
        ⟨r₁, hfill, hevolves, hreads₁⟩ | ⟨-, e, herror⟩
      · obtain ⟨r₂, hr₂⟩ : ∃ r₂ : Logged, r₂ = { r₁ with spill.len := offset } := ⟨_, rfl⟩
        have hevolves₂ : Evolves P (sized content offset) r r₂ := by
          rw [hr₂]
          exact ⟨hevolves.key, ⟨hevolves.remembers.made, hevolves.remembers.last⟩, hevolves.touched⟩
        have hlen₂ : r₂.spill.len = (sized content offset).length := by rw [hr₂, length_sized]
        have hlast : Reads P r₂.spill (sized content offset)
            ((sized content offset).length / frameLen) := by
          rw [hr₂, length_sized]
          exact hreads₁
        have hchunks : data ≠ [] → ∀ i, offset / frameLen ≤ i →
            i * frameLen < offset + data.length →
            Reads P r₂.spill (sized content offset) i := by
          intro _ i hi _
          exact reads_behind _ hlast (by rwa [length_sized])
        rcases @writeChunks_reads P rng _ data r₂ offset hP hevolves₂.remembers hlen₂
          (Nat.le_of_eq length_sized.symm) hchunks with
          ⟨r', hwrite, hevolves', hlen', hreads'⟩ | ⟨e, r', k, herror, hk, hevolves', hlen'⟩
        · rw [writeAt_sized hle] at hevolves' hlen' hreads'
          rw [hr₂] at hwrite
          refine .inl ⟨r', (bind_ok hfill).trans hwrite, hevolves₂.trans hevolves' ?_, hlen', ?_⟩
          · rw [length_sized, length_writeAt]
            omega
          · intro hsome' _
            exact hreads' hsome' (by rw [length_sized]; omega)
        · rw [writeAt_sized hle] at hevolves' hlen'
          rw [hr₂] at herror
          refine .inr ⟨e, r', _, (bind_ok hfill).trans herror, hevolves₂.trans hevolves' ?_, hlen',
            .inr ⟨k, hk, rfl⟩⟩
          rw [length_sized, length_writeAt]
          omega
      · exact .inr ⟨e, r, content, bind_error herror, .refl h, hlen, .inl rfl⟩
    · rw [if_neg hless]
      have hle : offset ≤ content.length := by
        rw [← hlen]
        exact Nat.le_of_not_lt hless
      rw [Nat.min_eq_left hle] at hreads
      rcases @writeChunks_reads P rng content data r offset hP h hlen hle hreads with
        hdone | ⟨e, r', k, herror, hk, hevolves, hlen'⟩
      · exact .inl hdone
      · exact .inr ⟨e, r', _, herror, hevolves, hlen', .inr ⟨k, hk, rfl⟩⟩

theorem growTo_reads (hP : P.Lawful) {step : Nat} (h : Remembers P content r)
    (hlen : r.spill.len = content.length) (hle : content.length ≤ len) (hstep : 0 < step)
    (hreads : Reads P r.spill content (content.length / frameLen)) :
    (∃ r', growTo P rng none content.length len step hstep r = .ok () r' ∧
        Evolves P (sized content len) r r' ∧ r'.spill.len = len) ∨
      ∃ e r' n, growTo P rng none content.length len step hstep r = .error e r' ∧
        content.length ≤ n ∧ n ≤ len ∧ Evolves P (sized content n) r r' ∧ r'.spill.len = n := by
  induction hgap : len - content.length using Nat.strong_induction_on generalizing r content with
  | _ gap ih =>
    rw [growTo]
    by_cases hless : content.length < len
    · rw [dif_pos hless]
      have hsome : zeros (min (len - content.length) step) ≠ [] := by
        apply ne_nil_of_length_pos
        rw [zeros, length_replicate]
        omega
      have hlong : (sized content (content.length + min (len - content.length) step)).length =
          content.length + min (len - content.length) step := length_sized
      rcases @writeAt_reads P rng content (zeros (min (len - content.length) step)) r content.length
        hP h hlen (fun _ i hi _ => reads_behind _ hreads (by rwa [Nat.min_self] at hi)) with
        ⟨r₁, hwrite, hevolves, hlen₁, hreads₁⟩ | ⟨e, r', content', herror, hevolves, hlen', hleft⟩
      · rw [flatWrite, if_neg hsome, writeAt_length_zeros] at hevolves hlen₁ hreads₁
        have hnext := hreads₁ hsome (Nat.le_add_right ..)
        have hcount : (zeros (min (len - content.length) step)).length =
            min (len - content.length) step :=
          length_replicate
        rw [hcount] at hnext
        rcases ih _ (by omega) hevolves.remembers hlen₁ (by omega) (by rwa [hlong]) rfl with
          ⟨r', hgrow, hevolves', hlen'⟩ | ⟨e, r', n, herror, hn, hnlen, hevolves', hlen'⟩
        · rw [hlong] at hgrow
          rw [sized_sized_of_le (by omega)] at hevolves'
          refine .inl ⟨r', (bind_ok hwrite).trans hgrow, hevolves.trans hevolves' ?_, hlen'⟩
          rw [hlong, length_sized]
          omega
        · rw [hlong] at herror hn
          rw [sized_sized_of_le (by omega)] at hevolves'
          refine .inr ⟨e, r', n, (bind_ok hwrite).trans herror, by omega, hnlen,
            hevolves.trans hevolves' ?_, hlen'⟩
          rw [hlong, length_sized]
          omega
      · refine .inr ⟨e, r', ?_⟩
        rcases hleft with hsame | ⟨k, hk, rfl⟩
        · rw [hsame] at hlen'
          rw [hsame, ← sized_length content] at hevolves
          exact ⟨content.length, bind_error herror, Nat.le_refl _, hle, hevolves, hlen'⟩
        · rw [zeros, length_replicate] at hk
          rw [zeros, take_replicate, Nat.min_eq_left (Nat.le_of_lt hk)] at hevolves hlen'
          have hend := writeAt_length_zeros content k
          rw [zeros] at hend
          rw [hend] at hevolves hlen'
          exact ⟨content.length + k, bind_error herror, Nat.le_add_right .., by omega, hevolves,
            hlen'.trans length_sized⟩
    · rw [dif_neg hless]
      have heq : content.length = len := by omega
      refine .inl ⟨r, rfl, ?_, hlen.trans heq⟩
      rw [← heq, sized_length]
      exact .refl h

section

variable (hP : P.Lawful) (h : Remembers P content r) (hlen : r.spill.len = content.length)
include hP h hlen

theorem shrink_reads (hless : len < content.length)
    (hreads : Reads P r.spill content (len / frameLen)) :
    (∃ r', truncate P rng none len r = .ok () r' ∧ Evolves P (content.take len) r r' ∧
        r'.spill.len = len) ∨
      ∃ e, truncate P rng none len r = .error e r := by
  have hcut : len < r.spill.len := by rwa [hlen]
  have hsame : { r.spill with len := content.length } = r.spill := by rw [← hlen]
  have hrun := (@readFrame_cases P none (len / frameLen) r).resolve_right (by simp)
  rw [Reads, hsame] at hreads
  unfold truncate
  rw [get_bind, if_pos hcut]
  rcases hreads with hok | ⟨e, herror⟩
  · rw [hok] at hrun
    obtain ⟨blob, hblob, -⟩ := @Spill.writeFrame_eq P rng r.spill (len / frameLen) hP _
      (length_frameOf_le (content.take len) (len / frameLen))
    have hwrite := (writeFrame_cases none hblob).resolve_right (by simp)
    have hsealed := h.seal hP hblob fun i hi hlt => by
      rw [length_take] at hlt
      have hbefore : i + 1 ≤ len / frameLen := by
        have hi' := (Nat.le_div_iff_mul_le (show 0 < frameLen by decide)).mpr
          (Nat.le_of_lt (Nat.lt_of_lt_of_le hlt (Nat.min_le_left ..)))
        omega
      have hmul := (Nat.le_div_iff_mul_le (show 0 < frameLen by decide)).mp hbefore
      exact ⟨by omega, frameOf_take_whole hmul⟩
    rw [frameOf_take_cut] at hwrite
    refine .inl ⟨_, (bind_ok hrun).trans (bind_ok hwrite), ?_, rfl⟩
    have hev := hsealed.evolves
    rw [frameOf_take_cut] at hev
    exact ⟨hev.key, ⟨hev.remembers.made, hev.remembers.last⟩, hev.touched⟩
  · rw [herror] at hrun
    exact .inr ⟨e, bind_error hrun⟩

theorem truncate_reads
    (hreads : len ≠ content.length → Reads P r.spill content (min len content.length / frameLen)) :
    (∃ r', truncate P rng none len r = .ok () r' ∧ Evolves P (sized content len) r r' ∧
        r'.spill.len = len) ∨
      ∃ e r' n, truncate P rng none len r = .error e r' ∧ content.length ≤ n ∧
        (n = content.length ∨ n ≤ len) ∧ Evolves P (sized content n) r r' ∧ r'.spill.len = n := by
  rcases Nat.lt_trichotomy len content.length with hless | rfl | hmore
  · rw [Nat.min_eq_left (Nat.le_of_lt hless)] at hreads
    rw [sized_of_length_le (Nat.le_of_lt hless)]
    rcases shrink_reads hP h hlen hless (hreads (Nat.ne_of_lt hless)) with hdone | ⟨e, herror⟩
    · exact .inl hdone
    · refine .inr ⟨e, r, content.length, herror, Nat.le_refl _, .inl rfl, ?_, hlen⟩
      rw [sized_length]
      exact .refl h
  · left
    unfold truncate
    rw [get_bind, if_neg (by rw [hlen]; omega), grow, dif_neg (by rw [hlen]; omega), sized_length]
    exact ⟨_, rfl, ⟨rfl, ⟨h.made, h.last⟩, fun _ => .inl rfl⟩, rfl⟩
  · rw [Nat.min_eq_right (Nat.le_of_lt hmore)] at hreads
    unfold truncate
    rw [get_bind, if_neg (by rw [hlen]; omega), grow, dif_pos (by rwa [hlen])]
    have hstep : 0 < min (len - r.spill.len) frameLen := growStep_pos (by rwa [hlen])
    have hgrows := @growTo_reads P rng content r len hP _ h hlen (Nat.le_of_lt hmore) hstep
      (hreads (Nat.ne_of_gt hmore))
    rw [← hlen] at hgrows
    rcases hgrows with ⟨r₁, hgrow, hevolves, -⟩ | ⟨e, r', n, herror, hn, hnlen, hevolves, hlen'⟩
    · exact .inl ⟨_, bind_ok hgrow,
        ⟨hevolves.key, ⟨hevolves.remembers.made, hevolves.remembers.last⟩, hevolves.touched⟩, rfl⟩
    · rw [hlen] at hn
      exact .inr ⟨e, r', n, bind_error herror, hn, .inr hnlen, hevolves, hlen'⟩

end

end SpillIo

/-- The frames that a call reads of a spill of `len` bytes. -/
def SpillCall.Reads (len index : Nat) : SpillCall → Prop
  | .write offset data => data ≠ [] ∧ index * frameLen < len ∧ min offset len / frameLen ≤ index ∧
      index * frameLen < offset + data.length
  | .truncate n => n ≠ len ∧ index * frameLen < len ∧ index = min n len / frameLen

/-- The slot is not cut short by the end of the file. -/
def Spill.Covers (s : Spill) (index : Nat) : Prop :=
  blobLen index s.len ≤ s.file.length - index * slotLen

theorem Remembers.call (hP : P.Lawful) (h : Remembers P content r)
    (hlen : r.spill.len = content.length) (hauthentic : r.Authentic P) (call : SpillCall)
    (hread : ∀ index, call.Reads r.spill.len index → r.Current index ∧ r.spill.Covers index) :
    (∃ r', SpillIo.call P rng none call r = .ok () r' ∧ Evolves P (flatCall content call) r r' ∧
        r'.spill.len = (flatCall content call).length) ∨
      ∃ e r' content', SpillIo.call P rng none call r = .error e r' ∧ call.Leaves content content' ∧
        Evolves P content' r r' ∧ r'.spill.len = content'.length := by
  have hreads : ∀ index, (index * frameLen < content.length → call.Reads content.length index) →
      Reads P r.spill content index := by
    intro index hcalled
    rcases Nat.lt_or_ge (index * frameLen) content.length with hin | hpast
    · rw [hlen] at hread
      obtain ⟨hcurrent, hcovers⟩ := hread index (hcalled hin)
      rw [Spill.Covers, hlen] at hcovers
      exact h.reads hP hauthentic hcurrent hcovers
    · exact reads_past P r.spill hpast
  cases call with
  | write offset data =>
    rcases @SpillIo.writeAt_reads P rng content data r offset hP h hlen
      (fun hsome i hfrom hto => hreads i fun hin => ⟨hsome, hin, hfrom, hto⟩) with
      ⟨r', hwrite, hevolves, hlen', -⟩ | ⟨e, r', content', herror, hevolves, hlen', hleft⟩
    · exact .inl ⟨r', hwrite, hevolves, hlen'⟩
    · exact .inr ⟨e, r', content', herror, hleft, hevolves, hlen'⟩
  | truncate len =>
    rcases @SpillIo.truncate_reads P rng content r len hP h hlen
      (fun hne => hreads _ fun hin => ⟨hne, hin, rfl⟩) with
      ⟨r', htruncate, hevolves, hlen'⟩ | ⟨e, r', n, herror, hn, hnlen, hevolves, hlen'⟩
    · exact .inl ⟨r', htruncate, hevolves, hlen'.trans length_sized.symm⟩
    · exact .inr ⟨e, r', _, herror, ⟨n, hn, hnlen, rfl⟩, hevolves, hlen'.trans length_sized.symm⟩

end Dctl.Mount
