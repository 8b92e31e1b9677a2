import Dctl.Core.Walk

/-! Which stored bytes the reads of a vault accept.  The buffered read accepts the objects that open
under the key that the vault has for them; the streamed read accepts any of these with further bytes
behind it. -/

namespace Dctl.Core

open ProofKit Crypto Kem Index Object List

variable (L : Libraries)

/-- The keys under which the vault opens the object: its root, or a key that an identity recovers.
-/
inductive Vault.KeyOf (v : Vault) (view : View) (h : Header) : Key → Prop
  | root (kemId : h.head.kemId = kemIdNone) (kemWrap : h.kemWrap = []) :
      KeyOf v view h v.rootKey
  | recipient {kw : Key} (kemId : h.head.kemId = kemIdHybrid)
      (recovered : v.recoverObjectKwParts L view h.headBytes h.kemWrap h.head.fileId = .ok kw) :
      KeyOf v view h kw

/-- The object is named by its key, opens under a key of the vault, and has the digest that it
declares. -/
structure Vault.Opens (v : Vault) (view : View) (objectKey : String) (f : Frame) (dek : Key)
    (metadata : Option Metadata) (pts : List Bytes) : Prop where
  named : namedFileId objectKey = some f.head.fileId
  frame : ∃ key, v.KeyOf L view f.toHeader key ∧ f.Opens L.toPrimitives key dek metadata pts
  hash : ∀ m ∈ metadata, L.hash pts.flatten = m.contentBlake3

variable {L} {v : Vault} {view : View}

theorem recoverInline_nil (headBytes : Bytes) (id : RecipientKeypair)
    (rest : List RecipientKeypair) (o : Option Key) :
    recoverInline L headBytes [] (id :: rest) ≠ .ok o := by
  intro h
  unfold recoverInline recoverKwFromBlock KemWrap.parse at h
  simp only [bind_eq_ok, reject_eq_ok] at h
  obtain ⟨_, ⟨_, ⟨_, hlen, -⟩, -⟩, -⟩ := h
  exact hlen (by decide)

theorem Vault.KeyOf.kemMatches {h : Header} {key : Key} (hkey : v.KeyOf L view h key) :
    h.KemMatches := by
  cases hkey with
  | root kemId kemWrap =>
    refine ⟨fun _ => kemWrap, fun hid => ?_⟩
    rw [kemId] at hid
    exact absurd hid (by decide)
  | recipient kemId recovered =>
    refine ⟨fun hid => ?_, fun _ hnil => ?_⟩
    · rw [kemId] at hid
      exact absurd hid (by decide)
    · simp only [Vault.recoverObjectKwParts, hnil, bind_eq_ok, ofCrypto_eq_ok] at recovered
      obtain ⟨o, hinline, -⟩ := recovered
      exact recoverInline_nil _ _ _ _ hinline

theorem Vault.recoverObjectKw_append (v : Vault) (view : View) (h : Header) (extra : Bytes) :
    v.recoverObjectKw L view (h.bytes ++ extra) =
      v.recoverObjectKwParts L view h.headBytes h.kemWrap h.head.fileId := by
  have hlen :
      (h.bytes ++ extra).length = 146 + h.kemWrap.length + h.metaBlob.length + extra.length := by
    rw [length_append, h.length_bytes]
  have hk := h.kemWrap_le
  have hdrop : (h.bytes ++ extra).drop 68 = le 2 h.kemWrap.length ++ (h.kemWrap ++
      (h.wrappedDek.bytes ++ (le 4 h.metaBlob.length ++ (h.metaBlob ++ extra)))) := by
    rw [h.bytes_append, drop_left' (length_buildHead h.head)]
  have hkem : leAt (h.bytes ++ extra) objectHeadLen 2 = h.kemWrap.length :=
    leAt_eq hdrop (by omega)
  have hblock : ((h.bytes ++ extra).drop (objectHeadLen + 2)).take h.kemWrap.length =
      h.kemWrap := by
    rw [← drop_drop, show objectHeadLen = 68 from rfl, hdrop, drop_left' (length_le 2 _),
      take_left]
  have hfileId := (readAt_buildHead h.head []).fileId
  rw [append_nil] at hfileId
  unfold recoverObjectKw
  simp only [hkem, hblock, h.take_bytes extra, reject]
  rw [if_neg (by simp only [objectHeadLen]; omega), if_neg (by simp only [objectHeadLen]; omega)]
  simp only [ok_bind, Header.headBytes, hfileId]

theorem Vault.openStored_eq_ok {objectKey : String} {object : Bytes} {o : Opened} :
    v.openStored L view objectKey object = .ok o ↔
      ∃ (f : Frame) (key dek : Key) (pts : List Bytes), namedFileId objectKey = some f.head.fileId ∧
        v.KeyOf L view f.toHeader key ∧ f.Opens L.toPrimitives key dek o.metadata pts ∧
        object = f.bytes ∧ o.plaintext = pts.flatten := by
  have hparse : ∀ {f : Frame}, object = f.bytes → parseHead object = .ok f.head := by
    rintro f rfl
    rw [f.bytes_eq, Header.bytes_append]
    exact f.head_valid.parseHead _
  have hrecover : ∀ {f : Frame}, object = f.bytes → v.recoverObjectKw L view object =
      v.recoverObjectKwParts L view f.headBytes f.kemWrap f.head.fileId := by
    rintro f rfl
    rw [f.bytes_eq, v.recoverObjectKw_append]
  simp only [openStored, bind_eq_ok, ofCrypto_eq_ok]
  constructor
  · rintro ⟨head, hhead, _, hid, hopen⟩
    have hnamed := requireObjectIdentity_eq_ok.mp hid
    split at hopen
    next hkem =>
      obtain ⟨pts, ⟨f, dek, hnone, hwrap, hf, hbytes⟩, hplain⟩ :=
        openObject_eq_ok.mp (ofCrypto_eq_ok.mp hopen)
      rw [hparse hbytes, Except.ok.injEq] at hhead
      exact ⟨f, _, dek, pts, by rw [hnamed, hhead], .root hnone hwrap, hf, hbytes, hplain⟩
    next =>
      split at hopen
      next hkem =>
        simp only [bind_eq_ok, ofCrypto_eq_ok] at hopen
        obtain ⟨kw, hkw, hopen⟩ := hopen
        obtain ⟨f, dek, pts, hhybrid, hf, hbytes, hplain⟩ := openWithKw_eq_ok.mp hopen
        rw [hparse hbytes, Except.ok.injEq] at hhead
        rw [hrecover hbytes] at hkw
        exact ⟨f, _, dek, pts, by rw [hnamed, hhead], .recipient hhybrid hkw, hf, hbytes, hplain⟩
      next => exact absurd hopen throw_ne_ok
  · rintro ⟨f, key, dek, pts, hnamed, hkey, hf, hbytes, hplain⟩
    refine ⟨f.head, hparse hbytes, (), requireObjectIdentity_eq_ok.mpr hnamed, ?_⟩
    cases hkey with
    | root kemId kemWrap =>
      rw [if_pos kemId, ofCrypto_eq_ok]
      exact openObject_eq_ok.mpr ⟨pts, ⟨f, dek, kemId, kemWrap, hf, hbytes⟩, hplain⟩
    | recipient kemId recovered =>
      rw [if_neg (by rw [kemId]; decide), if_pos kemId]
      simp only [bind_eq_ok, ofCrypto_eq_ok]
      exact ⟨key, by rw [hrecover hbytes]; exact recovered,
        openWithKw_eq_ok.mpr ⟨f, dek, pts, kemId, hf, hbytes, hplain⟩⟩

theorem Vault.readObject_eq_ok {objectKey path : String} {object plaintext : Bytes}
    (hobject : view.get objectKey = .ok object) :
    v.readObject L view objectKey path = .ok plaintext ↔
      ∃ f dek metadata pts, v.Opens L view objectKey f dek metadata pts ∧ object = f.bytes ∧
        plaintext = pts.flatten := by
  simp only [readObject, hobject, bind_eq_ok, ofStore_eq_ok, Except.ok.injEq, exists_eq_left',
    openStored_eq_ok]
  constructor
  · rintro ⟨o, ⟨f, key, dek, pts, hnamed, hkey, hf, hbytes, hplain⟩, hhash⟩
    cases hmeta : o.metadata with
    | none =>
      rw [hmeta] at hhash hf
      simp only [pure_eq_ok] at hhash
      exact ⟨f, dek, none, pts, ⟨hnamed, ⟨key, hkey, hf⟩, by simp⟩, hbytes, by rw [← hhash, hplain]⟩
    | some m =>
      rw [hmeta] at hhash hf
      simp only [bind_eq_ok, reject_eq_ok, pure_eq_ok, ne_eq, not_not] at hhash
      obtain ⟨_, hdigest, hhash⟩ := hhash
      exact ⟨f, dek, some m, pts, ⟨hnamed, ⟨key, hkey, hf⟩, by simpa [← hplain] using hdigest⟩,
        hbytes, by rw [← hhash, hplain]⟩
  · rintro ⟨f, dek, metadata, pts, ⟨hnamed, ⟨key, hkey, hf⟩, hhash⟩, hbytes, rfl⟩
    refine ⟨⟨metadata, pts.flatten⟩, ⟨f, key, dek, pts, hnamed, hkey, hf, hbytes, rfl⟩, ?_⟩
    cases metadata with
    | none => rfl
    | some m =>
      simp only [bind_eq_ok, reject_eq_ok, pure_eq_ok, ne_eq, not_not]
      exact ⟨(), hhash m rfl, trivial⟩

section Stored

variable {b : Backend} {ix : String → Except IndexError (Option Record)} {key path : String}
  {object : Bytes}

theorem fetchHeaderLoop_eq_ok (hobject : b[key]? = some object) {remaining want headerLen : Nat}
    {front : Bytes}
    (h : fetchHeaderLoop (b.view ix) key path remaining want = .ok (front, headerLen)) :
    ∃ n, front = object.take n ∧ headerExtent front = .ok (.complete headerLen) := by
  induction remaining generalizing want with
  | zero => cases h
  | succ remaining ih =>
    simp only [fetchHeaderLoop, Backend.view, bind_eq_ok, ofStore_eq_ok, ofCrypto_eq_ok,
      Backend.getRange_eq_ok hobject, drop_zero] at h
    obtain ⟨front', ⟨-, rfl⟩, extent, hextent, h⟩ := h
    cases extent with
    | complete len =>
      simp only [pure_eq_ok, Prod.mk.injEq] at h
      obtain ⟨rfl, rfl⟩ := h
      exact ⟨want, rfl, hextent⟩
    | short need =>
      simp only at h
      split at h
      · exact ih h
      · cases h

section

variable {h : Header} {payload : Bytes} (hobject : b[key]? = some (h.bytes ++ payload))
include hobject

theorem fetchHeaderLoop_complete (hk : h.KemMatches) (remaining : Nat) {want : Nat}
    (hwant : h.bytes.length ≤ want) : ∃ extra,
      fetchHeaderLoop (b.view ix) key path (remaining + 1) want =
        .ok (h.bytes ++ extra, h.bytes.length) := by
  refine ⟨payload.take (want - h.bytes.length), ?_⟩
  have htake : (h.bytes ++ payload).take want =
      h.bytes ++ payload.take (want - h.bytes.length) := by
    rw [take_append, take_of_length_le hwant]
  have hextent := headerExtent_eq_complete.mpr
    ⟨h, payload.take (want - h.bytes.length), rfl, hk, rfl⟩
  simp only [fetchHeaderLoop, Backend.view, bind_eq_ok, ofStore_eq_ok, ofCrypto_eq_ok,
    Backend.getRange_eq_ok hobject, drop_zero, htake]
  exact ⟨_, ⟨Nat.zero_le _, rfl⟩, _, hextent, rfl⟩

theorem fetchHeaderLoop_short (remaining : Nat) {want need : Nat}
    (hwant : want ≤ (h.bytes ++ payload).length)
    (hextent : headerExtent ((h.bytes ++ payload).take want) = .ok (.short need)) :
    fetchHeaderLoop (b.view ix) key path (remaining + 1) want =
      fetchHeaderLoop (b.view ix) key path remaining need := by
  have hget : b.getRange key 0 want = .ok ((h.bytes ++ payload).take want) :=
    (Backend.getRange_eq_ok hobject).mpr ⟨Nat.zero_le _, rfl⟩
  simp only [fetchHeaderLoop, Backend.view, hget, hextent, ofStore, ofCrypto, Except.mapError,
    ok_bind, length_take, Nat.min_eq_left hwant, Nat.le_refl, if_true]

theorem fetchHeader_isOk (hk : h.KemMatches) : ∃ extra,
      fetchHeader (b.view ix) key path = .ok (h.bytes ++ extra, h.bytes.length) := by
  have hlen : h.bytes.length ≤ (h.bytes ++ payload).length := by simp
  have hheader := h.length_bytes
  have hmeta := h.metaBlob_len
  simp only [metaMinLen] at hmeta
  unfold fetchHeader
  simp only [maxHeaderProbes, objectHeaderProbeLen]
  by_cases hsmall : h.bytes.length ≤ 4096
  · exact fetchHeaderLoop_complete hobject hk 2 hsmall
  · by_cases hwrap : 4096 < 146 + h.kemWrap.length
    · have hfirst : headerExtent ((h.bytes ++ payload).take 4096) =
          .ok (.short (146 + h.kemWrap.length)) := by
        rw [h.headerExtent_take hk payload (by omega), if_neg (by omega), if_pos hwrap]
      have hsecond : headerExtent ((h.bytes ++ payload).take (146 + h.kemWrap.length)) =
          .ok (.short h.bytes.length) := by
        rw [h.headerExtent_take hk payload (by omega), if_neg (by omega), if_neg (by omega),
          if_pos (by omega)]
      rw [fetchHeaderLoop_short hobject 2 (by omega) hfirst,
        fetchHeaderLoop_short hobject 1 (by omega) hsecond]
      exact fetchHeaderLoop_complete hobject hk 0 (Nat.le_refl _)
    · have hfirst : headerExtent ((h.bytes ++ payload).take 4096) =
          .ok (.short h.bytes.length) := by
        rw [h.headerExtent_take hk payload (by omega), if_neg (by omega), if_neg hwrap,
          if_pos (by omega)]
      rw [fetchHeaderLoop_short hobject 2 (by omega) hfirst]
      exact fetchHeaderLoop_complete hobject hk 1 (Nat.le_refl _)

end

theorem Vault.openRangeReader_eq_ok {raw : String} {r : RangeReader}
    (hpath : Path.normalize L.toUnicode raw = .ok path)
    (hkey : v.resolve L (b.view ix) path = .ok key) (hobject : b[key]? = some object) :
    v.openRangeReader L (b.view ix) raw = .ok r ↔
      ∃ (h : Header) (payload : Bytes) (wrappingKey : Key), object = h.bytes ++ payload ∧
        namedFileId key = some h.head.fileId ∧ v.KeyOf L (b.view ix) h wrappingKey ∧
        h.Opens L.toPrimitives wrappingKey r.header.dek r.header.metadata ∧ r.Reads b h payload ∧
        r.key = key ∧ r.path = path := by
  simp only [openRangeReader, hpath, hkey, bind_eq_ok, ofCrypto_eq_ok, Except.ok.injEq,
    exists_eq_left', Prod.exists]
  constructor
  · rintro ⟨front, headerLen, hfetch, head, hhead, _, hid, hopen⟩
    obtain ⟨n, rfl, hextent⟩ := fetchHeaderLoop_eq_ok hobject hfetch
    obtain ⟨h, extra, hfront, hk, rfl⟩ := headerExtent_eq_complete.mp hextent
    have hparse := h.head_valid.parseHead (le 2 h.kemWrap.length ++ (h.kemWrap ++
      (h.wrappedDek.bytes ++ (le 4 h.metaBlob.length ++ (h.metaBlob ++ extra)))))
    rw [← h.bytes_append, ← hfront, hhead, Except.ok.injEq] at hparse
    subst hparse
    have hnamed := requireObjectIdentity_eq_ok.mp hid
    have hobjectBytes : object = h.bytes ++ (extra ++ object.drop n) := by
      rw [← append_assoc, ← hfront, take_append_drop]
    rw [hfront, take_left] at hopen
    split at hopen
    next hkem =>
      simp only [bind_eq_ok, ofCrypto_eq_ok, RangeHeader.openRoot,
        Header.decode_bytes_eq_ok hk, pure_eq_ok] at hopen
      obtain ⟨header, ⟨hnone, hopens, hhd, hhb, hps⟩, rfl⟩ := hopen
      exact ⟨h, _, v.rootKey, hobjectBytes, hnamed, .root hnone (hk.none hnone), hopens,
        ⟨hobject.trans (congrArg some hobjectBytes), hhd, hhb, hps, rfl⟩, rfl, rfl⟩
    next =>
      split at hopen
      next hkem =>
        simp only [bind_eq_ok, ofCrypto_eq_ok, RangeHeader.openWithKw,
          Header.decode_bytes_eq_ok hk, pure_eq_ok] at hopen
        obtain ⟨kw, hkw, header, ⟨hhybrid, hopens, hhd, hhb, hps⟩, rfl⟩ := hopen
        rw [v.recoverObjectKw_append] at hkw
        exact ⟨h, _, kw, hobjectBytes, hnamed, .recipient hhybrid hkw, hopens,
          ⟨hobject.trans (congrArg some hobjectBytes), hhd, hhb, hps, rfl⟩, rfl, rfl⟩
      next => exact absurd hopen throw_ne_ok
  · rintro ⟨h, payload, wrappingKey, rfl, hnamed, hkeyOf, hopens, hreads, rfl, rfl⟩
    have hk := hkeyOf.kemMatches
    obtain ⟨extra, hfetch⟩ := @fetchHeader_isOk b ix r.key r.path _ _ hobject hk
    have hparse := h.head_valid.parseHead (le 2 h.kemWrap.length ++ (h.kemWrap ++
      (h.wrappedDek.bytes ++ (le 4 h.metaBlob.length ++ (h.metaBlob ++ extra)))))
    rw [← h.bytes_append] at hparse
    refine ⟨_, _, hfetch, h.head, hparse, (), requireObjectIdentity_eq_ok.mpr hnamed, ?_⟩
    have hreader : ({ key := r.key, header := r.header, headerBytes := h.bytes, path := r.path } :
        RangeReader) = r := by
      rw [← hreads.headerBytes]
    rw [take_left]
    cases hkeyOf with
    | root kemId kemWrap =>
      rw [if_pos kemId]
      simp only [bind_eq_ok, ofCrypto_eq_ok, pure_eq_ok]
      exact ⟨r.header, (Header.decode_bytes_eq_ok hk).mpr ⟨kemId, hopens, hreads.head,
        hreads.headBytes, hreads.payloadStart⟩, hreader⟩
    | recipient kemId recovered =>
      rw [if_neg (by rw [kemId]; decide), if_pos kemId, v.recoverObjectKw_append]
      simp only [bind_eq_ok, ofCrypto_eq_ok, pure_eq_ok]
      exact ⟨wrappingKey, recovered, r.header, (Header.decode_bytes_eq_ok hk).mpr ⟨kemId, hopens,
        hreads.head, hreads.headBytes, hreads.payloadStart⟩, hreader⟩

end Stored

end Dctl.Core
