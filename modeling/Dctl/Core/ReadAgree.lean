import Dctl.Core.Readable

/-! The three reads of a path side by side: the buffered read, the streamed read and the scrub.  All
of them want an object that the vault opens; they differ on the bytes that may follow it. -/

namespace Dctl.Core

open ProofKit Crypto Index Object List

variable {L : Libraries} {v : Vault} {b : Backend}
  {ix : String → Except IndexError (Option Record)} {path : String}

/-- The size of a stored object is a `u64`. -/
def Backend.Sized (b : Backend) : Prop :=
  ∀ (key : String) (object : Bytes), b[key]? = some object → object.length < 2 ^ 64

/-- The path resolves to a stored object which begins with a frame that the vault opens and goes on
with `extra`. -/
def Vault.Holds (L : Libraries) (v : Vault) (b : Backend)
    (ix : String → Except IndexError (Option Record)) (path : String) (f : Frame) (pts : List Bytes)
    (extra : Bytes) : Prop :=
  ∃ normalized key dek metadata, Path.normalize L.toUnicode path = .ok normalized ∧
    v.resolve L (b.view ix) normalized = .ok key ∧ b[key]? = some (f.bytes ++ extra) ∧
    v.Opens L (b.view ix) key f dek metadata pts

variable {extra : Bytes} {f : Frame} {pts : List Bytes}

theorem Vault.Holds.length_extra {f' : Frame} {pts' : List Bytes} {extra' : Bytes}
    (h : v.Holds L b ix path f pts extra) (h' : v.Holds L b ix path f' pts' extra') :
    extra.length = extra'.length := by
  obtain ⟨p, key, dek, metadata, hp, hkey, hobject, hopens⟩ := h
  obtain ⟨p', key', dek', metadata', hp', hkey', hobject', hopens'⟩ := h'
  obtain rfl : p = p' := by rwa [hp, Except.ok.injEq] at hp'
  obtain rfl : key = key' := by rwa [hkey, Except.ok.injEq] at hkey'
  obtain ⟨wrappingKey, hkeyOf, hframe⟩ := hopens.frame
  obtain ⟨wrappingKey', hkeyOf', hframe'⟩ := hopens'.frame
  have hbytes : f.bytes ++ extra = f'.bytes ++ extra' := by
    rwa [hobject, Option.some.injEq] at hobject'
  have hframes := hframe.length_eq_of_append hframe' hkeyOf.kemMatches hkeyOf'.kemMatches hbytes
  have hlength := congrArg List.length hbytes
  rw [length_append, length_append] at hlength
  omega

theorem Vault.Holds.length_footer (h : v.Holds L b ix path f pts extra) :
    f.footer.length = if f.head.hasFooter then footerLen else 0 := by
  obtain ⟨_, _, _, _, -, -, -, hopens⟩ := h
  obtain ⟨_, -, hframe⟩ := hopens.frame
  exact hframe.length_footer

variable {object : Bytes} {normalized : String}

theorem Vault.holds_of_openObject {key : String} {o : Opened} {head : Head}
    (hp : Path.normalize L.toUnicode path = .ok normalized)
    (hkey : v.resolve L (b.view ix) normalized = .ok key)
    (hobject : b[key]? = some (object ++ extra))
    (hopen : openObject L.toPrimitives v.rootKey object = .ok o)
    (hhead : parseHead object = .ok head) (hnamed : namedFileId key = some head.fileId)
    (hhash : ∀ m ∈ o.metadata, L.hash o.plaintext = m.contentBlake3) :
    ∃ f pts, v.Holds L b ix path f pts extra ∧ f.head = head ∧ o.plaintext = pts.flatten := by
  obtain ⟨pts, ⟨f, dek, hnone, hwrap, hframe, rfl⟩, hplain⟩ := openObject_eq_ok.mp hopen
  rw [f.bytes_eq, Header.bytes_append, f.head_valid.parseHead, Except.ok.injEq] at hhead
  rw [← hhead] at hnamed
  rw [hplain] at hhash
  exact ⟨f, pts, ⟨normalized, key, dek, o.metadata, hp, hkey, hobject,
    ⟨hnamed, ⟨v.rootKey, .root hnone hwrap, hframe⟩, hhash⟩⟩, hhead, hplain⟩

theorem Vault.getFile_eq_ok {plaintext : Bytes} :
    v.getFile L (b.view ix) path = .ok plaintext ↔
      ∃ f pts, v.Holds L b ix path f pts [] ∧ plaintext = pts.flatten := by
  simp only [getFile, bind_eq_ok, ofCrypto_eq_ok, Holds, append_nil]
  constructor
  · rintro ⟨p, hp, key, hkey, hread⟩
    have hread' := hread
    simp only [readObject, bind_eq_ok, ofStore_eq_ok] at hread'
    obtain ⟨object, hobject, -⟩ := hread'
    obtain ⟨f, dek, metadata, pts, hopens, rfl, rfl⟩ := (readObject_eq_ok hobject).mp hread
    exact ⟨f, pts, ⟨p, key, dek, metadata, hp, hkey, Backend.get_eq_ok.mp hobject, hopens⟩, rfl⟩
  · rintro ⟨f, pts, ⟨p, key, dek, metadata, hp, hkey, hobject, hopens⟩, rfl⟩
    refine ⟨p, hp, key, hkey, ?_⟩
    exact (readObject_eq_ok (Backend.get_eq_ok.mpr hobject)).mpr ⟨f, dek, metadata, pts,
      hopens, rfl, rfl⟩

variable {r : RangeReader}

theorem Vault.openRangeReader_stored {key : String}
    (hp : Path.normalize L.toUnicode path = .ok normalized)
    (hkey : v.resolve L (b.view ix) normalized = .ok key)
    (h : v.openRangeReader L (b.view ix) path = .ok r) : ∃ object, b[key]? = some object := by
  simp only [openRangeReader, hp, hkey, bind_eq_ok, ofCrypto_eq_ok, Except.ok.injEq,
    exists_eq_left', fetchHeader, fetchHeaderLoop, ofStore_eq_ok] at h
  obtain ⟨_, ⟨_, hread, -⟩, -⟩ := h
  simp only [Backend.view, Backend.getRange, bind_eq_ok, Backend.get_eq_ok] at hread
  obtain ⟨object, hobject, -⟩ := hread
  exact ⟨object, hobject⟩

structure RangeReader.On (L : Libraries) (r : RangeReader) (v : Vault) (b : Backend)
    (ix : String → Except IndexError (Option Record)) (f : Frame) (pts : List Bytes)
      (extra : Bytes) :
    Prop where
  resolved : v.resolve L (b.view ix) r.path = .ok r.key
  reads : r.Reads b f.toHeader (f.chunks.flatten ++ f.footer ++ extra)
  opens : v.Opens L (b.view ix) r.key f r.header.dek r.header.metadata pts

theorem Vault.Holds.on (h : v.Holds L b ix path f pts extra) : ∃ r : RangeReader,
      Path.normalize L.toUnicode path = .ok r.path ∧ r.On L v b ix f pts extra := by
  obtain ⟨p, key, dek, metadata, hp, hkey, hobject, hopens⟩ := h
  let header : RangeHeader :=
    { head := f.head, headBytes := buildHead f.head, dek, metadata,
      payloadStart := f.toHeader.bytes.length }
  refine ⟨{ key, header, headerBytes := f.toHeader.bytes, path := p }, hp, hkey,
    ⟨?_, rfl, rfl, rfl, rfl⟩, hopens⟩
  rw [hobject, f.bytes_append_eq]

theorem RangeReader.On.holds (h : r.On L v b ix f pts extra)
    (hp : Path.normalize L.toUnicode path = .ok r.path) : v.Holds L b ix path f pts extra := by
  refine ⟨r.path, r.key, r.header.dek, r.header.metadata, hp, h.resolved, ?_, h.opens⟩
  rw [h.reads.stored, f.bytes_append_eq]

/-- A reader opens and then streams to the end exactly on an object that the vault opens, whatever
follows it. -/
theorem Vault.open_streamTo_eq_ok {σ : Type} {w : Writer σ} {out out' : σ} {streamed : Streamed}
    (hsize : b.Sized) (hp : Path.normalize L.toUnicode path = .ok normalized) :
    v.openRangeReader L (b.view ix) path = .ok r ∧
        r.streamTo L (b.view ix) normalized w out = .ok (streamed, out') ↔
      ∃ f pts extra, r.path = normalized ∧ r.On L v b ix f pts extra ∧
        (pts.foldlM w.write out).bind w.flush = some out' ∧
        streamed = { bytes := pts.flatten.length, plaintextHash := L.hash pts.flatten } := by
  constructor
  · rintro ⟨hopen, hstream⟩
    obtain ⟨key, hkey⟩ : ∃ key, v.resolve L (b.view ix) normalized = .ok key := by
      simp only [openRangeReader, hp, bind_eq_ok, ofCrypto_eq_ok, Except.ok.injEq,
        exists_eq_left'] at hopen
      obtain ⟨key, hkey, -⟩ := hopen
      exact ⟨key, hkey⟩
    obtain ⟨object, hobject⟩ := openRangeReader_stored hp hkey hopen
    obtain ⟨h, payload, wrappingKey, rfl, hnamed, hkeyOf, hopens, hreads, rfl, rfl⟩ :=
      (openRangeReader_eq_ok hp hkey hobject).mp hopen
    obtain ⟨cts, pts, footer, extra, hframe, rfl, hhash, hout, hstreamed⟩ :=
      (hreads.streamTo_eq_ok (hsize _ _ hobject) hopens).mp hstream
    exact ⟨frameOf h cts footer, pts, extra, rfl,
      ⟨hkey, hreads, ⟨hnamed, ⟨wrappingKey, hkeyOf, hframe⟩, hhash⟩⟩, hout, hstreamed⟩
  · rintro ⟨f, pts, extra, rfl, ⟨hkey, hreads, ⟨hnamed, ⟨wrappingKey, hkeyOf, hframe⟩, hhash⟩⟩,
      hout, hstreamed⟩
    have hobject := hreads.stored
    refine ⟨(openRangeReader_eq_ok hp hkey hobject).mpr ⟨f.toHeader, _, wrappingKey, rfl, hnamed,
      hkeyOf, hframe.toOpens, hreads, rfl, rfl⟩, ?_⟩
    exact (hreads.streamTo_eq_ok (hsize _ _ hobject) hframe.toOpens).mpr
      ⟨f.chunks, pts, f.footer, extra, hframe, rfl, hhash, hout, hstreamed⟩

theorem Vault.streamFileTo_eq_ok {σ : Type} {w : Writer σ} {out out' : σ} {streamed : Streamed}
    (hsize : b.Sized) :
    v.streamFileTo L (b.view ix) path w out = .ok (streamed, out') ↔
      ∃ f pts extra, v.Holds L b ix path f pts extra ∧
        (pts.foldlM w.write out).bind w.flush = some out' ∧
        streamed = { bytes := pts.flatten.length, plaintextHash := L.hash pts.flatten } := by
  simp only [streamFileTo, bind_eq_ok, ofCrypto_eq_ok]
  constructor
  · rintro ⟨p, hp, r, hread⟩
    obtain ⟨f, pts, extra, rfl, hon, hout, hstreamed⟩ :=
      (open_streamTo_eq_ok hsize (Path.normalize_normalized hp)).mp hread
    exact ⟨f, pts, extra, hon.holds hp, hout, hstreamed⟩
  · rintro ⟨f, pts, extra, hholds, hout, hstreamed⟩
    obtain ⟨r, hp, hon⟩ := hholds.on
    exact ⟨r.path, hp, r, (open_streamTo_eq_ok hsize (Path.normalize_normalized hp)).mpr
      ⟨f, pts, extra, rfl, hon, hout, hstreamed⟩⟩

theorem foldlM_vecWriter (pts : List Bytes) (out : Bytes) :
    (pts.foldlM vecWriter.write out).bind vecWriter.flush = some (out ++ pts.flatten) := by
  induction pts generalizing out with
  | nil => simp [vecWriter]
  | cons pt pts ih =>
    have h := ih (out ++ pt)
    simp only [foldlM_cons, vecWriter, vecSink, Option.bind_eq_bind, Option.bind_some,
      flatten_cons, append_assoc] at h ⊢
    exact h

theorem foldlM_sinkWriter (pts : List Bytes) :
    (pts.foldlM sinkWriter.write ()).bind sinkWriter.flush = some () := by
  induction pts with
  | nil => rfl
  | cons pt pts ih => exact ih

theorem RangeReader.On.confirmObjectLength_eq_ok (h : r.On L v b ix f pts extra) (hsize : b.Sized) :
    r.confirmObjectLength (b.view ix) = .ok () ↔ f.head.chunkCount = 0 ∨
      f.footer.length + extra.length = 0 ∨ f.footer.length + extra.length = footerLen := by
  obtain ⟨wrappingKey, -, hframe⟩ := h.opens.frame
  have hlen := hsize _ _ h.reads.stored
  have hchunks := ChunksOpen.length_flatten_done hframe.chunks
  have hhead :
      b.head r.key = .ok (f.toHeader.bytes ++ (f.chunks.flatten ++ f.footer ++ extra)).length := by
    simp [Backend.head, Backend.get_eq_ok.mpr h.reads.stored, pure, Except.pure]
  have hend := h.reads.payloadEnd_eq hlen (by simp only [length_append]; omega)
  have hheader := f.toHeader.length_bytes
  unfold confirmObjectLength
  rw [h.reads.head]
  split
  next hzero => simp [hzero]
  next hne =>
    simp only [hend, ok_bind, Backend.view, hhead, ofStore, Except.mapError, hne, false_or]
    simp only [length_append, footerLen] at hlen ⊢
    split
    next hfits =>
      simp only [pure, Except.pure, true_iff]
      omega
    next hover =>
      simp only [throw_ne_ok, false_iff]
      omega

theorem Vault.verifyFile_eq_ok
    (hsize : b.Sized) :
    v.verifyFile L (b.view ix) path = .ok () ↔
      ∃ f pts extra, v.Holds L b ix path f pts extra ∧ (f.head.chunkCount = 0 ∨
        f.footer.length + extra.length = 0 ∨ f.footer.length + extra.length = footerLen) := by
  simp only [verifyFile, bind_eq_ok, ofCrypto_eq_ok]
  constructor
  · rintro ⟨p, hp, r, hopen, _, hlength, ⟨streamed, _⟩, hstream, -⟩
    obtain ⟨f, pts, extra, rfl, hon, -, -⟩ :=
      (open_streamTo_eq_ok hsize (Path.normalize_normalized hp)).mp ⟨hopen, hstream⟩
    exact ⟨f, pts, extra, hon.holds hp, (hon.confirmObjectLength_eq_ok hsize).mp hlength⟩
  · rintro ⟨f, pts, extra, hholds, hlength⟩
    obtain ⟨r, hp, hon⟩ := hholds.on
    obtain ⟨hopen, hstream⟩ := (open_streamTo_eq_ok hsize (Path.normalize_normalized hp)).mpr
      ⟨f, pts, extra, rfl, hon, foldlM_sinkWriter pts, rfl⟩
    exact ⟨r.path, hp, r, hopen, (), (hon.confirmObjectLength_eq_ok hsize).mpr hlength,
      _, hstream, rfl⟩

def sampleVault : Vault where
  rootKey := default
  nameKeys := ⟨default, default⟩
  vaultId := default
  chunkSize := 2
  identity := ⟨default, default⟩
  imported := []

def sampleIndex (_ : String) : Except IndexError (Option Record) :=
  .ok (some
    { path := "a", objectKey := objectKeyOf default, size := 0, modifiedUnix := none,
      contentHash := [] })

def sampleBackend (object : Bytes) : Backend := (∅ : Backend).insert (objectKeyOf default) object

def emptyObject : Bytes :=
  match sealObject clearPrimitives default ⟨default, default, default, default, default⟩ []
    (Metadata.new "a") 2 with
  | .ok bytes => bytes
  | .error _ => []

theorem sampleBackend_sized (h : object.length < 2 ^ 64) : (sampleBackend object).Sized := by
  intro key stored hstored
  rw [sampleBackend, Std.ExtTreeMap.getElem?_insert] at hstored
  split at hstored
  · rw [Option.some.injEq] at hstored
    rwa [← hstored]
  · simp at hstored

theorem sampleVault_holds {object extra : Bytes} {o : Opened} {head : Head}
    (hopen : openObject clearPrimitives default object = .ok o)
    (hhead : parseHead object = .ok head) (hid : head.fileId = default)
    (hhash : ∀ m ∈ o.metadata, clearPrimitives.hash o.plaintext = m.contentBlake3) :
    ∃ f pts, sampleVault.Holds clearLibraries (sampleBackend (object ++ extra))
      sampleIndex "a" f pts
      extra ∧ f.head = head ∧ o.plaintext = pts.flatten := by
  have hp : Path.normalize clearLibraries.toUnicode "a" = .ok "a" := by decide
  apply Vault.holds_of_openObject hp rfl _ hopen hhead _ hhash
  · exact Std.ExtTreeMap.getElem?_insert_self
  · rw [namedFileId_objectKeyOf, hid]

def sampleHead (plaintextLen chunkCount : UInt64) : Head where
  algo := 1
  kemId := 0
  flags := 1
  chunkSize := 2
  plaintextLen := plaintextLen
  chunkCount := chunkCount
  baseNonce := default
  fileId := default

theorem samples_read :
    openObject clearPrimitives default emptyObject =
        .ok { metadata := some ((Metadata.new "a").filled 0 (clearPrimitives.hash [])),
              plaintext := [] } ∧
      parseHead emptyObject = .ok (sampleHead 0 0) ∧ parseHead sampleObject = .ok (sampleHead 3 2) ∧
      ∀ object ∈ [emptyObject ++ [0], sampleObject, sampleObject ++ [0]],
        object.length < 2 ^ 64 := by
  decide +kernel

theorem sampleBackend_sized_of_mem
    (h : object ∈ [emptyObject ++ [0], sampleObject, sampleObject ++ [0]]) :
    (sampleBackend object).Sized :=
  sampleBackend_sized (samples_read.2.2.2 object h)

theorem emptyObject_holds : ∃ f pts, sampleVault.Holds clearLibraries
    (sampleBackend (emptyObject ++ [0])) sampleIndex "a" f pts [0] ∧ f.head.chunkCount = 0 := by
  obtain ⟨hopen, hhead, -⟩ := samples_read
  obtain ⟨f, pts, hholds, hf, -⟩ := @sampleVault_holds emptyObject [0] _ _ hopen hhead rfl (by
    simp [Metadata.filled])
  exact ⟨f, pts, hholds, by rw [hf]; rfl⟩

theorem sampleObject_append_holds (extra : Bytes) : ∃ f pts,
    sampleVault.Holds clearLibraries (sampleBackend (sampleObject ++ extra)) sampleIndex "a" f pts
      extra ∧ [1, 2, 3] = pts.flatten := by
  obtain ⟨-, -, hhead, -⟩ := samples_read
  obtain ⟨f, pts, hholds, -, hplain⟩ := @sampleVault_holds sampleObject extra _ _
    openObject_sampleObject hhead rfl (by simp [sampleOpened, Metadata.filled])
  exact ⟨f, pts, hholds, hplain⟩

theorem sampleObject_holds : ∃ f pts, sampleVault.Holds clearLibraries (sampleBackend sampleObject)
    sampleIndex "a" f pts [] ∧ [1, 2, 3] = pts.flatten := by
  have hholds := sampleObject_append_holds []
  rwa [append_nil] at hholds

/-- There are bytes behind the object of the path. -/
def Vault.Trailing (L : Libraries) (v : Vault) (b : Backend)
    (ix : String → Except IndexError (Option Record)) (path : String) : Prop :=
  ∃ f pts extra, v.Holds L b ix path f pts extra ∧ extra ≠ []

/-- There are bytes behind the object of the path which its length does not show: it has no chunk,
or they stand in the place of a footer that the object does not declare. -/
def Vault.TrailingUnseen (L : Libraries) (v : Vault) (b : Backend)
    (ix : String → Except IndexError (Option Record)) (path : String) : Prop :=
  ∃ f pts extra, v.Holds L b ix path f pts extra ∧ extra ≠ [] ∧
    (f.head.chunkCount = 0 ∨ f.head.hasFooter = false ∧ extra.length = footerLen)

theorem Vault.Holds.getFile_eq_ok_iff (h : v.Holds L b ix path f pts extra) :
    (∃ plaintext, v.getFile L (b.view ix) path = .ok plaintext) ↔ extra = [] := by
  constructor
  · rintro ⟨plaintext, hget⟩
    obtain ⟨f', pts', h', -⟩ := getFile_eq_ok.mp hget
    exact length_eq_zero_iff.mp (h.length_extra h')
  · rintro rfl
    exact ⟨_, getFile_eq_ok.mpr ⟨f, pts, h, rfl⟩⟩

/-- The scrub passes an object that the buffered read refuses exactly when bytes stand behind it
that its length does not show. -/
theorem verifyFile_imp_getFile_iff (L : Libraries) (v : Vault) (b : Backend) (hsize : b.Sized)
    (ix : String → Except IndexError (Option Record)) (path : String) :
    (v.verifyFile L (b.view ix) path = .ok () →
        ∃ plaintext, v.getFile L (b.view ix) path = .ok plaintext) ↔
      ¬v.TrailingUnseen L b ix path := by
  rw [Vault.verifyFile_eq_ok hsize]
  constructor
  · rintro hagree ⟨f, pts, extra, hholds, hne, hunseen⟩
    have hfooter := hholds.length_footer
    refine hne (hholds.getFile_eq_ok_iff.mp (hagree ⟨f, pts, extra, hholds, ?_⟩))
    rcases hunseen with hzero | ⟨hnone, hlen⟩
    · exact .inl hzero
    · rw [hnone] at hfooter
      exact .inr (.inr (by rw [hfooter, hlen]; rfl))
  · rintro hseen ⟨f, pts, extra, hholds, hlength⟩
    have hfooter := hholds.length_footer
    refine hholds.getFile_eq_ok_iff.mpr (by_contra fun hne =>
      hseen ⟨f, pts, extra, hholds, hne, ?_⟩)
    have hpos := length_pos_iff.mpr hne
    rcases hlength with hzero | hnone | hlen
    · exact .inl hzero
    · omega
    · cases hflag : f.head.hasFooter with
      | true => rw [hflag] at hfooter; simp only [if_true] at hfooter; omega
      | false => rw [hflag] at hfooter; exact .inr ⟨rfl, by simpa [hfooter] using hlen⟩

theorem verifyFile_imp_getFile_sample :
    sampleVault.verifyFile clearLibraries ((sampleBackend sampleObject).view sampleIndex) "a" =
        .ok () ∧
      ∃ plaintext, sampleVault.getFile clearLibraries
        ((sampleBackend sampleObject).view sampleIndex)
        "a" = .ok plaintext := by
  obtain ⟨f, pts, hholds, -⟩ := sampleObject_holds
  have hsize := sampleBackend_sized_of_mem (mem_cons_of_mem _ mem_cons_self)
  have hverify :
      sampleVault.verifyFile clearLibraries ((sampleBackend sampleObject).view sampleIndex)
      "a" = .ok () := by
    refine (Vault.verifyFile_eq_ok hsize).mpr ⟨f, pts, [], hholds, .inr ?_⟩
    rw [hholds.length_footer]
    split <;> simp
  refine ⟨hverify, (verifyFile_imp_getFile_iff clearLibraries sampleVault _ hsize sampleIndex
    "a").mpr ?_ hverify⟩
  rintro ⟨f', pts', extra, hholds', hne, -⟩
  exact hne (length_eq_zero_iff.mp (hholds'.length_extra hholds))

/-- A byte behind a file without bytes: the scrub passes it, the read refuses it. -/
theorem verifyFile_passes_trailing_byte :
    sampleVault.verifyFile clearLibraries
        ((sampleBackend (emptyObject ++ [0])).view sampleIndex) "a" = .ok () ∧
      ¬∃ plaintext, sampleVault.getFile clearLibraries
        ((sampleBackend (emptyObject ++ [0])).view sampleIndex) "a" = .ok plaintext := by
  obtain ⟨f, pts, hholds, hzero⟩ := emptyObject_holds
  have hsize := sampleBackend_sized_of_mem mem_cons_self
  constructor
  · exact (Vault.verifyFile_eq_ok hsize).mpr ⟨f, pts, [0], hholds, .inl hzero⟩
  · rw [hholds.getFile_eq_ok_iff]
    decide

theorem Vault.getFileToPath_eq_ok {staging dest : String} {fs : Files} {plaintext : Bytes}
    {view : View} :
    (∃ streamed fs', v.getFileToPath L view path staging dest fs = (.ok streamed, fs') ∧
        fs'[dest]? = some plaintext) ↔
      ∃ streamed, v.streamFileTo L view path vecWriter [] = .ok (streamed, plaintext) := by
  unfold getFileToPath
  cases v.streamFileTo L view path vecWriter [] with
  | error e => simp
  | ok r =>
    obtain ⟨streamed, bytes⟩ := r
    simp

/-- The streamed read and the buffered read accept the same objects with the same plaintexts exactly
when nothing stands behind the object. -/
theorem streamFileTo_iff_getFile_iff (L : Libraries) (v : Vault) (b : Backend) (hsize : b.Sized)
    (ix : String → Except IndexError (Option Record)) (path : String) :
    (∀ plaintext,
        ((∃ streamed, v.streamFileTo L (b.view ix) path vecWriter [] = .ok (streamed, plaintext)) ↔
          v.getFile L (b.view ix) path = .ok plaintext) ∧
        ∀ staging dest fs,
          ((∃ streamed fs', v.getFileToPath L (b.view ix) path staging dest fs =
            (.ok streamed, fs') ∧
              fs'[dest]? = some plaintext) ↔
            v.getFile L (b.view ix) path = .ok plaintext)) ↔
      ¬v.Trailing L b ix path := by
  have hstream : ∀ plaintext,
      (∃ streamed, v.streamFileTo L (b.view ix) path vecWriter [] = .ok (streamed, plaintext)) ↔
        ∃ f pts extra, v.Holds L b ix path f pts extra ∧ plaintext = pts.flatten := by
    intro plaintext
    simp only [Vault.streamFileTo_eq_ok hsize, foldlM_vecWriter, nil_append, Option.some.injEq]
    constructor
    · rintro ⟨_, f, pts, extra, hholds, rfl, -⟩
      exact ⟨f, pts, extra, hholds, rfl⟩
    · rintro ⟨f, pts, extra, hholds, rfl⟩
      exact ⟨_, f, pts, extra, hholds, rfl, rfl⟩
  simp only [Vault.getFileToPath_eq_ok, hstream, forall_const, and_self]
  constructor
  · rintro hagree ⟨f, pts, extra, hholds, hne⟩
    exact hne (hholds.getFile_eq_ok_iff.mp ⟨_, (hagree _).mp ⟨f, pts, extra, hholds, rfl⟩⟩)
  · intro hclean plaintext
    rw [Vault.getFile_eq_ok]
    constructor
    · rintro ⟨f, pts, extra, hholds, rfl⟩
      by_cases hextra : extra = []
      · rw [hextra] at hholds
        exact ⟨f, pts, hholds, rfl⟩
      · exact absurd ⟨f, pts, extra, hholds, hextra⟩ hclean
    · rintro ⟨f, pts, hholds, rfl⟩
      exact ⟨f, pts, [], hholds, rfl⟩

theorem streamFileTo_iff_getFile_sample :
    (∃ streamed, sampleVault.streamFileTo clearLibraries
        ((sampleBackend sampleObject).view sampleIndex) "a" vecWriter [] =
          .ok (streamed, [1, 2, 3])) ∧
      sampleVault.getFile clearLibraries ((sampleBackend sampleObject).view sampleIndex) "a" =
        .ok [1, 2, 3] := by
  obtain ⟨f, pts, hholds, hplain⟩ := sampleObject_holds
  have hget := Vault.getFile_eq_ok.mpr ⟨f, pts, hholds, hplain⟩
  have hsize := sampleBackend_sized_of_mem (mem_cons_of_mem _ mem_cons_self)
  refine ⟨((streamFileTo_iff_getFile_iff clearLibraries sampleVault _ hsize sampleIndex
    "a").mpr ?_ [1, 2, 3]).1.mpr hget, hget⟩
  rintro ⟨f', pts', extra, hholds', hne⟩
  exact hne (length_eq_zero_iff.mp (hholds'.length_extra hholds))

/-- A byte behind a file of three bytes: the streamed read delivers the file, the buffered read
refuses it. -/
theorem streamFileTo_delivers_trailing_byte :
    (∃ streamed, sampleVault.streamFileTo clearLibraries
        ((sampleBackend (sampleObject ++ [0])).view sampleIndex) "a" vecWriter [] =
          .ok (streamed, [1, 2, 3])) ∧
      ¬∃ plaintext, sampleVault.getFile clearLibraries
        ((sampleBackend (sampleObject ++ [0])).view sampleIndex) "a" = .ok plaintext := by
  obtain ⟨f, pts, hholds, hplain⟩ := sampleObject_append_holds [0]
  have hsize := sampleBackend_sized_of_mem
    (mem_cons_of_mem _ (mem_cons_of_mem _ mem_cons_self))
  constructor
  · refine ⟨_, (Vault.streamFileTo_eq_ok hsize).mpr ⟨f, pts, [0], hholds, ?_, rfl⟩⟩
    rw [foldlM_vecWriter, ← hplain, nil_append]
  · rw [hholds.getFile_eq_ok_iff]
    decide

end Dctl.Core
