import Dctl.ProofKit.Text
import Dctl.Crypto.Basic

/-! The metadata of a DSF1 object (`object/meta.rs`), the plaintext of its metadata block: fixed
fields, then path, content type and extension, each after its 16-bit length.  The parser accepts
exactly what the builder writes for metadata without an empty content type. -/

namespace Dctl.Object

open ProofKit Crypto List

structure Metadata where
  flags : UInt8
  mtimeUnix : Int64
  birthtimeUnix : Int64
  size : UInt64
  contentBlake3 : Digest
  metadataGen : UInt64
  mode : UInt32
  pathHint : String
  contentType : Option String
  ext : Bytes
  deriving DecidableEq

namespace Metadata

def new (pathHint : String) : Metadata where
  flags := 0
  mtimeUnix := 0
  birthtimeUnix := 0
  size := 0
  contentBlake3 := Block.replicate 32 0
  metadataGen := 0
  mode := 0
  pathHint := pathHint
  contentType := none
  ext := []

def withMtime (m : Metadata) (unix : Option Int64) : Metadata :=
  match unix with
  | some seconds => { m with mtimeUnix := seconds }
  | none => m

def recordedMtime (m : Metadata) : Option Int64 :=
  if m.mtimeUnix = 0 then none else some m.mtimeUnix

def isTombstone (m : Metadata) : Bool := m.flags &&& metaFlagTombstone ≠ 0

def contentTypeBytes (m : Metadata) : Bytes := utf8 (m.contentType.getD "")

/-- The layout: the fixed fields, then the three length-prefixed ones. -/
def encode (m : Metadata) : Bytes :=
  [metaSchemaV1, m.flags] ++ le 8 m.mtimeUnix.toUInt64.toNat ++
    le 8 m.birthtimeUnix.toUInt64.toNat ++ le 8 m.size.toNat ++ m.contentBlake3.bytes ++
    le 8 m.metadataGen.toNat ++ le 4 m.mode.toNat ++
    le 2 (utf8 m.pathHint).length ++ utf8 m.pathHint ++
    le 2 m.contentTypeBytes.length ++ m.contentTypeBytes ++ le 2 m.ext.length ++ m.ext

structure Buildable (m : Metadata) : Prop where
  path : m.isTombstone = true ∨ m.pathHint ≠ ""
  path_le : (utf8 m.pathHint).length ≤ 65535
  contentType_le : m.contentTypeBytes.length ≤ 65535
  ext_le : m.ext.length ≤ 65535

def filled (m : Metadata) (size : UInt64) (contentBlake3 : Digest) : Metadata :=
  { m with size, contentBlake3 }

def readBack (m : Metadata) : Metadata :=
  { m with contentType := if m.contentType = some "" then none else m.contentType }

end Metadata

def buildMetadata (m : Metadata) : Except CryptoError Bytes := do
  let path := utf8 m.pathHint
  reject (m.isTombstone = false ∧ path = [])
    (.format "path_hint required for non-tombstone object")
  reject (65535 < path.length) (.format "path_hint too long")
  reject (65535 < m.contentTypeBytes.length) (.format "content_type too long")
  reject (65535 < m.ext.length) (.format "ext too long")
  pure m.encode

def contentTypeAt (bytes : Bytes) (start len : Nat) : Except CryptoError (Option String) :=
  if len = 0 then pure none
  else do
    let contentType ← okOr (.format "content_type not UTF-8")
      (fromUtf8 ((bytes.drop start).take len))
    pure (some contentType)

/-- Parse metadata plaintext.  The `checked_add` on each start and 16-bit length cannot overflow a
64-bit `usize`. -/
def parseMetadata (bytes : Bytes) : Except CryptoError Metadata := do
  reject (bytes.length < metaMinPlaintextLen) (.format "metadata too short")
  reject (byteAt bytes 0 ≠ metaSchemaV1) (.format "unexpected metadata schema_version")
  let pathLen := leAt bytes 70 2
  let pEnd := 72 + pathLen
  reject (bytes.length < pEnd + 2) (.format "metadata truncated (ct_len)")
  let pathHint ← okOr (.format "path_hint not UTF-8") (fromUtf8 ((bytes.drop 72).take pathLen))
  let ctLen := leAt bytes pEnd 2
  let ctEnd := pEnd + 2 + ctLen
  reject (bytes.length < ctEnd + 2) (.format "metadata truncated (ext_len)")
  let contentType ← contentTypeAt bytes (pEnd + 2) ctLen
  let extLen := leAt bytes ctEnd 2
  let extEnd := ctEnd + 2 + extLen
  reject (extEnd ≠ bytes.length) (.format "metadata length != 76 + P + T + E")
  let md : Metadata :=
    { flags := byteAt bytes 1
      mtimeUnix := (UInt64.ofNat (leAt bytes 2 8)).toInt64
      birthtimeUnix := (UInt64.ofNat (leAt bytes 10 8)).toInt64
      size := UInt64.ofNat (leAt bytes 18 8)
      contentBlake3 := Block.slice 32 bytes 26
      metadataGen := UInt64.ofNat (leAt bytes 58 8)
      mode := UInt32.ofNat (leAt bytes 66 4)
      pathHint, contentType
      ext := (bytes.drop (ctEnd + 2)).take extLen }
  reject (md.isTombstone = false ∧ md.pathHint = "")
    (.format "path_hint required for non-tombstone object")
  pure md

namespace Metadata

theorem length_encode (m : Metadata) : m.encode.length =
    76 + (utf8 m.pathHint).length + m.contentTypeBytes.length + m.ext.length := by
  simp [encode]
  omega

@[simp] theorem contentTypeBytes_readBack (m : Metadata) :
    m.readBack.contentTypeBytes = m.contentTypeBytes := by
  by_cases h : m.contentType = some "" <;> simp [readBack, contentTypeBytes, h]

theorem encode_readBack (m : Metadata) : m.readBack.encode = m.encode := by
  simp only [encode, contentTypeBytes_readBack]
  rfl

theorem contentType_readBack_ne (m : Metadata) : m.readBack.contentType ≠ some "" := by
  by_cases h : m.contentType = some "" <;> simp [readBack, h]

theorem Buildable.readBack {m : Metadata} (h : m.Buildable) : m.readBack.Buildable :=
  ⟨h.path, h.path_le, by simpa using h.contentType_le, h.ext_le⟩

theorem Buildable.filled {m : Metadata} (h : m.Buildable) (size : UInt64) (digest : Digest) :
    (m.filled size digest).Buildable :=
  ⟨h.path, h.path_le, h.contentType_le, h.ext_le⟩

end Metadata

variable {bytes : Bytes} {m : Metadata}

theorem buildMetadata_eq_ok : buildMetadata m = .ok bytes ↔ m.Buildable ∧ m.encode = bytes := by
  simp only [buildMetadata, bind_eq_ok, reject_eq_ok, pure_eq_ok, not_lt, not_and, utf8_eq_nil]
  constructor
  · rintro ⟨_, hpath, _, hpl, _, hct, _, hext, rfl⟩
    refine ⟨⟨?_, hpl, hct, hext⟩, rfl⟩
    cases htomb : m.isTombstone
    · exact .inr (hpath htomb)
    · exact .inl rfl
  · rintro ⟨hm, rfl⟩
    refine ⟨(), ?_, (), hm.path_le, (), hm.contentType_le, (), hm.ext_le, rfl⟩
    intro htomb
    simpa [htomb] using hm.path

theorem contentTypeAt_eq_ok {start len : Nat} {ct : Option String}
    (h : start + len ≤ bytes.length) :
    contentTypeAt bytes start len = .ok ct ↔
      (bytes.drop start).take len = utf8 (ct.getD "") ∧ ct ≠ some "" := by
  have hlen : ((bytes.drop start).take len).length = len := by simp; omega
  by_cases h0 : len = 0
  · subst h0
    cases ct with
    | none => simp [contentTypeAt]
    | some s =>
      have hnil : [] = utf8 s ↔ s = "" := by rw [eq_comm, utf8_eq_nil]
      simp [contentTypeAt, hnil]
  · have hne : (bytes.drop start).take len ≠ [] := by
      intro hnil
      rw [hnil] at hlen
      exact h0 hlen.symm
    simp only [contentTypeAt, h0, if_false, bind_eq_ok, okOr_eq_ok, fromUtf8_eq_some, pure_eq_ok]
    cases ct with
    | none => simp [hne]
    | some s =>
      constructor
      · rintro ⟨a, ha, hs⟩
        cases hs
        refine ⟨ha.symm, ?_⟩
        rintro hs
        cases hs
        exact hne (by simpa using ha.symm)
      · rintro ⟨ha, -⟩
        exact ⟨s, ha.symm, rfl⟩

theorem eq_encode {pathLen ctLen extLen : Nat} (hschema : byteAt bytes 0 = metaSchemaV1)
    (hflags : byteAt bytes 1 = m.flags) (hmtime : leAt bytes 2 8 = m.mtimeUnix.toUInt64.toNat)
    (hbirth : leAt bytes 10 8 = m.birthtimeUnix.toUInt64.toNat)
    (hsize : leAt bytes 18 8 = m.size.toNat) (hhash : Block.slice 32 bytes 26 = m.contentBlake3)
    (hgen : leAt bytes 58 8 = m.metadataGen.toNat) (hmode : leAt bytes 66 4 = m.mode.toNat)
    (hpathLen : leAt bytes 70 2 = pathLen) (hpath : (bytes.drop 72).take pathLen = utf8 m.pathHint)
    (hctLen : leAt bytes (72 + pathLen) 2 = ctLen)
    (hct : (bytes.drop (72 + pathLen + 2)).take ctLen = m.contentTypeBytes)
    (hextLen : leAt bytes (72 + pathLen + 2 + ctLen) 2 = extLen)
    (hext : (bytes.drop (72 + pathLen + 2 + ctLen + 2)).take extLen = m.ext)
    (hlen : bytes.length = 76 + pathLen + ctLen + extLen) : bytes = m.encode := by
  have hp : (utf8 m.pathHint).length = pathLen := by rw [← hpath]; simp; omega
  have hc : m.contentTypeBytes.length = ctLen := by rw [← hct]; simp; omega
  have he : m.ext.length = extLen := by rw [← hext]; simp; omega
  conv_lhs =>
    rw [← drop_zero (l := bytes), drop_eq_byteAt_cons (by omega), hschema,
      drop_eq_byteAt_cons (by omega), hflags,
      drop_eq_le_append (i := 2) 8 (by omega), hmtime,
      drop_eq_le_append (i := 10) 8 (by omega), hbirth,
      drop_eq_le_append (i := 18) 8 (by omega), hsize,
      Block.drop_eq_slice_append (i := 26) 32 (by omega), hhash,
      drop_eq_le_append (i := 58) 8 (by omega), hgen,
      drop_eq_le_append (i := 66) 4 (by omega), hmode,
      drop_eq_le_append (i := 70) 2 (by omega), hpathLen,
      drop_eq_take_append hpath,
      drop_eq_le_append (i := 72 + pathLen) 2 (by omega), hctLen,
      drop_eq_take_append hct,
      drop_eq_le_append (i := 72 + pathLen + 2 + ctLen) 2 (by omega), hextLen,
      drop_eq_take_append hext,
      drop_of_length_le (by omega)]
  simp [Metadata.encode, hp, hc, he]

theorem parseMetadata_encode (hm : m.Buildable) (hne : m.contentType ≠ some "") :
    parseMetadata m.encode = .ok m := by
  have hp := hm.path_le
  have hc := hm.contentType_le
  have he := hm.ext_le
  have hlen := m.length_encode
  generalize hb : m.encode = bytes at hlen ⊢
  have h72 : bytes.drop 72 = utf8 m.pathHint ++ (le 2 m.contentTypeBytes.length ++
      (m.contentTypeBytes ++ (le 2 m.ext.length ++ m.ext))) := by
    simp [← hb, Metadata.encode, drop_append]
  generalize hpLen : (utf8 m.pathHint).length = p at *
  generalize hcLen : m.contentTypeBytes.length = c at *
  generalize heLen : m.ext.length = e at *
  have hctLen : bytes.drop (72 + p) = le 2 c ++ (m.contentTypeBytes ++ (le 2 e ++ m.ext)) := by
    rw [← drop_drop, h72, drop_left' hpLen]
  have hct : bytes.drop (72 + p + 2) = m.contentTypeBytes ++ (le 2 e ++ m.ext) := by
    rw [← drop_drop, hctLen, drop_left' (length_le 2 c)]
  have hextLen : bytes.drop (72 + p + 2 + c) = le 2 e ++ m.ext := by
    rw [← drop_drop, hct, drop_left' hcLen]
  have hext : bytes.drop (72 + p + 2 + c + 2) = m.ext := by
    rw [← drop_drop, hextLen, drop_left' (length_le 2 e)]
  have hschema : byteAt bytes 0 = metaSchemaV1 := by rw [← hb]; rfl
  have hflags : byteAt bytes 1 = m.flags := by rw [← hb]; rfl
  have hmtime : leAt bytes 2 8 = m.mtimeUnix.toUInt64.toNat :=
    leAt_eq (by simp [← hb, Metadata.encode]; rfl) m.mtimeUnix.toUInt64.toNat_lt
  have hbirth : leAt bytes 10 8 = m.birthtimeUnix.toUInt64.toNat :=
    leAt_eq (by simp [← hb, Metadata.encode]; rfl) m.birthtimeUnix.toUInt64.toNat_lt
  have hsize : leAt bytes 18 8 = m.size.toNat :=
    leAt_eq (by simp [← hb, Metadata.encode]; rfl) m.size.toNat_lt
  have hhash : Block.slice 32 bytes 26 = m.contentBlake3 :=
    Block.slice_eq (by simp [← hb, Metadata.encode]; rfl)
  have hgen : leAt bytes 58 8 = m.metadataGen.toNat :=
    leAt_eq (by simp [← hb, Metadata.encode, drop_append]; rfl) m.metadataGen.toNat_lt
  have hmode : leAt bytes 66 4 = m.mode.toNat :=
    leAt_eq (by simp [← hb, Metadata.encode, drop_append]; rfl) m.mode.toNat_lt
  have hpathLen : leAt bytes 70 2 = p :=
    leAt_eq (by simp [← hb, Metadata.encode, drop_append, hpLen]; rfl) (by omega)
  have hcl : leAt bytes (72 + p) 2 = c := leAt_eq hctLen (by omega)
  have hel : leAt bytes (72 + p + 2 + c) 2 = e := leAt_eq hextLen (by omega)
  simp only [parseMetadata, bind_eq_ok, reject_eq_ok, okOr_eq_ok, pure_eq_ok, not_lt, ne_eq,
    not_not, hschema, hflags, hmtime, hbirth, hsize, hhash, hgen, hmode, hpathLen, hcl, hel,
    UInt64.ofNat_toNat, UInt32.ofNat_toNat, Int64.toInt64_toUInt64, hext, h72, metaMinPlaintextLen,
    take_of_length_le (show m.ext.length ≤ e by omega)]
  refine ⟨(), by omega, (), trivial, (), by omega, m.pathHint, ?_, (), by omega, m.contentType, ?_,
    (), by omega, (), ?_, rfl⟩
  · rw [take_left' hpLen, fromUtf8_utf8]
  · rw [contentTypeAt_eq_ok (by omega), hct, take_left' hcLen]
    exact ⟨rfl, hne⟩
  · simpa [or_iff_not_imp_left] using hm.path

theorem parseMetadata_eq_ok :
    parseMetadata bytes = .ok m ↔ buildMetadata m = .ok bytes ∧ m.contentType ≠ some "" := by
  constructor
  · intro h
    simp only [parseMetadata, bind_eq_ok, reject_eq_ok, okOr_eq_ok, pure_eq_ok, not_lt, ne_eq,
      not_not, fromUtf8_eq_some] at h
    obtain ⟨_, hmin, _, hschema, _, hpEnd, path, hpath, _, hctEnd, ct, hct, _, hlen, _, htomb,
      rfl⟩ := h
    rw [contentTypeAt_eq_ok (by omega)] at hct
    have hp := leAt_lt bytes 70 2
    have hc := leAt_lt bytes (72 + leAt bytes 70 2) 2
    have he := leAt_lt bytes (72 + leAt bytes 70 2 + 2 + leAt bytes (72 + leAt bytes 70 2) 2) 2
    have hpathLen := congrArg List.length hpath
    have hctLen := congrArg List.length hct.1
    simp only [length_take, length_drop] at hpathLen hctLen
    refine ⟨buildMetadata_eq_ok.mpr ⟨⟨?_, ?_, ?_, ?_⟩, ?_⟩, hct.2⟩
    · simpa [Metadata.isTombstone, or_iff_not_imp_left] using htomb
    · simp only [hpathLen]
      omega
    · simp only [Metadata.contentTypeBytes, ← hctLen]
      omega
    · simp only [length_take]
      omega
    · symm
      exact eq_encode hschema rfl (by rw [UInt64.toUInt64_toInt64, toNat_ofNat_leAt8])
        (by rw [UInt64.toUInt64_toInt64, toNat_ofNat_leAt8]) (toNat_ofNat_leAt8 _ _).symm rfl
        (toNat_ofNat_leAt8 _ _).symm (toNat_ofNat_leAt4 _ _).symm rfl hpath.symm rfl hct.1 rfl rfl
        (by omega)
  · rintro ⟨hbuild, hne⟩
    obtain ⟨hm, rfl⟩ := buildMetadata_eq_ok.mp hbuild
    exact parseMetadata_encode hm hne

/-- The two directions of the codec: what is built reads back, up to an empty content type, and what
is read builds the bytes it was read from. -/
theorem metadata_codec (m : Metadata) (bytes : Bytes) :
    (buildMetadata m = .ok bytes → parseMetadata bytes = .ok m.readBack) ∧
      (parseMetadata bytes = .ok m → buildMetadata m = .ok bytes) := by
  refine ⟨fun hbuild => ?_, fun hparse => (parseMetadata_eq_ok.mp hparse).1⟩
  obtain ⟨hm, rfl⟩ := buildMetadata_eq_ok.mp hbuild
  rw [parseMetadata_eq_ok, buildMetadata_eq_ok]
  exact ⟨⟨hm.readBack, m.encode_readBack⟩, m.contentType_readBack_ne⟩

theorem metadata_codec_empty_content_type :
    parseMetadata { Metadata.new "a" with contentType := some "" }.encode =
        .ok (Metadata.new "a") ∧
      buildMetadata (Metadata.new "a") =
        .ok { Metadata.new "a" with contentType := some "" }.encode := by
  have hbuild : buildMetadata { Metadata.new "a" with contentType := some "" } =
      .ok { Metadata.new "a" with contentType := some "" }.encode := by
    rw [buildMetadata_eq_ok]
    exact ⟨⟨.inr (by decide), by decide, by decide, by decide⟩, rfl⟩
  have hread := (metadata_codec _ _).1 hbuild
  exact ⟨hread, (metadata_codec _ _).2 hread⟩

end Dctl.Object
