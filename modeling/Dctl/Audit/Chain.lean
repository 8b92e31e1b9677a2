import Dctl.Crypto.Basic
import Dctl.Audit.Record

/-! The hash chain of the audit log (`audit/chain.rs`): the string that a record's hash covers, and
the walk that checks a log.  A log that verifies is fixed by its head and its length, as far as the
canonical strings of its records cover them. -/

namespace Dctl.Audit

open ProofKit Crypto List

def fieldPrev : String := "prev"
def fieldHash : String := "hash"

def legacyFields (record : AuditRecord) : List String :=
  [record.prev, record.index.toNat.repr, record.time, record.op, record.result, record.path,
    record.size.toNat.repr, record.plaintextHash, record.ciphertextHash, record.remote]

def canonicalFields (record : AuditRecord) : List String :=
  if record.version = auditRecordVersionLegacy then legacyFields record
  else record.version.toNat.repr :: (legacyFields record ++
    [record.direction, record.bytes.toNat.repr, record.objects.toNat.repr])

def canonical (record : AuditRecord) : String :=
  (String.singleton auditHashFieldSeparator).intercalate (canonicalFields record)

variable (blake3 : Bytes → Digest)

def computeHash (record : AuditRecord) : String :=
  hexEncode (blake3 (utf8 (canonical record))).bytes

def sealEntry (entry : Entry) (index : UInt64) (previous : String) : AuditRecord :=
  let record : AuditRecord :=
    { v := some auditRecordVersion, index, time := entry.time.text, op := entry.op.text,
      result := entry.result.text, direction := entry.direction.text, path := entry.path.text,
      size := entry.size, bytes := entry.bytes, objects := entry.objects,
      plaintextHash := entry.plaintextHash.text, ciphertextHash := entry.ciphertextHash.text,
      remote := entry.remote.text, prev := previous, hash := "" }
  { record with hash := computeHash blake3 record }

inductive BreakKind where
  | malformedHash (field value : String)
  | unsupportedVersion (version supported : UInt32)
  | indexDiscontinuity (expected found : UInt64)
  | brokenLink (expected found : String)
  | contentMismatch (expected found : String)
  deriving DecidableEq

/-- `Break`. -/
structure ChainBreak where
  position : Nat
  line : Nat
  claimedIndex : UInt64
  kind : BreakKind
  deriving DecidableEq

structure Verified where
  records : Nat
  head : String
  deriving DecidableEq

def foldCase (s : String) : List Char := s.toList.map Char.toLower

/-- `s` and `t` are the same up to the case of ASCII letters. -/
def eqIgnoreAsciiCase (s t : String) : Prop := foldCase s = foldCase t

instance (s t : String) : Decidable (eqIgnoreAsciiCase s t) := inferInstanceAs (Decidable (_ = _))

def checkRecord (position : Nat) (previous : String) (record : AuditRecord) :
    Except ChainBreak Unit := do
  let at_ (kind : BreakKind) : ChainBreak :=
    { position, line := position + 1, claimedIndex := record.index, kind }
  reject (isWellFormedHash record.prev = false) (at_ (.malformedHash fieldPrev record.prev))
  reject (isWellFormedHash record.hash = false) (at_ (.malformedHash fieldHash record.hash))
  reject (record.isSupportedVersion = false)
    (at_ (.unsupportedVersion record.version auditRecordVersion))
  -- The first index is zero, so the saturating addition to it is the position itself.
  reject (record.index ≠ UInt64.ofNat position)
    (at_ (.indexDiscontinuity (UInt64.ofNat position) record.index))
  reject (¬eqIgnoreAsciiCase record.prev previous) (at_ (.brokenLink previous record.prev))
  reject (¬eqIgnoreAsciiCase record.hash (computeHash blake3 record))
    (at_ (.contentMismatch (computeHash blake3 record) record.hash))

/-- The loop of `verify`.  It ends with the hash of the last record. -/
def verifyFrom (position : Nat) (previous : String) : List AuditRecord → Except ChainBreak String
  | [] => .ok previous
  | record :: rest => do
    checkRecord blake3 position previous record
    verifyFrom (position + 1) record.hash rest

def verify (records : List AuditRecord) : Except ChainBreak Verified := do
  let head ← verifyFrom blake3 0 auditChainGenesisPrev records
  pure { records := records.length, head }

def AuditRecord.strings (record : AuditRecord) : List String :=
  [record.time, record.op, record.result, record.direction, record.path, record.plaintextHash,
    record.ciphertextHash, record.remote]

/-- No text of the record holds the separator of the canonical bytes. -/
def AuditRecord.Clean (record : AuditRecord) : Prop := ∀ s ∈ record.strings, Separate s

instance (record : AuditRecord) : Decidable record.Clean := inferInstanceAs (Decidable (∀ _ ∈ _, _))

/-- The records agree on everything that their schema attests. -/
structure AuditRecord.Agrees (r s : AuditRecord) : Prop where
  version : r.version = s.version
  index : r.index = s.index
  time : r.time = s.time
  op : r.op = s.op
  result : r.result = s.result
  path : r.path = s.path
  size : r.size = s.size
  plaintextHash : r.plaintextHash = s.plaintextHash
  ciphertextHash : r.ciphertextHash = s.ciphertextHash
  remote : r.remote = s.remote
  prev : r.prev = s.prev
  moved : r.version = auditRecordVersion →
    r.direction = s.direction ∧ r.bytes = s.bytes ∧ r.objects = s.objects

theorem AuditRecord.Agrees.symm {r s : AuditRecord} (h : r.Agrees s) : s.Agrees r where
  version := h.version.symm
  index := h.index.symm
  time := h.time.symm
  op := h.op.symm
  result := h.result.symm
  path := h.path.symm
  size := h.size.symm
  plaintextHash := h.plaintextHash.symm
  ciphertextHash := h.ciphertextHash.symm
  remote := h.remote.symm
  prev := h.prev.symm
  moved hversion := by
    obtain ⟨hdirection, hbytes, hobjects⟩ := h.moved (h.version.trans hversion)
    exact ⟨hdirection.symm, hbytes.symm, hobjects.symm⟩

variable {blake3} {r s : AuditRecord}

theorem toList_canonical (r : AuditRecord) : (canonical r).toList =
    [auditHashFieldSeparator].intercalate ((canonicalFields r).map String.toList) := by
  rw [canonical, String.toList_intercalate, String.toList_singleton]

theorem AuditRecord.Clean.mem_legacyFields (h : s.Clean) (hprev : Separate s.prev) :
    ∀ f ∈ legacyFields s, Separate f := by
  intro f hf
  simp only [legacyFields, mem_cons, not_mem_nil, or_false] at hf
  rcases hf with rfl | rfl | rfl | rfl | rfl | rfl | rfl | rfl | rfl | rfl
  case inl => exact hprev
  case inr.inl | inr.inr.inr.inr.inr.inr.inl => exact separate_repr _
  all_goals
    apply h
    simp [strings]

theorem AuditRecord.Clean.mem_canonicalFields (h : s.Clean) (hprev : Separate s.prev) :
    ∀ f ∈ canonicalFields s, Separate f := by
  intro f hf
  unfold canonicalFields at hf
  split at hf
  · exact h.mem_legacyFields hprev f hf
  · rcases mem_cons.mp hf with rfl | hf
    · exact separate_repr _
    rcases mem_append.mp hf with hf | hf
    · exact h.mem_legacyFields hprev f hf
    simp only [mem_cons, not_mem_nil, or_false] at hf
    rcases hf with rfl | rfl | rfl
    · apply h
      simp [strings]
    · exact separate_repr _
    · exact separate_repr _

theorem AuditRecord.version_cases (h : r.isSupportedVersion = true) :
    r.version = auditRecordVersionLegacy ∨ r.version = auditRecordVersion := by
  simp only [isSupportedVersion, decide_eq_true_eq, UInt32.le_iff_toNat_le] at h
  have hlegacy : auditRecordVersionLegacy.toNat = 1 := rfl
  have hcurrent : auditRecordVersion.toNat = 2 := rfl
  rw [← UInt32.toNat_inj, ← UInt32.toNat_inj]
  omega

theorem canonicalFields_legacy (h : r.version = auditRecordVersionLegacy) :
    canonicalFields r = legacyFields r := if_pos h

theorem canonicalFields_current (h : r.version = auditRecordVersion) :
    canonicalFields r = auditRecordVersion.toNat.repr :: (legacyFields r ++
      [r.direction, r.bytes.toNat.repr, r.objects.toNat.repr]) := by
  rw [canonicalFields, h, if_neg (by decide)]

theorem length_of_isWellFormedHash {value : String} (h : isWellFormedHash value = true) :
    (utf8 value).length = hashHexLenBlake3 := by
  simp only [isWellFormedHash, decide_eq_true_eq] at h
  exact h.1

theorem prev_ne_version (h : isWellFormedHash r.prev = true) :
    r.prev ≠ auditRecordVersion.toNat.repr := by
  intro hprev
  have hlen := length_of_isWellFormedHash h
  rw [hprev] at hlen
  revert hlen
  decide

theorem canonical_ne_of_legacy (hr : r.version = auditRecordVersionLegacy)
    (hs : s.version = auditRecordVersion) (hprev : isWellFormedHash r.prev = true) :
    canonical r ≠ canonical s := by
  intro h
  have hlist := congrArg String.toList h
  rw [toList_canonical, toList_canonical, canonicalFields_legacy hr, canonicalFields_current hs]
    at hlist
  simp only [legacyFields, map_cons, cons_append] at hlist
  have hfirst := head_intercalate_inj (separate_of_isWellFormedHash hprev) (separate_repr _)
    (cons_ne_nil _ _) (cons_ne_nil _ _) hlist
  exact prev_ne_version hprev (String.toList_injective hfirst)

theorem canonicalFields_inj (hclean : s.Clean) (hprev : isWellFormedHash s.prev = true)
    (hversion : r.version = s.version) (h : canonical r = canonical s) :
    canonicalFields r = canonicalFields s := by
  have hlist := congrArg String.toList h
  rw [toList_canonical, toList_canonical] at hlist
  have hfields := hclean.mem_canonicalFields (separate_of_isWellFormedHash hprev)
  have hlen : (canonicalFields s).length = (canonicalFields r).length := by
    unfold canonicalFields
    rw [hversion]
    split <;> rfl
  have hmap : (canonicalFields s).map String.toList = (canonicalFields r).map String.toList := by
    apply intercalate_inj _ _ hlist.symm
    · intro f hf
      obtain ⟨t, ht, rfl⟩ := mem_map.mp hf
      exact hfields t ht
    · rw [length_map, length_map, hlen]
  exact (map_injective_iff.mpr (fun _ _ => String.toList_injective) hmap).symm

section

variable (hr : r.isSupportedVersion = true) (hs : s.isSupportedVersion = true)
  (hrprev : isWellFormedHash r.prev = true) (hsprev : isWellFormedHash s.prev = true)
include hr hs hrprev hsprev

theorem version_eq_of_canonical (h : canonical r = canonical s) : r.version = s.version := by
  rcases AuditRecord.version_cases hr with hr | hr <;>
    rcases AuditRecord.version_cases hs with hs | hs
  · rw [hr, hs]
  · exact absurd h (canonical_ne_of_legacy hr hs hrprev)
  · exact absurd h.symm (canonical_ne_of_legacy hs hr hsprev)
  · rw [hr, hs]

theorem agrees_of_canonical (hclean : s.Clean) (h : canonical r = canonical s) : r.Agrees s := by
  have hversion := version_eq_of_canonical hr hs hrprev hsprev h
  have hfields := canonicalFields_inj hclean hsprev hversion h
  have hten : legacyFields r = legacyFields s ∧ (r.version = auditRecordVersion →
      r.direction = s.direction ∧ r.bytes.toNat.repr = s.bytes.toNat.repr ∧
        r.objects.toNat.repr = s.objects.toNat.repr) := by
    rcases AuditRecord.version_cases hs with hlegacy | hcurrent
    · rw [canonicalFields_legacy hlegacy, canonicalFields_legacy (hversion.trans hlegacy)]
        at hfields
      refine ⟨hfields, fun hcurrent => ?_⟩
      rw [hversion, hlegacy] at hcurrent
      exact absurd hcurrent (by decide)
    · rw [canonicalFields_current hcurrent, canonicalFields_current (hversion.trans hcurrent)]
        at hfields
      have htail := append_inj (List.cons.inj hfields).2 rfl
      simp only [List.cons.injEq, and_true] at htail
      exact ⟨htail.1, fun _ => htail.2⟩
  obtain ⟨hlegacy, hmoved⟩ := hten
  simp only [legacyFields, List.cons.injEq, and_true] at hlegacy
  obtain ⟨hprev, hindex, htime, hop, hresult, hpath, hsize, hplain, hcipher, hremote⟩ := hlegacy
  refine ⟨hversion, ?_, htime, hop, hresult, hpath, ?_, hplain, hcipher, hremote, hprev, ?_⟩
  · exact UInt64.toNat_inj.mp (repr_injective hindex)
  · exact UInt64.toNat_inj.mp (repr_injective hsize)
  · intro hcurrent
    obtain ⟨hdirection, hbytes, hobjects⟩ := hmoved hcurrent
    exact ⟨hdirection, UInt64.toNat_inj.mp (repr_injective hbytes),
      UInt64.toNat_inj.mp (repr_injective hobjects)⟩

end

theorem checkRecord_eq_ok {position : Nat} {previous : String} :
    checkRecord blake3 position previous r = .ok () ↔
      isWellFormedHash r.prev = true ∧ isWellFormedHash r.hash = true ∧
        r.isSupportedVersion = true ∧ r.index = UInt64.ofNat position ∧
        eqIgnoreAsciiCase r.prev previous ∧ eqIgnoreAsciiCase r.hash (computeHash blake3 r) := by
  simp [checkRecord]

theorem verifyFrom_cons {position : Nat} {previous head : String} {rest : List AuditRecord} :
    verifyFrom blake3 position previous (r :: rest) = .ok head ↔
      checkRecord blake3 position previous r = .ok () ∧
        verifyFrom blake3 (position + 1) r.hash rest = .ok head := by
  rw [verifyFrom, bind_eq_ok]
  constructor
  · intro h
    obtain ⟨_, hcheck, hrest⟩ := h
    exact ⟨hcheck, hrest⟩
  · intro h
    exact ⟨(), h⟩

theorem foldCase_hexEncode (bytes : Bytes) :
    foldCase (hexEncode bytes) = (hexEncode bytes).toList := by
  have hdigit : ∀ n < 16, (hexDigit n).toLower = hexDigit n := by decide
  rw [foldCase, hexEncode, String.toList_ofList]
  induction bytes with
  | nil => rfl
  | cons b bytes ih =>
    have hb := b.toNat_lt
    rw [hexChars, map_cons, map_cons, ih, hdigit _ (by omega), hdigit _ (by omega)]

theorem canonical_eq_of_hash
    (hfree : blake3 (utf8 (canonical r)) = blake3 (utf8 (canonical s)) →
      utf8 (canonical r) = utf8 (canonical s))
    (hr : eqIgnoreAsciiCase r.hash (computeHash blake3 r))
    (hs : eqIgnoreAsciiCase s.hash (computeHash blake3 s))
    (h : eqIgnoreAsciiCase r.hash s.hash) : canonical r = canonical s := by
  have hcase : foldCase (computeHash blake3 r) = foldCase (computeHash blake3 s) :=
    hr.symm.trans (h.trans hs)
  rw [computeHash, computeHash, foldCase_hexEncode, foldCase_hexEncode] at hcase
  have hdigest := hexEncode_inj.mp (String.toList_injective hcase)
  exact utf8_injective (hfree (Block.ext hdigest))

/-- The blake3 hash does not collide on the canonical forms of the two logs. -/
def CollisionFree (blake3 : Bytes → Digest) (as bs : List AuditRecord) : Prop :=
  ∀ r ∈ as, ∀ s ∈ bs, blake3 (utf8 (canonical r)) = blake3 (utf8 (canonical s)) →
    utf8 (canonical r) = utf8 (canonical s)

/-- Backwards along the chain: walks of one length that end in one hash walked over records that
agree, and began after one hash. -/
theorem verifyFrom_agrees {position : Nat} {before before' head head' : String}
    {as bs : List AuditRecord} (ha : verifyFrom blake3 position before as = .ok head)
    (hb : verifyFrom blake3 position before' bs = .ok head') (hlen : as.length = bs.length)
    (hhead : eqIgnoreAsciiCase head head') (hfree : CollisionFree blake3 as bs)
    (hclean : ∀ s ∈ bs, s.Clean) :
    List.Forall₂ AuditRecord.Agrees as bs ∧ eqIgnoreAsciiCase before before' := by
  induction as generalizing bs position before before' with
  | nil =>
    have hnil := length_eq_zero_iff.mp hlen.symm
    subst hnil
    cases ha
    cases hb
    exact ⟨List.Forall₂.nil, hhead⟩
  | cons r as ih =>
    cases bs with
    | nil => cases hlen
    | cons s bs =>
      obtain ⟨hr, ha⟩ := verifyFrom_cons.mp ha
      obtain ⟨hs, hb⟩ := verifyFrom_cons.mp hb
      obtain ⟨hrest, hhash⟩ := ih ha hb (Nat.succ.inj hlen)
        (fun r hr s hs => hfree r (mem_cons_of_mem _ hr) s (mem_cons_of_mem _ hs))
        fun s hs => hclean s (mem_cons_of_mem _ hs)
      obtain ⟨hrprev, -, hrversion, -, hrlink, hrhash⟩ := checkRecord_eq_ok.mp hr
      obtain ⟨hsprev, -, hsversion, -, hslink, hshash⟩ := checkRecord_eq_ok.mp hs
      have hcanonical := canonical_eq_of_hash
        (hfree r (mem_cons_self ..) s (mem_cons_self ..)) hrhash hshash hhash
      have hagrees := agrees_of_canonical hrversion hsversion hrprev hsprev
        (hclean s (mem_cons_self ..)) hcanonical
      refine ⟨List.Forall₂.cons hagrees hrest, ?_⟩
      have hprev : foldCase r.prev = foldCase s.prev := by rw [hagrees.prev]
      exact hrlink.symm.trans (hprev.trans hslink)

theorem verify_eq_ok {records : List AuditRecord} {verified : Verified} :
    verify blake3 records = .ok verified ↔
      verifyFrom blake3 0 auditChainGenesisPrev records = .ok verified.head ∧
        verified.records = records.length := by
  constructor
  · intro h
    simp only [verify, bind_eq_ok, pure_eq_ok] at h
    obtain ⟨head, hwalk, rfl⟩ := h
    exact ⟨hwalk, rfl⟩
  · intro h
    obtain ⟨hwalk, hrecords⟩ := h
    simp only [verify, bind_eq_ok, pure_eq_ok]
    exact ⟨_, hwalk, by rw [← hrecords]⟩

/-- The head and the length of a log fix everything that its records attest: of two logs that verify
with one head and one length, of which one has clean strings, the records agree one by one. -/
theorem verify_commits {as bs : List AuditRecord} {a b : Verified} (ha : verify blake3 as = .ok a)
    (hb : verify blake3 bs = .ok b) (hhead : eqIgnoreAsciiCase a.head b.head)
    (hrecords : a.records = b.records) (hfree : CollisionFree blake3 as bs)
    (hclean : (∀ r ∈ as, r.Clean) ∨ ∀ s ∈ bs, s.Clean) :
    List.Forall₂ AuditRecord.Agrees as bs := by
  obtain ⟨hwalka, hlena⟩ := verify_eq_ok.mp ha
  obtain ⟨hwalkb, hlenb⟩ := verify_eq_ok.mp hb
  have hlen : as.length = bs.length := by rw [← hlena, ← hlenb, hrecords]
  rcases hclean with hclean | hclean
  · have hflip : CollisionFree blake3 bs as :=
      fun s hs r hr h => (hfree r hr s hs h.symm).symm
    obtain ⟨hagrees, -⟩ := verifyFrom_agrees hwalkb hwalka hlen.symm hhead.symm hflip hclean
    exact List.Forall₂.flip (hagrees.imp fun _ _ h => h.symm)
  · exact (verifyFrom_agrees hwalka hwalkb hlen hhead hfree hclean).1

def documentedDigest (hex : String) : Digest := Block.slice 32 ((hexDecode hex).getD []) 0

def documentedFirst : AuditRecord :=
  { v := none, index := 0, time := "2026-07-26T14:30:00Z", op := "copy", result := "success",
    direction := "", path := "photos/2024/holiday.mov", size := 4294967296, bytes :=
      0, objects := 0,
    plaintextHash := "d74981efa70a0c880b8d8c1985d075dbcbf679b99a5f9914e5aaf96b831a9e24",
    ciphertextHash := "c12f1481789d50a4c549e15c42bda1759277bc954d2f4b62c0f4531937f2e990",
    remote := "vault", prev := auditChainGenesisPrev,
    hash := "82003870c5344e3adb90c5e5319c2d77ed90605a4cc09d6f4e313558e5fa8597" }

def documentedSecond : AuditRecord :=
  { documentedFirst with
    index := 1, time := "2026-07-26T14:31:07Z", op := "delete", path := "photos/2023/old.mov",
    size := 0, plaintextHash := "", ciphertextHash := "", prev := documentedFirst.hash,
    hash := "de169675b8da96a4892e92a98fd20b952f389d93fcfb0a38d95cf51bf4df1ccd" }

def documentedLog : List AuditRecord := [documentedFirst, documentedSecond]

def documentedBlake3 (bytes : Bytes) : Digest :=
  match documentedLog.find? fun record => utf8 (canonical record) = bytes with
  | some record => documentedDigest record.hash
  | none => documentedDigest ""

def relabelledLog : List AuditRecord :=
  [{ documentedFirst with v := some auditRecordVersionLegacy, direction := "in", bytes := 7 },
    documentedSecond]

theorem documented_evaluated :
    canonical documentedFirst ≠ canonical documentedSecond ∧
      documentedDigest documentedFirst.hash ≠ documentedDigest documentedSecond.hash ∧
      ∀ r ∈ documentedLog, isWellFormedHash r.prev = true ∧ isWellFormedHash r.hash = true ∧
        eqIgnoreAsciiCase r.hash (hexEncode (documentedDigest r.hash).bytes) := by
  decide +kernel

theorem documentedBlake3_first :
    documentedBlake3 (utf8 (canonical documentedFirst)) =
      documentedDigest documentedFirst.hash := by
  simp [documentedBlake3, documentedLog]

theorem documentedBlake3_second :
    documentedBlake3 (utf8 (canonical documentedSecond)) =
      documentedDigest documentedSecond.hash := by
  simp [documentedBlake3, documentedLog, documented_evaluated.1]

theorem checkRecord_documentedFirst :
    checkRecord documentedBlake3 0 auditChainGenesisPrev documentedFirst = .ok () := by
  obtain ⟨hprev, hhash, hsame⟩ := documented_evaluated.2.2 documentedFirst mem_cons_self
  refine checkRecord_eq_ok.mpr ⟨hprev, hhash, rfl, rfl, rfl, ?_⟩
  rwa [computeHash, documentedBlake3_first]

theorem checkRecord_documentedSecond :
    checkRecord documentedBlake3 1 documentedFirst.hash documentedSecond = .ok () := by
  obtain ⟨hprev, hhash, hsame⟩ := documented_evaluated.2.2 documentedSecond
    (mem_cons_of_mem _ mem_cons_self)
  refine checkRecord_eq_ok.mpr ⟨hprev, hhash, rfl, rfl, rfl, ?_⟩
  rwa [computeHash, documentedBlake3_second]

theorem verify_documented :
    verify documentedBlake3 documentedLog = .ok ⟨2, documentedSecond.hash⟩ :=
  verify_eq_ok.mpr ⟨verifyFrom_cons.mpr ⟨checkRecord_documentedFirst,
    verifyFrom_cons.mpr ⟨checkRecord_documentedSecond, rfl⟩⟩, rfl⟩

theorem verify_relabelled :
    verify documentedBlake3 relabelledLog = .ok ⟨2, documentedSecond.hash⟩ := by
  obtain ⟨hprev, hhash, -, hindex, hlink, hcomputed⟩ :=
    checkRecord_eq_ok.mp checkRecord_documentedFirst
  refine verify_eq_ok.mpr ⟨verifyFrom_cons.mpr ⟨?_, verifyFrom_cons.mpr
    ⟨checkRecord_documentedSecond, rfl⟩⟩, rfl⟩
  exact checkRecord_eq_ok.mpr ⟨hprev, hhash, rfl, hindex, hlink, hcomputed⟩

def Documented (r : AuditRecord) : Prop :=
  canonical r = canonical documentedFirst ∨ canonical r = canonical documentedSecond

theorem documented_of_mem {r : AuditRecord} (h : r ∈ documentedLog) : Documented r := by
  simp only [documentedLog, mem_cons, not_mem_nil, or_false] at h
  rcases h with rfl | rfl
  · exact Or.inl rfl
  · exact Or.inr rfl

theorem documented_of_mem_relabelled {r : AuditRecord} (h : r ∈ relabelledLog) : Documented r := by
  simp only [relabelledLog, mem_cons, not_mem_nil, or_false] at h
  rcases h with rfl | rfl
  · exact Or.inl rfl
  · exact Or.inr rfl

theorem collisionFree_documented {as bs : List AuditRecord} (has : ∀ r ∈ as, Documented r)
    (hbs : ∀ s ∈ bs, Documented s) : CollisionFree documentedBlake3 as bs := by
  have hne := documented_evaluated.2.1
  intro r hr s hs hsame
  rcases has r hr with hr | hr <;> rcases hbs s hs with hs | hs
  · rw [hr, hs]
  · rw [hr, hs, documentedBlake3_first, documentedBlake3_second] at hsame
    exact absurd hsame hne
  · rw [hr, hs, documentedBlake3_first, documentedBlake3_second] at hsame
    exact absurd hsame.symm hne
  · rw [hr, hs]

theorem clean_documentedLog : ∀ r ∈ documentedLog, r.Clean := by
  decide

theorem verify_commits_documented :
    verify documentedBlake3 documentedLog = .ok ⟨2, documentedSecond.hash⟩ ∧
      relabelledLog ≠ documentedLog ∧ List.Forall₂ AuditRecord.Agrees relabelledLog documentedLog :=
  ⟨verify_documented, by decide,
    @verify_commits documentedBlake3 relabelledLog documentedLog ⟨2, documentedSecond.hash⟩
      ⟨2, documentedSecond.hash⟩ verify_relabelled verify_documented rfl rfl
      (collisionFree_documented (fun _ => documented_of_mem_relabelled) fun _ => documented_of_mem)
      (Or.inr clean_documentedLog)⟩

end Dctl.Audit
