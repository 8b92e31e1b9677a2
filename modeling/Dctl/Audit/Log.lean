import Dctl.Audit.Write

/-! The log as a file that writers extend and crashes tear.  Its complete lines are a chain: every
call of every writer keeps them and adds at most the next record, and a writer's view of the head is
the chain as it was when the writer last looked. -/

namespace Dctl.Audit

open ProofKit Cli Crypto List

abbrev completeLines (bytes : Bytes) : List Bytes := linesOf auditLogLineTerminator bytes

abbrev complete (bytes : Bytes) : Bytes := unlines auditLogLineTerminator (completeLines bytes)

def readRecords (serde : Serde) (lines : List Bytes) : Except String (List AuditRecord) :=
  (lines.filter fun line => !isBlank line).mapM serde.fromSlice

/-- The lines read back as these records, a chain that verifies and ends in this head. -/
structure Chained (blake3 : Bytes → Digest) (serde : Serde) (lines : List Bytes)
    (records : List AuditRecord) (head : String) : Prop where
  reads : readRecords serde lines = .ok records
  verifies : verifyFrom blake3 0 auditChainGenesisPrev records = .ok head

variable {blake3 : Bytes → Digest} {serde : Serde} {lines ls ms : List Bytes} {line : Bytes}
  {records rs ss : List AuditRecord} {head : String} {w : Writer}

theorem readRecords_eq_ok : readRecords serde lines = .ok records ↔
    List.Forall₂ (fun line record => serde.fromSlice line = .ok record)
      (lines.filter fun line => !isBlank line) records := mapM_eq_ok_iff

theorem readRecords_append (hls : readRecords serde ls = .ok rs)
    (hms : readRecords serde ms = .ok ss) : readRecords serde (ls ++ ms) = .ok (rs ++ ss) := by
  rw [readRecords_eq_ok] at hls hms ⊢
  rw [filter_append]
  exact rel_append hls hms

section

variable (h : readRecords serde lines = .ok records)
include h

theorem readRecords_prefix (hpre : ls <+: lines) :
    ∃ rs, readRecords serde ls = .ok rs ∧ rs <+: records := by
  obtain ⟨ms, rfl⟩ := hpre
  rw [readRecords_eq_ok, filter_append] at h
  have htake := List.forall₂_take (ls.filter fun line => !isBlank line).length h
  rw [take_left] at htake
  exact ⟨_, readRecords_eq_ok.mpr htake, take_prefix ..⟩

theorem length_readRecords_le : records.length ≤ lines.length := by
  rw [readRecords_eq_ok] at h
  rw [← h.length_eq]
  exact length_filter_le ..

theorem mem_of_readRecords {record : AuditRecord} (hline : line ∈ lines)
    (hblank : isBlank line = false) (hrecord : serde.fromSlice line = .ok record) :
    record ∈ records := by
  rw [readRecords_eq_ok] at h
  have hmem : line ∈ lines.filter fun line => !isBlank line :=
    mem_filter.mpr ⟨hline, by simp [hblank]⟩
  clear hline
  generalize lines.filter (fun line => !isBlank line) = content at h hmem
  induction h with
  | nil => cases hmem
  | cons hread _ ih =>
    rcases mem_cons.mp hmem with rfl | hmem
    · rw [hrecord] at hread
      cases hread
      exact mem_cons_self ..
    · exact mem_cons_of_mem _ (ih hmem)

end

theorem verifyFrom_append {position : Nat} {previous : String} :
    verifyFrom blake3 position previous (rs ++ ss) = .ok head ↔
      ∃ middle, verifyFrom blake3 position previous rs = .ok middle ∧
        verifyFrom blake3 (position + rs.length) middle ss = .ok head := by
  induction rs generalizing position previous with
  | nil => simp [verifyFrom]
  | cons r rs ih =>
    rw [cons_append, verifyFrom_cons, ih]
    constructor
    · intro h
      obtain ⟨hcheck, middle, hrs, hss⟩ := h
      refine ⟨middle, verifyFrom_cons.mpr ⟨hcheck, hrs⟩, ?_⟩
      rwa [length_cons, Nat.add_comm rs.length, ← Nat.add_assoc]
    · intro h
      obtain ⟨middle, hrs, hss⟩ := h
      obtain ⟨hcheck, hrs⟩ := verifyFrom_cons.mp hrs
      rw [length_cons, Nat.add_comm rs.length, ← Nat.add_assoc] at hss
      exact ⟨hcheck, middle, hrs, hss⟩

theorem verifyFrom_wellFormed {position : Nat} {previous : String}
    (h : verifyFrom blake3 position previous rs = .ok head)
    (hprevious : isWellFormedHash previous = true) : isWellFormedHash head = true := by
  induction rs generalizing position previous with
  | nil =>
    cases h
    exact hprevious
  | cons r rs ih =>
    obtain ⟨hcheck, hrest⟩ := verifyFrom_cons.mp h
    obtain ⟨-, hhash, -⟩ := checkRecord_eq_ok.mp hcheck
    exact ih hrest hhash

theorem isWellFormedHash_genesis : isWellFormedHash auditChainGenesisPrev = true := by decide

theorem isWellFormedHash_hexEncode {bytes : Bytes} (h : bytes.length = 32) :
    isWellFormedHash (hexEncode bytes) = true := by
  have hdigit : ∀ n < 16, utf8 (String.singleton (hexDigit n)) = [UInt8.ofNat (hexDigit n).toNat] ∧
      isAsciiHexdigit (UInt8.ofNat (hexDigit n).toNat) = true := by decide
  have hall : (utf8 (hexEncode bytes)).length = 2 * bytes.length ∧
      (utf8 (hexEncode bytes)).all isAsciiHexdigit = true := by
    clear h
    induction bytes with
    | nil => exact ⟨rfl, rfl⟩
    | cons b bytes ih =>
      have hb := b.toNat_lt
      obtain ⟨hhigh, hhigh'⟩ := hdigit (b.toNat / 16) (by omega)
      obtain ⟨hlow, hlow'⟩ := hdigit (b.toNat % 16) (by omega)
      have hcons : hexEncode (b :: bytes) = String.singleton (hexDigit (b.toNat / 16)) ++
          (String.singleton (hexDigit (b.toNat % 16)) ++ hexEncode bytes) := by
        apply String.toList_injective
        simp [hexEncode, hexChars]
      rw [hcons, utf8_append, utf8_append, hhigh, hlow]
      simp only [singleton_append, length_cons, all_cons, hhigh', hlow', ih.1, ih.2,
        Bool.and_self, and_true]
      omega
  simp only [isWellFormedHash, hall.2, hall.1, h, decide_eq_true_eq]
  decide

theorem isWellFormedHash_computeHash (record : AuditRecord) :
    isWellFormedHash (computeHash blake3 record) = true :=
  isWellFormedHash_hexEncode (blake3 _).length

theorem Chained.head_wellFormed (h : Chained blake3 serde lines records head) :
    isWellFormedHash head = true := verifyFrom_wellFormed h.verifies isWellFormedHash_genesis

theorem Chained.of_prefix (h : Chained blake3 serde lines records head) (hpre : ls <+: lines) :
    ∃ rs head', Chained blake3 serde ls rs head' ∧ rs <+: records := by
  obtain ⟨rs, hreads, ss, rfl⟩ := readRecords_prefix h.reads hpre
  obtain ⟨middle, hverifies, -⟩ := verifyFrom_append.mp h.verifies
  exact ⟨rs, middle, ⟨hreads, hverifies⟩, prefix_append ..⟩

theorem Chained.concat (hserde : serde.Lawful) (h : Chained blake3 serde lines records head)
    (entry : Entry) :
    Chained blake3 serde
      (lines ++ [serde.toVec (sealEntry blake3 entry (UInt64.ofNat records.length) head)])
      (records ++ [sealEntry blake3 entry (UInt64.ofNat records.length) head])
      (sealEntry blake3 entry (UInt64.ofNat records.length) head).hash where
  reads := by
    apply readRecords_append h.reads
    rw [readRecords_eq_ok, filter_cons_of_pos (by simp [hserde.not_blank])]
    exact List.Forall₂.cons (hserde.fromSlice_toVec _) List.Forall₂.nil
  verifies := by
    rw [verifyFrom_append]
    refine ⟨head, h.verifies, verifyFrom_cons.mpr ⟨?_, rfl⟩⟩
    rw [checkRecord_eq_ok, Nat.zero_add]
    exact ⟨h.head_wellFormed, isWellFormedHash_computeHash _, rfl, rfl, rfl, rfl⟩

theorem Chained.last (h : Chained blake3 serde lines records head) :
    match lastRecord lines with
    | none => records = [] ∧ head = auditChainGenesisPrev
    | some line => ∃ rs record, records = rs ++ [record] ∧ serde.fromSlice line = .ok record ∧
        head = record.hash ∧ isWellFormedHash record.hash = true ∧
        record.index = UInt64.ofNat rs.length ∧
        eqIgnoreAsciiCase record.hash (computeHash blake3 record) := by
  have hreads := readRecords_eq_ok.mp h.reads
  cases hlast : lastRecord lines with
  | none =>
    have hblank := lastRecord_eq_none.mp hlast
    rw [filter_eq_nil_iff.mpr (by simpa using hblank), List.forall₂_nil_left_iff] at hreads
    subst hreads
    have hverifies := h.verifies
    cases hverifies
    exact ⟨rfl, rfl⟩
  | some line =>
    obtain ⟨before, after, rfl, hline, hafter⟩ := lastRecord_eq_some hlast
    have hfilter : (before ++ line :: after).filter (fun line => !isBlank line) =
        (before.filter fun line => !isBlank line) ++ [line] := by
      have hnone : after.filter (fun line => !isBlank line) = [] :=
        filter_eq_nil_iff.mpr (by simpa using hafter)
      rw [filter_append, filter_cons_of_pos (by simp [hline]), hnone]
    rw [hfilter] at hreads
    have hrest := List.forall₂_drop (before.filter fun line => !isBlank line).length hreads
    rw [drop_left, List.forall₂_cons_left_iff] at hrest
    obtain ⟨record, nothing, hrecord, hnothing, hdrop⟩ := hrest
    obtain rfl := List.forall₂_nil_left_iff.mp hnothing
    have hsplit := take_append_drop (before.filter fun line => !isBlank line).length records
    rw [hdrop] at hsplit
    obtain ⟨middle, -, hcheck⟩ := verifyFrom_append.mp (hsplit ▸ h.verifies)
    obtain ⟨hcheck, hhead⟩ := verifyFrom_cons.mp hcheck
    obtain ⟨-, hhash, -, hindex, -, hcontent⟩ := checkRecord_eq_ok.mp hcheck
    rw [Nat.zero_add] at hindex
    exact ⟨_, record, hsplit.symm, hrecord, (Except.ok.inj hhead).symm, hhash, hindex, hcontent⟩

/-- The file, of which the first `durable` bytes are on stable storage. -/
structure Medium where
  bytes : Bytes
  durable : Nat

def Medium.resized (m : Medium) (length : Nat) : Medium where
  bytes := m.bytes.take length ++ List.replicate (length - m.bytes.length) 0
  durable := min m.durable length

def Medium.extended (m : Medium) (bytes : Bytes) : Medium := { m with bytes := m.bytes ++ bytes }

def Medium.synced (m : Medium) : Medium := { m with durable := m.bytes.length }

/-- How the file system may answer.  Every call may fail; a write that fails may have written any
part of its bytes, and no file grows past what its length can say. -/
def serves : Prog.Server Medium LogRequest LogRequest.Answer
  | m, .metadata, x, m' => (∀ n, x = .ok n → n = m.bytes.length) ∧ m' = m
  | m, .readExact start size, x, m' =>
    (∀ bytes, x = .ok bytes →
      start + size ≤ m.bytes.length ∧ bytes = (m.bytes.drop start).take size) ∧ m' = m
  | m, .setLen length, x, m' => m' = m ∧ (∃ e, x = .error e) ∨ m' = m.resized length ∧ x = .ok ()
  | m, .writeAll bytes, x, m' =>
    ∃ n, m' = m.extended (bytes.take n) ∧ (n = 0 ∨ m'.bytes.length < 2 ^ 64) ∧
      (x = .ok () → bytes.length ≤ n)
  | m, .syncAll, x, m' => m' = m ∧ (∃ e, x = .error e) ∨ m' = m.synced ∧ x = .ok ()
  | m, _, _, m' => m' = m

/-- What a log file is at all times: its complete lines chain, and what is durable is a part of it.
-/
structure Sound (blake3 : Bytes → Digest) (serde : Serde) (m : Medium) : Prop where
  chained : ∃ records head, Chained blake3 serde (completeLines m.bytes) records head
  size : m.bytes.length < 2 ^ 64
  durable_le : m.durable ≤ m.bytes.length

/-- The complete lines of a file are still there, and so are those of them that were on stable
storage. -/
structure Extends (m m' : Medium) : Prop where
  lines : complete m.bytes <+: m'.bytes
  durable : min m.durable (complete m.bytes).length ≤ m'.durable

variable {m m' m'' : Medium}

theorem complete_start (bytes : Bytes) : complete bytes <+: bytes :=
  ⟨_, unlines_linesOf auditLogLineTerminator bytes⟩

theorem Sound.records_lt (h : Sound blake3 serde m)
    (hchained : Chained blake3 serde (completeLines m.bytes) records head) :
    records.length < 2 ^ 64 := by
  have hlines := length_le_length_unlines auditLogLineTerminator (completeLines m.bytes)
  have hbytes := (complete_start m.bytes).length_le
  exact lt_of_le_of_lt ((length_readRecords_le hchained.reads).trans (hlines.trans hbytes)) h.size

theorem completeLines_start {bytes bytes' : Bytes} :
    complete bytes <+: bytes' ↔ completeLines bytes <+: completeLines bytes' :=
  unlines_prefix_iff fun _ h => not_mem_of_mem_linesOf h

theorem complete_complete (bytes : Bytes) : completeLines (complete bytes) = completeLines bytes :=
  (linesOf_complete auditLogLineTerminator bytes).1

theorem unlines_start (h : ls <+: ms) :
    unlines auditLogLineTerminator ls <+: unlines auditLogLineTerminator ms := by
  obtain ⟨rest, rfl⟩ := h
  rw [unlines_append]
  exact prefix_append ..

theorem Extends.refl (m : Medium) : Extends m m := ⟨complete_start m.bytes, Nat.min_le_left ..⟩

theorem Extends.trans (h : Extends m m') (h' : Extends m' m'') : Extends m m'' := by
  have hpre := unlines_start (completeLines_start.mp h.lines)
  have hle := hpre.length_le
  have hdurable := h.durable
  have hdurable' := h'.durable
  exact ⟨hpre.trans h'.lines, by simp only [complete] at *; omega⟩

theorem Sound.synced (h : Sound blake3 serde m) : Sound blake3 serde m.synced :=
  ⟨h.chained, h.size, Nat.le_refl _⟩

theorem extends_synced (h : Sound blake3 serde m) : Extends m m.synced :=
  ⟨complete_start m.bytes, le_trans (Nat.min_le_left ..) h.durable_le⟩

theorem bytes_resized (m : Medium) :
    (m.resized (m.bytes.length - (tailOf m.bytes).fragment.length)).bytes = complete m.bytes := by
  rw [Medium.resized, tailOf, take_complete, Nat.sub_eq_zero_of_le (Nat.sub_le ..)]
  exact append_nil _

theorem sound_resized (h : Sound blake3 serde m) :
    Sound blake3 serde (m.resized (m.bytes.length - (tailOf m.bytes).fragment.length)) := by
  have hbytes := bytes_resized m
  have hle := (complete_start m.bytes).length_le
  have hsize := h.size
  refine ⟨?_, ?_, ?_⟩
  · rw [hbytes, complete_complete]
    exact h.chained
  · rw [hbytes]
    omega
  · rw [hbytes, complete, length_unlines_linesOf]
    exact Nat.min_le_right ..

theorem extends_resized (m : Medium) :
    Extends m (m.resized (m.bytes.length - (tailOf m.bytes).fragment.length)) := by
  constructor
  · exact bytes_resized m ▸ prefix_refl _
  rw [complete, length_unlines_linesOf]
  exact Nat.le_refl _

theorem extends_extended (m : Medium) (bytes : Bytes) : Extends m (m.extended bytes) :=
  ⟨(complete_start m.bytes).trans (prefix_append ..), Nat.min_le_left ..⟩

/-- The writer's head and next index are those of the chain in these lines. -/
def Attests (blake3 : Bytes → Digest) (serde : Serde) (w : Writer) (lines : List Bytes) : Prop :=
  ∃ records, Chained blake3 serde lines records w.head ∧ w.nextIndex.toNat = records.length

/-- The writer stands at a line of the log: it knows the chain up to there. -/
def Abreast (blake3 : Bytes → Digest) (serde : Serde) (w : Writer) (m : Medium) : Prop :=
  ∃ lines, lines <+: completeLines m.bytes ∧
    w.length = (unlines auditLogLineTerminator lines).length ∧
    Attests blake3 serde w lines

/-- The writer knows the chain as it is, and the file has no fragment. -/
structure AtEnd (blake3 : Bytes → Digest) (serde : Serde) (w : Writer) (m : Medium) : Prop where
  whole : complete m.bytes = m.bytes
  length : w.length = m.bytes.length
  attests : Attests blake3 serde w (completeLines m.bytes)

theorem Abreast.extends (h : Abreast blake3 serde w m) (hext : Extends m m') :
    Abreast blake3 serde w m' := by
  obtain ⟨lines, hpre, hlength, hattests⟩ := h
  exact ⟨lines, hpre.trans (completeLines_start.mp hext.lines), hlength, hattests⟩

theorem AtEnd.abreast (h : AtEnd blake3 serde w m) : Abreast blake3 serde w m :=
  ⟨completeLines m.bytes, prefix_refl _, by rw [h.length, ← h.whole, complete_complete],
    h.attests⟩

theorem Abreast.atEnd (h : Abreast blake3 serde w m) (hlength : m.bytes.length = w.length) :
    AtEnd blake3 serde w m := by
  obtain ⟨lines, hpre, hlines, hattests⟩ := h
  have hle := (unlines_start hpre).length_le
  have hwhole := (complete_start m.bytes).length_le
  have heq : unlines auditLogLineTerminator lines = complete m.bytes :=
    (unlines_start hpre).eq_of_length (by simp only [complete] at *; omega)
  have hall : complete m.bytes = m.bytes :=
    (complete_start m.bytes).eq_of_length (by rw [← heq]; omega)
  have hclean : ∀ line ∈ lines, auditLogLineTerminator ∉ line :=
    fun line hline => not_mem_of_mem_linesOf (hpre.subset hline)
  refine ⟨hall, hlength.symm, ?_⟩
  rw [← complete_complete, ← heq, completeLines, (linesOf_unlines hclean).1]
  exact hattests

end Dctl.Audit
