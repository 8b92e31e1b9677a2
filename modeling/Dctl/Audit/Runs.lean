import Dctl.Audit.Append
import Dctl.Audit.Json

/-! Runs of any number of processes that append to one log, each call of which may fail or be cut
short by the death of its process, with power cuts in between; what a window onto the end of a log
determines, and the reads with which a writer looks for the last record. -/

namespace Dctl.Audit

open ProofKit Cli Crypto List Function

variable {blake3 : Bytes → Digest} {serde : Serde} {w w' : Writer} {m m' : Medium} {log : LogFile}
  {ι : Type}

def honest (present : Bool) (m : Medium) : (r : LogRequest) → r.Answer × Medium
  | .pathExists | .parentExists => (present, m)
  | .createDirAll | .hardenDirectory | .openAppending | .flush => (.ok (), m)
  | .syncDirectory => ((), m)
  | .metadata => (.ok m.bytes.length, m)
  | .readExact start size =>
    if start + size ≤ m.bytes.length then (.ok ((m.bytes.drop start).take size), m)
    else (.error (CliError.ofFatal "failed to fill whole buffer"), m)
  | .setLen length => (.ok (), m.resized length)
  | .writeAll bytes =>
    if m.bytes.length + bytes.length < 2 ^ 64 then (.ok (), m.extended bytes)
    else (.error (CliError.ofFatal "file too large"), m)
  | .syncAll => (.ok (), m.synced)

theorem serves_honest (present : Bool) (m : Medium) (r : LogRequest) :
    serves m r (honest present m r).1 (honest present m r).2 := by
  cases r with
  | metadata => exact ⟨fun n h => (Except.ok.inj h).symm, rfl⟩
  | readExact start size =>
    rw [honest]
    split
    next hwithin => exact ⟨fun bytes h => ⟨hwithin, (Except.ok.inj h).symm⟩, rfl⟩
    next =>
      refine ⟨?_, rfl⟩
      rintro _ ⟨⟩
  | setLen length => exact Or.inr ⟨rfl, rfl⟩
  | syncAll => exact Or.inr ⟨rfl, rfl⟩
  | writeAll bytes =>
    rw [honest]
    split
    next hfits =>
      refine ⟨bytes.length, by rw [take_length], Or.inr ?_, fun _ => Nat.le_refl _⟩
      rw [Medium.extended, length_append]
      exact hfits
    next =>
      refine ⟨0, ?_, Or.inl rfl, by rintro ⟨⟩⟩
      rw [take_zero, Medium.extended, append_nil]
  | _ => rfl

/-- The end of the log is shown by the widest window that a writer reads. -/
def Shown (log : Bytes) : Prop :=
  log.length ≤ auditTailScanLimitBytes ∨ Within log auditTailScanLimitBytes

section Honest

variable {present : Bool} {α β : Type} {path : String} {r : LogRequest}
  {as : r.Answer → Except CliError α} {f : α → LogM β} {a : α}

theorem eval_callAt_bind (h : as (honest present m r).1 = .ok a) :
    (callAt path r as >>= f).run.eval (honest present) m =
      (f a).run.eval (honest present) (honest present m r).2 := by
  apply Prog.eval_fallible_bind
  show (((as (honest present m r).1).mapError (atPath path)), (honest present m r).2) = _
  rw [h]
  rfl

theorem eval_readExact_bind {f : Bytes → LogM β} {window : Nat} :
    (callAt path (.readExact (m.bytes.length - window) (m.bytes.length - (m.bytes.length - window)))
        id >>= f).run.eval (honest present) m =
      (f (m.bytes.drop (m.bytes.length - window))).run.eval (honest present) m := by
  have hread : honest present m
      (.readExact (m.bytes.length - window) (m.bytes.length - (m.bytes.length - window))) =
        (.ok (m.bytes.drop (m.bytes.length - window)), m) := by
    rw [honest, if_pos (by omega), take_lastBytes]
  rw [eval_callAt_bind (a := m.bytes.drop (m.bytes.length - window)), hread]
  rw [hread]
  rfl

theorem window_succ {k window : Nat} (hwindow : 0 < window)
    (hlimit : window * 2 ^ (k + 1) = auditTailScanLimitBytes) :
    window * 2 * 2 ^ k = auditTailScanLimitBytes ∧ ¬auditTailScanLimitBytes ≤ window := by
  have hdouble : window * 2 * 2 ^ k = auditTailScanLimitBytes := by
    rw [← hlimit, pow_succ, Nat.mul_assoc, Nat.mul_comm 2]
  have hle := Nat.le_mul_of_pos_right (window * 2) (Nat.two_pow_pos k)
  exact ⟨hdouble, by omega⟩

/-- Windows that double up to the limit read the end of the log, if the widest of them shows it. -/
theorem scanTail_honest (present : Bool) (m : Medium) (k window : Nat) (hwindow : 0 < window)
    (hlimit : window * 2 ^ k = auditTailScanLimitBytes) :
    (Shown m.bytes ∧ (scanTail w m.bytes.length window hwindow).run.eval (honest present) m =
        (.ok ((tailOf m.bytes).last, (tailOf m.bytes).fragment.length), m)) ∨
      (¬Shown m.bytes ∧ ∃ e, e.code = .auditChainBroken ∧
        (scanTail w m.bytes.length window hwindow).run.eval (honest present) m =
          (.error e, m)) := by
  induction k generalizing window with
  | zero =>
    rw [scanTail, eval_readExact_bind]
    rw [pow_zero, Nat.mul_one] at hlimit
    rcases frame_window m.bytes window with ⟨hshown, hframe⟩ | ⟨hhidden, hframe⟩
    · rw [hframe]
      exact Or.inl ⟨by rw [Shown, ← hlimit]; exact hshown, rfl⟩
    · rw [hframe]
      refine Or.inr ⟨by rw [Shown, ← hlimit]; exact hhidden, ?_⟩
      simp only [hlimit, Nat.le_refl, ↓reduceDIte]
      exact ⟨_, rfl, rfl⟩
  | succ k ih =>
    rw [scanTail, eval_readExact_bind]
    rcases frame_window m.bytes window with ⟨hshown, hframe⟩ | ⟨hhidden, hframe⟩
    · have hle : window ≤ auditTailScanLimitBytes := by
        rw [← hlimit]
        exact Nat.le_mul_of_pos_right _ (Nat.two_pow_pos _)
      rw [hframe]
      exact Or.inl ⟨hshown.imp (fun h => h.trans hle) fun h => h.mono hle, rfl⟩
    · obtain ⟨hdouble, hbelow⟩ := window_succ hwindow hlimit
      rw [hframe]
      simp only [hbelow, ↓reduceDIte]
      exact ih _ _ hdouble

theorem dropFragment_honest (present : Bool) (m : Medium) : ∃ m',
    (dropFragment w m.bytes.length (tailOf m.bytes).fragment.length).run.eval (honest present) m =
      (.ok (complete m.bytes).length, m') ∧ m'.bytes = complete m.bytes := by
  have hlength : m.bytes.length - (tailOf m.bytes).fragment.length = (complete m.bytes).length := by
    rw [complete, length_unlines_linesOf]
    rfl
  rw [dropFragment]
  split
  next =>
    rw [← hlength]
    exact ⟨(m.resized (m.bytes.length - (tailOf m.bytes).fragment.length)).synced, rfl,
      bytes_resized m⟩
  next hfragment =>
    have hzero : (tailOf m.bytes).fragment.length = 0 := by omega
    rw [hzero, Nat.sub_zero] at hlength
    rw [← hlength]
    exact ⟨m, rfl, ((complete_start m.bytes).eq_of_length hlength.symm).symm⟩

theorem openFile_honest (log : LogFile) (present : Bool) (m : Medium) :
    (openFile log).run.eval (honest present) m = (.ok (), m) := by
  obtain ⟨path, parent⟩ := log
  cases parent <;> cases present <;> rfl

theorem openWriter_honest (log : LogFile) (present : Bool) {records : List AuditRecord}
    {head : String} (h : Sound blake3 serde m)
    (hchained : Chained blake3 serde (completeLines m.bytes) records head) :
    (Shown m.bytes → ∃ w m', (openWriter blake3 serde log).run.eval (honest present)
      m = (.ok w, m') ∧
        m'.bytes = complete m.bytes ∧ w.head = head ∧ w.nextIndex.toNat = records.length) ∧
      (¬Shown m.bytes → ∃ e, e.code = .auditChainBroken ∧
        (openWriter blake3 serde log).run.eval (honest present) m = (.error e, m)) := by
  rw [openWriter, Prog.eval_fallible_bind (openFile_honest log present m), resync, observedLength,
    eval_callAt_bind (a := m.bytes.length) rfl]
  have hstill : (honest present m .metadata).2 = m := rfl
  rw [hstill]
  rcases scanTail_honest (w := log.unread) present m 7 auditTailScanBytes (by decide) rfl
    with ⟨hshown, hscan⟩ | ⟨hhidden, e, he, hscan⟩
  · refine ⟨fun _ => ?_, fun hhidden => absurd hshown hhidden⟩
    obtain ⟨m', hdrop, hbytes⟩ := dropFragment_honest (w := log.unread) present m
    obtain ⟨w, hcontinuing, hhead, hindex, -⟩ := @continuing_eq_ok _ _ log.unread _ _ _ hchained
      (h.records_lt hchained) (complete m.bytes).length
    refine ⟨w, m', ?_, hbytes, hhead, hindex⟩
    rw [Prog.eval_fallible_bind hscan]
    simp only
    rw [Prog.eval_fallible_bind hdrop]
    show ((_ : Except CliError Writer), m') = _
    exact congrArg (fun x => (x, m')) hcontinuing
  · refine ⟨fun hshown => absurd hshown hhidden, fun _ => ⟨e, he, ?_⟩⟩
    rw [Prog.eval_fallible_bind_error hscan]

theorem openWriter_empty (log : LogFile) (present : Bool) :
    (openWriter blake3 serde log).run.eval (honest present) ⟨[], 0⟩ =
      (.ok log.unread, ⟨[], 0⟩) := by
  rw [openWriter, Prog.eval_fallible_bind (openFile_honest log present _), resync, observedLength,
    eval_callAt_bind (a := 0) rfl]
  have hscan : (scanTail log.unread 0 auditTailScanBytes (by decide)).run.eval (honest present)
      ⟨[], 0⟩ = (.ok (none, 0), ⟨[], 0⟩) := by
    rw [scanTail]
    rfl
  exact Prog.eval_fallible_bind hscan

def Writer.advanced (w : Writer) (record : AuditRecord) (length : Nat) : Writer :=
  { w with head := record.hash, nextIndex := w.nextIndex + 1, length }

theorem append_honest (entry : Entry) (present : Bool) {record : AuditRecord}
    (hlength : m.bytes.length = w.length) (hindex : w.nextIndex.toNat + 1 < 2 ^ 64)
    (hrecord : record = sealEntry blake3 entry w.nextIndex w.head)
    (hfits : m.bytes.length + (encodeLine serde record).length < 2 ^ 64) :
    (append blake3 serde entry w).eval (honest present) m =
      ((.ok record, w.advanced record (m.bytes.length + (encodeLine serde record).length)),
        (m.extended (encodeLine serde record)).synced) := by
  have hfresh : (refreshed blake3 serde w).run.eval (honest present) m = (.ok w, m) := by
    rw [refreshed, observedLength, eval_callAt_bind (a := m.bytes.length) rfl, hlength,
      if_neg (not_not.mpr rfl)]
    rfl
  have hwrite : (writeLine w (encodeLine serde record)).run.eval (honest present) m =
      (.ok (), (m.extended (encodeLine serde record)).synced) := by
    have hanswer : honest present m (.writeAll (encodeLine serde record)) =
        (.ok (), m.extended (encodeLine serde record)) := if_pos hfits
    rw [writeLine, eval_callAt_bind (a := ()) (by rw [hanswer]; rfl), hanswer]
    rfl
  have hsucc : checkedSucc w.nextIndex = some (w.nextIndex + 1) := if_pos hindex
  rw [append, Prog.eval_bind, hfresh]
  simp only [← hrecord]
  rw [Prog.eval_bind, hwrite]
  have hmin : min (w.length + (encodeLine serde record).length) (2 ^ 64 - 1) =
      m.bytes.length + (encodeLine serde record).length := by omega
  simp only [hsucc, hmin]
  rfl

end Honest

structure World (ι : Type) where
  medium : Medium
  writers : ι → Option Writer
  acknowledged : List AuditRecord

variable [DecidableEq ι]

/-- One process opens the log or appends to it, or dies at any request of either. -/
inductive Move (blake3 : Bytes → Digest) (serde : Serde) (log : LogFile) (s : World ι) :
    World ι → Prop
  | opened (p : ι) {x : Except CliError Writer} {m : Medium} :
      Prog.Run serves (openWriter blake3 serde log).run s.medium x m →
      Move blake3 serde log s
        { s with medium := m, writers := update s.writers p x.toOption }
  | appended (p : ι) (entry : Entry) {w w' : Writer} {x : Except CliError AuditRecord}
    {m : Medium} :
      s.writers p = some w →
      Prog.Run serves (append blake3 serde entry w) s.medium (x, w') m →
      Move blake3 serde log s
        { medium := m, writers := update s.writers p (some w'),
          acknowledged := s.acknowledged ++ x.toOption.toList }
  | diedOpening (p : ι) {m : Medium} :
      Prog.Cut serves (openWriter blake3 serde log).run s.medium m →
      Move blake3 serde log s { s with medium := m, writers := update s.writers p none }
  | diedAppending (p : ι) (entry : Entry) {w : Writer} {m : Medium} :
      s.writers p = some w →
      Prog.Cut serves (append blake3 serde entry w) s.medium m →
      Move blake3 serde log s { s with medium := m, writers := update s.writers p none }

/-- The power fails: what was on stable storage is there, of the rest a part that may be followed by
noise, and no process is left. -/
inductive PowerCut (s : World ι) : World ι → Prop
  | mk {n : Nat} {noise : Bytes} :
      s.medium.durable ≤ n → n ≤ s.medium.bytes.length → auditLogLineTerminator ∉ noise →
      n + noise.length < 2 ^ 64 →
      PowerCut s
        { medium := { bytes := s.medium.bytes.take n ++ noise, durable := s.medium.durable },
          writers := fun _ => none, acknowledged := s.acknowledged }

/-- Steps of any processes, and power cuts, in any order. -/
def Reach (blake3 : Bytes → Digest) (serde : Serde) (log : LogFile) : World ι → World ι → Prop :=
  Relation.ReflTransGen fun s s' => Move blake3 serde log s s' ∨ PowerCut s s'

/-- What every run keeps: the lines are a chain, every writer knows a beginning of it, and what was
acknowledged is on stable storage. -/
structure Holds (blake3 : Bytes → Digest) (serde : Serde) (s : World ι) : Prop where
  sound : Sound blake3 serde s.medium
  abreast : ∀ p w, s.writers p = some w → Abreast blake3 serde w s.medium
  acknowledged : ∃ lines, lines <+: completeLines s.medium.bytes ∧
    (unlines auditLogLineTerminator lines).length ≤ s.medium.durable ∧
    ∀ record ∈ s.acknowledged, serde.toVec record ∈ lines

variable {s s' : World ι}

omit [DecidableEq ι] in
theorem Holds.acknowledged_extends (h : Holds blake3 serde s) (hext : Extends s.medium m) :
    ∃ lines, lines <+: completeLines m.bytes ∧
      (unlines auditLogLineTerminator lines).length ≤ m.durable ∧
      ∀ record ∈ s.acknowledged, serde.toVec record ∈ lines := by
  obtain ⟨lines, hpre, hdurable, hacknowledged⟩ := h.acknowledged
  refine ⟨lines, hpre.trans (completeLines_start.mp hext.lines), ?_, hacknowledged⟩
  have hlength := (unlines_start hpre).length_le
  exact le_trans (le_min hdurable hlength) hext.durable

theorem abreast_update {p : ι} {writers : ι → Option Writer} {o : Option Writer}
    (h : ∀ q w, writers q = some w → Abreast blake3 serde w m)
    (ho : ∀ w, o = some w → Abreast blake3 serde w m) :
    ∀ q w, update writers p o q = some w → Abreast blake3 serde w m := by
  intro q w hw
  by_cases hq : q = p
  · subst hq
    rw [update_self] at hw
    exact ho w hw
  · rw [update_of_ne hq] at hw
    exact h q w hw

theorem Holds.kept (h : Holds blake3 serde s) (hkept : Kept blake3 serde s.medium m) (p : ι)
    {o : Option Writer} (ho : ∀ w, o = some w → Abreast blake3 serde w m) :
    Holds blake3 serde { s with medium := m, writers := update s.writers p o } where
  sound := hkept.1
  abreast := abreast_update (fun q w hw => (h.abreast q w hw).extends hkept.2) ho
  acknowledged := h.acknowledged_extends hkept.2

theorem Holds.move (hserde : serde.Lawful) (h : Holds blake3 serde s)
    (hmove : Move blake3 serde log s s') : Holds blake3 serde s' := by
  cases hmove with
  | opened p hrun =>
    obtain ⟨hkept, hopened⟩ := (openWriter_always h.sound).run hrun
    apply h.kept hkept p
    intro w hw
    exact (hopened w (toOption_eq_some.mp hw)).2.abreast
  | @appended p entry w w' x m hw hrun =>
    obtain ⟨hkept, habreast, happended⟩ :=
      (append_always hserde h.sound (h.abreast _ _ hw) entry).run hrun
    have hrest := h.kept hkept p (o := some w') (by
      intro w hw
      cases hw
      exact habreast)
    cases x with
    | error e =>
      show Holds blake3 serde { acknowledged := s.acknowledged ++ [], .. }
      rw [append_nil]
      exact hrest
    | ok record =>
      obtain ⟨hlines, hdurable⟩ := happended record rfl
      obtain ⟨lines, hpre, -, hacknowledged⟩ := h.acknowledged
      refine ⟨hrest.sound, hrest.abreast, completeLines m.bytes, prefix_refl _, ?_, ?_⟩
      · show _ ≤ m.durable
        rw [hdurable]
        exact (complete_start m.bytes).length_le
      · intro r hr
        rw [hlines]
        rcases mem_append.mp hr with hr | hr
        · exact mem_append_left _ (hpre.subset (hacknowledged r hr))
        · obtain rfl : r = record := mem_singleton.mp hr
          simp
  | diedOpening p hcut =>
    exact h.kept ((openWriter_always h.sound).cut hcut) p nofun
  | diedAppending p entry hw hcut =>
    exact h.kept ((append_always hserde h.sound (h.abreast _ _ hw) entry).cut hcut) p nofun

omit [DecidableEq ι] in
theorem Holds.powerCut (h : Holds blake3 serde s) (hcut : PowerCut s s') :
    Holds blake3 serde s' := by
  obtain @⟨n, noise, hdurable, hn, hnoise, hsize⟩ := hcut
  have hlines : completeLines (s.medium.bytes.take n ++ noise) =
      completeLines (s.medium.bytes.take n) := by
    rw [completeLines, linesOf_append, linesOf_of_not_mem hnoise]
    exact append_nil _
  have hpre : completeLines (s.medium.bytes.take n) <+: completeLines s.medium.bytes :=
    linesOf_prefix (List.take_prefix ..)
  have hlength : (s.medium.bytes.take n).length = n := by
    rw [length_take]
    omega
  obtain ⟨records, head, hchained⟩ := h.sound.chained
  obtain ⟨lines, hkept, hshort, hacknowledged⟩ := h.acknowledged
  refine ⟨⟨?_, ?_, ?_⟩, by simp, lines, ?_, hshort, hacknowledged⟩
  · obtain ⟨rs, head', hrest, -⟩ := hchained.of_prefix hpre
    exact ⟨rs, head', by rw [hlines]; exact hrest⟩
  · rw [length_append, hlength]
    exact hsize
  · rw [length_append, hlength]
    exact le_trans hdurable (Nat.le_add_right ..)
  · have hclean : ∀ line ∈ lines, auditLogLineTerminator ∉ line :=
      fun line hline => not_mem_of_mem_linesOf (hkept.subset hline)
    rw [hlines, completeLines, ← unlines_prefix_iff hclean]
    have hwhole := (unlines_prefix_iff hclean).mpr hkept
    apply prefix_of_prefix_length_le hwhole (List.take_prefix ..)
    rw [hlength]
    exact le_trans hshort hdurable

theorem Holds.reach (hserde : serde.Lawful) (h : Holds blake3 serde s)
    (hreach : Reach blake3 serde log s s') : Holds blake3 serde s' := by
  induction hreach with
  | refl => exact h
  | tail _ hstep ih =>
    rcases hstep with hmove | hcut
    · exact ih.move hserde hmove
    · exact ih.powerCut hcut

theorem Move.complete_start (hserde : serde.Lawful) (h : Holds blake3 serde s)
    (hmove : Move blake3 serde log s s') : complete s.medium.bytes <+: s'.medium.bytes := by
  cases hmove with
  | opened p hrun => exact ((openWriter_always h.sound).run hrun).1.2.lines
  | appended p entry hw hrun =>
    exact ((append_always hserde h.sound (h.abreast _ _ hw) entry).run hrun).1.2.lines
  | diedOpening p hcut => exact ((openWriter_always h.sound).cut hcut).2.lines
  | diedAppending p entry hw hcut =>
    exact ((append_always hserde h.sound (h.abreast _ _ hw) entry).cut hcut).2.lines

theorem index_of_verifyFrom {records : List AuditRecord} {position : Nat} {previous head : String}
    (h : verifyFrom blake3 position previous records = .ok head) (i : Nat)
    (hi : i < records.length) : records[i].index = UInt64.ofNat (position + i) := by
  induction records generalizing position previous i with
  | nil => exact absurd hi (Nat.not_lt_zero i)
  | cons r records ih =>
    obtain ⟨hcheck, hrest⟩ := verifyFrom_cons.mp h
    cases i with
    | zero => exact (checkRecord_eq_ok.mp hcheck).2.2.2.1
    | succ i =>
      rw [getElem_cons_succ, ih hrest i (Nat.lt_of_succ_lt_succ hi), Nat.add_assoc,
        Nat.add_comm 1]

/-- A log that begins as a chain and is appended to by any processes, whose calls fail, are cut
short or lose their machine anywhere: its complete lines verify, with the position of each record
for its index; every acknowledged record is among them; nothing but a fragment is ever removed; and
opening it again, if nothing fails, goes on after its last complete record, unless no complete
record is within the widest window, in which case it is refused as it is. -/
theorem appends_keep_log (hserde : serde.Lawful) (hsound : Sound blake3 serde s.medium)
    (hwriters : ∀ p, s.writers p = none) (hacknowledged : s.acknowledged = [])
    (hreach : Reach blake3 serde log s s') :
    ∃ records verified, readRecords serde (completeLines s'.medium.bytes) = .ok records ∧
      verify blake3 records = .ok verified ∧
      (∀ i (hi : i < records.length), (records[i]).index.toNat = i) ∧
      (∀ record ∈ s'.acknowledged, record ∈ records) ∧
      (∀ present, Shown s'.medium.bytes → ∃ w m,
        (openWriter blake3 serde log).run.eval (honest present) s'.medium = (.ok w, m) ∧
          m.bytes = complete s'.medium.bytes ∧ w.head = verified.head ∧
          w.nextIndex.toNat = records.length) ∧
      (∀ present, ¬Shown s'.medium.bytes → ∃ e : CliError, e.code = .auditChainBroken ∧
        (openWriter blake3 serde log).run.eval (honest present) s'.medium =
          (.error e, s'.medium)) ∧
      ∀ s'', Move blake3 serde log s' s'' → complete s'.medium.bytes <+: s''.medium.bytes := by
  have hstart : Holds blake3 serde s := by
    refine ⟨hsound, ?_, [], nil_prefix, Nat.zero_le _, ?_⟩
    · intro p w hw
      rw [hwriters p] at hw
      cases hw
    · rw [hacknowledged]
      exact nofun
  have hend := hstart.reach hserde hreach
  obtain ⟨records, head, hchained⟩ := hend.sound.chained
  have hlt := hend.sound.records_lt hchained
  refine ⟨records, { records := records.length, head }, hchained.reads,
    verify_eq_ok.mpr ⟨hchained.verifies, rfl⟩, ?_, ?_, ?_, ?_, ?_⟩
  · intro i hi
    rw [index_of_verifyFrom hchained.verifies i hi, Nat.zero_add]
    exact UInt64.toNat_ofNat_of_lt' (by simp only [UInt64.size]; omega)
  · intro record hrecord
    obtain ⟨lines, hpre, -, hmem⟩ := hend.acknowledged
    exact mem_of_readRecords hchained.reads (hpre.subset (hmem record hrecord))
      (hserde.not_blank record) (hserde.fromSlice_toVec record)
  · exact fun present => (openWriter_honest log present hend.sound hchained).1
  · exact fun present => (openWriter_honest log present hend.sound hchained).2
  · exact fun s'' hmove => hmove.complete_start hserde hend

def exampleLog : LogFile := { path := "audit.jsonl", parent := none }

def exampleBlake3 (bytes : Bytes) : Digest := Block.replicate 32 (UInt8.ofNat bytes.length)

def copyEntry (path : Scrubbed) : Entry where
  time := field "2026-07-26T14:30:00Z"
  op := field "copy"
  result := field "success"
  direction := field "in"
  path
  size := 1024
  bytes := 1024
  objects := 1
  plaintextHash := field ""
  ciphertextHash := field ""
  remote := field "vault"

def firstRecord (path : Scrubbed) : AuditRecord :=
  sealEntry exampleBlake3 (copyEntry path) auditChainFirstIndex auditChainGenesisPrev

def firstLine (path : Scrubbed) : Bytes := encodeLine flatJson (firstRecord path)

def emptyWorld : World Unit where
  medium := ⟨[], 0⟩
  writers _ := none
  acknowledged := []

def openedWorld : World Unit where
  medium := ⟨[], 0⟩
  writers := update emptyWorld.writers () (some exampleLog.unread)
  acknowledged := []

def copiedWorld (path : Scrubbed) : World Unit where
  medium := (openedWorld.medium.extended (firstLine path)).synced
  writers := update openedWorld.writers ()
    (some (exampleLog.unread.advanced (firstRecord path)
      (openedWorld.medium.bytes.length + (firstLine path).length)))
  acknowledged := [firstRecord path]

theorem bytes_copiedWorld (path : Scrubbed) : (copiedWorld path).medium.bytes = firstLine path :=
  nil_append _

theorem emptyWorld_sound : Sound exampleBlake3 flatJson emptyWorld.medium :=
  ⟨⟨[], auditChainGenesisPrev, rfl, rfl⟩, by decide, Nat.le_refl _⟩

theorem reach_copiedWorld (path : Scrubbed) (hfits : (firstLine path).length < 2 ^ 64) :
    Reach exampleBlake3 flatJson exampleLog emptyWorld (copiedWorld path) := by
  have hopen := Prog.run_eval (serves_honest false)
    (openWriter exampleBlake3 flatJson exampleLog).run ⟨[], 0⟩
  rw [openWriter_empty] at hopen
  have happend := Prog.run_eval (serves_honest false)
    (append exampleBlake3 flatJson (copyEntry path) exampleLog.unread) openedWorld.medium
  have hsealed : firstRecord path = sealEntry exampleBlake3 (copyEntry path)
      exampleLog.unread.nextIndex exampleLog.unread.head := rfl
  have hlength : openedWorld.medium.bytes.length + (encodeLine flatJson (firstRecord path)).length <
      2 ^ 64 := by
    show 0 + (firstLine path).length < 2 ^ 64
    rw [Nat.zero_add]
    exact hfits
  rw [append_honest (copyEntry path) false rfl (by decide) hsealed hlength, ← firstLine] at happend
  have hopened : Move exampleBlake3 flatJson exampleLog emptyWorld openedWorld :=
    Move.opened () (x := .ok exampleLog.unread) hopen
  have hwriter : openedWorld.writers () = some exampleLog.unread := rfl
  have happended : Move exampleBlake3 flatJson exampleLog openedWorld (copiedWorld path) :=
    Move.appended () (copyEntry path) (x := .ok (firstRecord path)) hwriter happend
  have hfirst : Reach exampleBlake3 flatJson exampleLog emptyWorld openedWorld :=
    Relation.ReflTransGen.single (Or.inl hopened)
  exact Relation.ReflTransGen.tail hfirst (Or.inl happended)

theorem copiedWorld_not_shown {path : Scrubbed}
    (hpath : auditTailScanLimitBytes ≤ path.text.toList.length) :
    ¬Shown (copiedWorld path).medium.bytes := by
  have hline := length_path_le (firstRecord path)
  have hlines : completeLines (firstLine path) = [flatJson.toVec (firstRecord path)] :=
    linesOf_line (flatJson_lawful.terminator_notMem _)
  rw [bytes_copiedWorld]
  rintro (hshort | ⟨before, line, after, hsplit, hbefore, -⟩)
  · have hlength : (firstLine path).length = (flatJson.toVec (firstRecord path)).length + 1 := by
      rw [firstLine, encodeLine, length_append, length_singleton]
    have htext : (firstRecord path).path = path.text := rfl
    rw [htext] at hline
    omega
  · have hcount := congrArg List.length (hlines.symm.trans hsplit)
    simp only [length_append, length_cons, length_nil] at hcount
    exact hbefore (length_eq_zero_iff.mp (by omega))

def letters (n : Nat) : Scrubbed where
  text := String.ofList (List.replicate n 'a')
  clean := by
    intro c hc
    rw [String.toList_ofList] at hc
    rw [eq_of_mem_replicate hc]
    decide

theorem length_letters (n : Nat) : (letters n).text.toList.length = n := by
  rw [letters, String.toList_ofList, length_replicate]

theorem length_firstLine_le (path : Scrubbed) :
    (firstLine path).length ≤ 24 * path.text.toList.length + 9000 := by
  have hline := length_toVec_le (firstRecord path)
  have hhash : (firstRecord path).hash.toList.length = 64 := length_hexEncode _
  have hprev : (firstRecord path).prev.toList.length = 64 := by
    show auditChainGenesisPrev.toList.length = 64
    decide
  have htime : (copyEntry path).time.text.toList.length = 20 := by
    show (field "2026-07-26T14:30:00Z").text.toList.length = 20
    decide
  have hop : (copyEntry path).op.text.toList.length = 4 := by
    show (field "copy").text.toList.length = 4
    decide
  have hresult : (copyEntry path).result.text.toList.length = 7 := by
    show (field "success").text.toList.length = 7
    decide
  have hdirection : (copyEntry path).direction.text.toList.length = 2 := by
    show (field "in").text.toList.length = 2
    decide
  have hempty : (field "").text.toList.length = 0 := by decide
  have hremote : (copyEntry path).remote.text.toList.length = 5 := by
    show (field "vault").text.toList.length = 5
    decide
  have hstrings : ((firstRecord path).strings.map fun s => s.toList.length).sum =
      path.text.toList.length + 38 := by
    show (copyEntry path).time.text.toList.length + ((copyEntry path).op.text.toList.length +
      ((copyEntry path).result.text.toList.length + ((copyEntry path).direction.text.toList.length +
        (path.text.toList.length + ((field "").text.toList.length +
          ((field "").text.toList.length +
            ((copyEntry path).remote.text.toList.length + 0))))))) = _
    omega
  rw [firstLine, encodeLine, length_append, length_singleton]
  omega

/-- One acknowledged record of a path of a mebibyte, and the log cannot be opened again. -/
theorem long_record_blocks_log :
    Reach exampleBlake3 flatJson exampleLog emptyWorld
        (copiedWorld (letters auditTailScanLimitBytes)) ∧
      (copiedWorld (letters auditTailScanLimitBytes)).acknowledged =
        [firstRecord (letters auditTailScanLimitBytes)] ∧
      ∃ e : CliError, e.code = .auditChainBroken ∧
        (openWriter exampleBlake3 flatJson exampleLog).run.eval (honest true)
            (copiedWorld (letters auditTailScanLimitBytes)).medium =
          (.error e, (copiedWorld (letters auditTailScanLimitBytes)).medium) := by
  have hlength := length_letters auditTailScanLimitBytes
  have hbound := length_firstLine_le (letters auditTailScanLimitBytes)
  rw [hlength] at hbound
  have hreach := reach_copiedWorld (letters auditTailScanLimitBytes)
    (lt_of_le_of_lt hbound (by decide))
  have hstart : Holds exampleBlake3 flatJson emptyWorld :=
    ⟨emptyWorld_sound, nofun, [], nil_prefix, Nat.zero_le _, nofun⟩
  have hsound := (hstart.reach flatJson_lawful hreach).sound
  obtain ⟨records, head, hchained⟩ := hsound.chained
  exact ⟨hreach, rfl, (openWriter_honest exampleLog true hsound hchained).2
    (copiedWorld_not_shown hlength.ge)⟩

/-- The power fails behind the record, and leaves a byte that no one wrote. -/
def tornWorld (path : Scrubbed) : World Unit where
  medium := ⟨(copiedWorld path).medium.bytes.take (copiedWorld path).medium.bytes.length ++ [0],
    (copiedWorld path).medium.durable⟩
  writers _ := none
  acknowledged := (copiedWorld path).acknowledged

/-- A short record is there after the power failed, and the log is opened again behind it. -/
theorem appends_keep_log_torn :
    Reach exampleBlake3 flatJson exampleLog emptyWorld (tornWorld (letters 5)) ∧
      ∃ records verified,
        readRecords flatJson (completeLines (tornWorld (letters 5)).medium.bytes) = .ok records ∧
          verify exampleBlake3 records = .ok verified ∧ firstRecord (letters 5) ∈ records ∧
          ∃ w m, (openWriter exampleBlake3 flatJson exampleLog).run.eval (honest true)
            (tornWorld (letters 5)).medium = (.ok w, m) ∧ w.head = verified.head := by
  have hbound := length_firstLine_le (letters 5)
  rw [length_letters] at hbound
  have hlength : (copiedWorld (letters 5)).medium.bytes.length ≤ 24 * 5 + 9000 := by
    rwa [bytes_copiedWorld]
  have hcut : ∀ path, (copiedWorld path).medium.bytes.length ≤ 24 * 5 + 9000 →
      PowerCut (copiedWorld path) (tornWorld path) := fun path hpath =>
    @PowerCut.mk _ _ (copiedWorld path).medium.bytes.length [0] (Nat.le_refl _) (Nat.le_refl _)
      (by decide) (by rw [length_singleton]; omega)
  have hreach : Reach exampleBlake3 flatJson exampleLog emptyWorld (tornWorld (letters 5)) :=
    (reach_copiedWorld (letters 5) (lt_of_le_of_lt hbound (by decide))).tail (.inr (hcut _ hlength))
  obtain ⟨records, verified, hread, hverify, -, hmem, hopen, -⟩ :=
    appends_keep_log flatJson_lawful emptyWorld_sound (fun _ => rfl) rfl hreach
  have hshown : Shown (tornWorld (letters 5)).medium.bytes := by
    left
    show ((copiedWorld (letters 5)).medium.bytes.take _ ++ [0]).length ≤ _
    rw [take_length, length_append]
    simp only [length_singleton, auditTailScanLimitBytes]
    omega
  obtain ⟨w, m, heval, -, hhead, -⟩ := hopen true hshown
  exact ⟨hreach, records, verified, hread, hverify, hmem _ (mem_singleton.mpr rfl), w, m, heval,
    hhead⟩

end Dctl.Audit

namespace Dctl.Audit

open ProofKit Cli Crypto

variable {log front window : Bytes} {anchored : Bool} {tail : Tail} {w : Writer}
  {asked : List LogRequest}

/-- Two logs end with the window, and differ in their last record or in the fragment behind it. -/
def Undetermined (window : Bytes) : Prop :=
  ∃ front front' : Bytes, tailOf (front ++ window) ≠ tailOf (front' ++ window)

theorem frame_whole (log : Bytes) : frame log true = .resolved (tailOf log) := by
  rw [frame_eq]
  rfl

theorem frame_resolved (hfront : anchored = true → front = [])
    (h : frame window anchored = .resolved tail) : tail = tailOf (front ++ window) := by
  by_cases hshown : anchored = true ∨ Within (front ++ window) window.length
  · have hframe := frame_eq_resolved hfront hshown
    rw [h] at hframe
    exact Framing.resolved.inj hframe
  · rw [not_or, Bool.not_eq_true] at hshown
    rw [hshown.1, frame_eq_needMore hshown.2] at h
    cases h

theorem tailOf_cons {x : UInt8} (hx : isAsciiWhitespace x = false)
    (h : lastRecord (linesOf auditLogLineTerminator window).tail = none) :
    tailOf (x :: window) =
      match linesOf auditLogLineTerminator window with
      | [] => { last := none, fragment := x :: fragmentOf auditLogLineTerminator window }
      | first :: _ =>
        { last := some (x :: first), fragment := fragmentOf auditLogLineTerminator window } := by
  have hne : x ≠ auditLogLineTerminator := by
    rintro rfl
    cases hx
  rw [tailOf, linesOf_cons hne, fragmentOf_cons hne]
  cases hlines : linesOf auditLogLineTerminator window with
  | nil => simp [continued, lastRecord]
  | cons first rest =>
    rw [hlines, List.tail_cons] at h
    have hline : lastRecord ([x :: first] ++ rest) = some (x :: first) := by
      rw [lastRecord_append, h]
      simp [lastRecord, isBlank, hx]
    simp only [continued, List.singleton_append] at hline ⊢
    rw [hline]
    simp

theorem undetermined_of_needMore (h : frame window anchored = .needMore) :
    anchored = false ∧ Undetermined window := by
  rw [frame_eq] at h
  cases anchored with
  | true => cases h
  | false =>
    refine ⟨rfl, [0x61], [0x62], ?_⟩
    have hnone : lastRecord (linesOf auditLogLineTerminator window).tail = none := by
      cases hlast : lastRecord (linesOf auditLogLineTerminator window).tail with
      | none => rfl
      | some last =>
        rw [hlast] at h
        cases h
    show tailOf (0x61 :: window) ≠ tailOf (0x62 :: window)
    rw [tailOf_cons (by decide) hnone, tailOf_cons (by decide) hnone]
    cases linesOf auditLogLineTerminator window <;> simp

def recorder (log : Bytes) (asked : List LogRequest) (r : LogRequest) :
    r.Answer × List LogRequest :=
  ((honest true ⟨log, log.length⟩ r).1, asked ++ [r])

abbrev tailRead (log : Bytes) (window : Nat) : LogRequest :=
  .readExact (log.length - window) (log.length - (log.length - window))

theorem eval_tailRead {path : String} {β : Type} {f : Bytes → LogM β} {window : Nat} :
    (callAt path (tailRead log window) id >>= f).run.eval (recorder log) asked =
      (f (log.drop (log.length - window))).run.eval (recorder log)
        (asked ++ [tailRead log window]) := by
  apply Prog.eval_fallible_bind
  have hread : (honest true ⟨log, log.length⟩ (tailRead log window)).1 =
      .ok (log.drop (log.length - window)) := by
    rw [honest, if_pos (by simp), take_lastBytes]
  show (((honest true ⟨log, log.length⟩ (tailRead log window)).1.mapError (atPath path)), _) = _
  rw [hread]
  rfl

/-- What a scan gives in the end: the end of the log, or the refusal of the widest window. -/
def ScanAnswer (w : Writer) (log : Bytes) (x : Except CliError (Option Bytes × Nat)) : Prop :=
  x = .ok ((tailOf log).last, (tailOf log).fragment.length) ∨
    (auditTailScanLimitBytes < log.length ∧ ¬Within log auditTailScanLimitBytes ∧
      x = .error (w.broken ("its last " ++ auditTailScanLimitBytes.repr ++
        " bytes contain no complete record")))

theorem scanTail_reads (k window : Nat) (hwindow : 0 < window)
    (hlimit : window * 2 ^ k = auditTailScanLimitBytes) (asked : List LogRequest) :
    ∃ n ≤ k, ∃ x, (scanTail w log.length window hwindow).run.eval (recorder log) asked =
        (x, asked ++ (List.range (n + 1)).map fun i => tailRead log (window * 2 ^ i)) ∧
      ScanAnswer w log x := by
  induction k generalizing window asked with
  | zero =>
    rw [pow_zero, Nat.mul_one] at hlimit
    rw [scanTail, eval_tailRead]
    refine ⟨0, Nat.le_refl 0, ?_⟩
    rcases frame_window log window with ⟨-, hframe⟩ | ⟨hhidden, hframe⟩
    · rw [hframe]
      exact ⟨_, by simp; rfl, .inl rfl⟩
    · rw [hframe]
      simp only [hlimit, Nat.le_refl, ↓reduceDIte]
      rw [not_or, not_le, hlimit] at hhidden
      exact ⟨_, by simp; rfl, .inr ⟨hhidden.1, hhidden.2, rfl⟩⟩
  | succ k ih =>
    rw [scanTail, eval_tailRead]
    rcases frame_window log window with ⟨-, hframe⟩ | ⟨-, hframe⟩
    · rw [hframe]
      exact ⟨0, Nat.zero_le _, _, by simp; rfl, .inl rfl⟩
    · obtain ⟨hdouble, hbelow⟩ := window_succ hwindow hlimit
      rw [hframe]
      simp only [hbelow, ↓reduceDIte]
      obtain ⟨n, hn, x, heval, hx⟩ :=
        ih (window * 2) (by omega) hdouble (asked ++ [tailRead log window])
      refine ⟨n + 1, by omega, x, ?_, hx⟩
      rw [heval, List.append_assoc, List.singleton_append, List.range_succ_eq_map (n := n + 1),
        List.map_cons, pow_zero, Nat.mul_one, List.map_map]
      congr 4
      funext i
      show tailRead log (window * 2 * 2 ^ i) = tailRead log (window * 2 ^ (i + 1))
      rw [pow_succ, Nat.mul_assoc, Nat.mul_comm 2]

/-- A window that resolves shows the end of the whole log, one that does not leaves it open, and the
scan ends after eight reads at most. -/
theorem tail_scan_correct (log : Bytes) :
    (∀ front window anchored, log = front ++ window → (anchored = true → front = []) →
      (∀ tail, frame window anchored = .resolved tail → tail = tailOf log ∧
        frame log true = .resolved tail) ∧
        (frame window anchored = .needMore → anchored = false ∧ Undetermined window)) ∧
    ∀ w : Writer, ∃ n ≤ 7, ∃ x, (scanTail w log.length auditTailScanBytes (by decide)).run.eval
      (recorder log) [] =
        (x, (List.range (n + 1)).map fun i => tailRead log (auditTailScanBytes * 2 ^ i)) ∧
      ScanAnswer w log x := by
  constructor
  · rintro front window anchored rfl hfront
    refine ⟨fun tail h => ?_, undetermined_of_needMore⟩
    have htail := frame_resolved hfront h
    exact ⟨htail, by rw [frame_whole, htail]⟩
  · intro w
    exact scanTail_reads 7 auditTailScanBytes (by decide) (by decide) []

/-- The window behind the first byte of `a`, `b` and a torn `c`. -/
theorem tail_scan_torn : (⟨some [0x62], [0x63]⟩ : Tail) = tailOf [0x61, 0x0a, 0x62, 0x0a, 0x63] ∧
    frame [0x61, 0x0a, 0x62, 0x0a, 0x63] true = .resolved ⟨some [0x62], [0x63]⟩ :=
  ((tail_scan_correct [0x61, 0x0a, 0x62, 0x0a, 0x63]).1 [0x61] [0x0a, 0x62, 0x0a, 0x63] false
    rfl nofun).1 _
    (by rw [frame_eq]; rfl)

end Dctl.Audit
