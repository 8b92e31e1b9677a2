import Dctl.Audit.Log

/-! What an append promises.  Each call of a writer, cut short anywhere, leaves the complete lines
of the log a chain; from there a run of any number of processes keeps every record that an append
reported, and a log that is opened again goes on after its last complete record. -/

namespace Dctl.Audit

open ProofKit Cli Crypto List Prog

variable {blake3 : Bytes → Digest} {serde : Serde} {w w' : Writer} {m m' : Medium} {path : String}
  {α β : Type} {log : LogFile}

/-- Where a sound log may be when a call is cut short. -/
def Kept (blake3 : Bytes → Digest) (serde : Serde) (m m' : Medium) : Prop :=
  Sound blake3 serde m' ∧ Extends m m'

theorem Kept.refl (h : Sound blake3 serde m) : Kept blake3 serde m m := ⟨h, Extends.refl m⟩

theorem Kept.trans {m'' : Medium} (h : Kept blake3 serde m m') (h' : Kept blake3 serde m' m'') :
    Kept blake3 serde m m'' := ⟨h'.1, h.2.trans h'.2⟩

variable {r : LogRequest} {I : Medium → Prop}

theorem callAt_always {as : r.Answer → Except CliError α} {post : Except CliError α → Medium → Prop}
    (hI : I m)
    (h : ∀ x m', serves m r x m' → I m' ∧ (∀ e, post (.error e) m') ∧ ∀ a, as x = .ok a →
      post (.ok a) m') :
    (callAt path r as).run.Always serves I post m := by
  apply always_request hI
  intro x m' hserve
  obtain ⟨hI', herror, hok⟩ := h x m' hserve
  refine ⟨hI', ?_⟩
  cases hx : as x with
  | error e => exact herror _
  | ok a => exact hok a hx

theorem callAt_bind_always {as : r.Answer → Except CliError α} {f : α → LogM β}
    {post : Except CliError β → Medium → Prop} (hI : I m)
    (h : ∀ x m', serves m r x m' → I m' ∧ (∀ e, post (.error e) m') ∧ ∀ a, as x = .ok a →
      (f a).run.Always serves I post m') :
    (callAt path r as >>= f).run.Always serves I post m :=
  Prog.Always.fallible_bind (callAt_always hI h)

theorem take_lastBytes (bytes : Bytes) (window : Nat) :
    (bytes.drop (bytes.length - window)).take (bytes.length - (bytes.length - window)) =
      bytes.drop (bytes.length - window) := by
  rw [take_of_length_le]
  rw [length_drop]

theorem scanTail_always (hI : I m) (window : Nat) (hwindow : 0 < window) :
    (scanTail w m.bytes.length window hwindow).run.Always serves I
      (fun x m' => m' = m ∧ ∀ last fragment, x = .ok (last, fragment) →
        last = (tailOf m.bytes).last ∧ fragment = (tailOf m.bytes).fragment.length) m := by
  induction hspan : auditTailScanLimitBytes - window using Nat.strongRecOn generalizing window with
  | ind span ih =>
    rw [scanTail]
    apply callAt_bind_always hI
    intro x m' hserve
    obtain ⟨hbytes, rfl⟩ := hserve
    refine ⟨hI, fun e => ⟨rfl, nofun⟩, ?_⟩
    intro buffer hbuffer
    obtain ⟨-, hbuffer⟩ := hbytes buffer hbuffer
    rw [take_lastBytes] at hbuffer
    rcases frame_window m'.bytes window with ⟨-, hframe⟩ | ⟨-, hframe⟩
    · rw [hbuffer, hframe]
      refine ⟨hI, rfl, ?_⟩
      intro last fragment hx
      cases hx
      exact ⟨rfl, rfl⟩
    · rw [hbuffer, hframe]
      simp only
      split
      next => exact ⟨hI, rfl, nofun⟩
      next hlimit =>
        have hbelow : window < 1048576 := Nat.lt_of_not_le hlimit
        exact ih _ (by simp only [auditTailScanLimitBytes] at *; omega) _ _ rfl

theorem dropFragment_always (h : Sound blake3 serde m) :
    (dropFragment w m.bytes.length (tailOf m.bytes).fragment.length).run.Always serves
      (Kept blake3 serde m)
      (fun x m' => ∀ length, x = .ok length → m'.bytes = complete m.bytes ∧
        length = m'.bytes.length) m := by
  have hresized : Kept blake3 serde m
      (m.resized (m.bytes.length - (tailOf m.bytes).fragment.length)) :=
    ⟨sound_resized h, extends_resized m⟩
  have hlength : m.bytes.length - (tailOf m.bytes).fragment.length = (complete m.bytes).length := by
    rw [complete, length_unlines_linesOf]
    rfl
  rw [dropFragment]
  split
  next =>
    apply callAt_bind_always (Kept.refl h)
    intro x m' hserve
    rcases hserve with ⟨rfl, e, rfl⟩ | ⟨rfl, rfl⟩
    · exact ⟨Kept.refl h, by simp, by simp⟩
    refine ⟨hresized, by simp, ?_⟩
    intro _ _
    apply callAt_bind_always hresized
    intro x m' hserve
    rcases hserve with ⟨rfl, e, rfl⟩ | ⟨rfl, rfl⟩
    · exact ⟨hresized, by simp, by simp⟩
    have hsynced : Kept blake3 serde m
        (m.resized (m.bytes.length - (tailOf m.bytes).fragment.length)).synced :=
      ⟨hresized.1.synced, hresized.2.trans (extends_synced hresized.1)⟩
    refine ⟨hsynced, by simp, ?_⟩
    intro _ _
    refine ⟨hsynced, ?_⟩
    intro length hx
    cases hx
    exact ⟨bytes_resized m, hlength.trans (congrArg List.length (bytes_resized m)).symm⟩
  next hfragment =>
    refine ⟨Kept.refl h, ?_⟩
    intro length hx
    cases hx
    have hzero : (tailOf m.bytes).fragment.length = 0 := by omega
    rw [hzero, Nat.sub_zero] at hlength
    exact ⟨((complete_start m.bytes).eq_of_length hlength.symm).symm, rfl⟩

theorem continuing_eq_ok {lines : List Bytes} {records : List AuditRecord} {head : String}
    (h : Chained blake3 serde lines records head) (hsize : records.length < 2 ^ 64) (length : Nat) :
    ∃ w', w.continuing blake3 serde (lastRecord lines) length = .ok w' ∧ w'.head = head ∧
      w'.nextIndex.toNat = records.length ∧ w'.length = length := by
  have hlast := h.last
  cases hrecord : lastRecord lines with
  | none =>
    rw [hrecord] at hlast
    obtain ⟨rfl, rfl⟩ := hlast
    exact ⟨_, rfl, rfl, rfl, rfl⟩
  | some line =>
    rw [hrecord] at hlast
    obtain ⟨rs, record, rfl, hdecoded, rfl, hhash, hindex, hcontent⟩ := hlast
    rw [length_append, length_singleton] at hsize ⊢
    have hposition : record.index.toNat = rs.length := by
      rw [hindex]
      exact UInt64.toNat_ofNat_of_lt' (by simp only [UInt64.size]; omega)
    have hnext : checkedSucc record.index = some (record.index + 1) := by
      rw [checkedSucc, hposition, if_pos hsize]
    refine ⟨{ w with head := record.hash, nextIndex := record.index + 1, length }, ?_, rfl, ?_, rfl⟩
    · simp [Writer.continuing, hdecoded, hnext, hhash, hcontent, reject, okOr, Except.mapError]
    · rw [UInt64.toNat_add, hposition]
      exact Nat.mod_eq_of_lt hsize

theorem resync_always (h : Sound blake3 serde m) :
    (resync blake3 serde w).run.Always serves (Kept blake3 serde m)
      (fun x m' => ∀ w', x = .ok w' → completeLines m'.bytes = completeLines m.bytes ∧
        AtEnd blake3 serde w' m') m := by
  rw [resync, observedLength]
  apply callAt_bind_always (Kept.refl h)
  intro x m' hserve
  obtain ⟨hlength, rfl⟩ := hserve
  refine ⟨Kept.refl h, nofun, ?_⟩
  intro length hx
  rw [hlength length hx]
  apply Prog.Always.fallible_bind
  apply (scanTail_always (Kept.refl h) auditTailScanBytes _).mono fun _ h => h
  intro x m'' hkept hscan
  obtain ⟨rfl, hscan⟩ := hscan
  cases x with
  | error e => exact nofun
  | ok scanned =>
    obtain ⟨hlast, hfragment⟩ := hscan scanned.1 scanned.2 rfl
    simp only [hlast, hfragment]
    apply Prog.Always.fallible_bind
    apply (dropFragment_always h).mono fun _ h => h
    intro x m' hkept hdropped
    cases x with
    | error e => exact nofun
    | ok length =>
      obtain ⟨hbytes, rfl⟩ := hdropped length rfl
      refine ⟨hkept, ?_⟩
      intro w' hw'
      obtain ⟨records, head, hchained⟩ := h.chained
      obtain ⟨w'', hcontinuing, rfl, hindex, hlength⟩ :=
        @continuing_eq_ok _ _ w _ _ _ hchained (h.records_lt hchained) m'.bytes.length
      obtain rfl : w'' = w' := Except.ok.inj (hcontinuing.symm.trans hw')
      have hlines : completeLines m'.bytes = completeLines m''.bytes := by
        rw [hbytes, complete_complete]
      refine ⟨hlines, ?_, hlength, ?_⟩
      · rw [complete, hlines, ← complete, hbytes]
      · rw [hlines]
        exact ⟨records, hchained, hindex⟩

/-- The requests that neither read nor change the bytes of the log. -/
def LogRequest.Idle : LogRequest → Prop
  | .pathExists | .parentExists | .createDirAll | .hardenDirectory | .openAppending
  | .syncDirectory => True
  | _ => False

theorem serves_idle {x : r.Answer} (hr : r.Idle) (h : serves m r x m') : m' = m := by
  cases r <;> first | exact hr.elim | exact h

theorem callAt_asks {as : r.Answer → Except CliError α} (hr : r.Idle) :
    (callAt path r as).run.Asks LogRequest.Idle :=
  asks_bind (asks_query hr) fun _ => asks_ofExcept _

theorem prepareParent_asks (parent : Option String) :
    (prepareParent parent).run.Asks LogRequest.Idle := by
  cases parent with
  | none => exact asks_pure _
  | some parent =>
    rw [prepareParent]
    apply asks_bind (asks_query (by trivial))
    intro existed
    apply asks_bind (callAt_asks (by trivial))
    intro _
    split
    · exact asks_pure _
    · exact callAt_asks trivial

theorem openFile_asks (log : LogFile) : (openFile log).run.Asks LogRequest.Idle := by
  rw [openFile]
  apply asks_bind (asks_query (by trivial))
  intro existed
  apply asks_bind (prepareParent_asks log.parent)
  intro _
  apply asks_bind (callAt_asks (by trivial))
  intro _
  split
  · exact asks_query (r := LogRequest.syncDirectory) trivial
  · exact asks_pure _

theorem openWriter_always (h : Sound blake3 serde m) :
    (openWriter blake3 serde log).run.Always serves (Kept blake3 serde m)
      (fun x m' => ∀ w', x = .ok w' → completeLines m'.bytes = completeLines m.bytes ∧
        AtEnd blake3 serde w' m') m := by
  apply Prog.Always.fallible_bind
  have hidle := (openFile_asks log).always (I := fun m' => m' = m)
    (fun s r x s' hr hs (hserve : serves s r x s') => (serves_idle hr hserve).trans hs) rfl
  apply hidle.mono
  · rintro _ rfl
    exact Kept.refl h
  · rintro x _ rfl -
    cases x with
    | error e => exact nofun
    | ok _ => exact resync_always h

theorem refreshed_always (h : Sound blake3 serde m) (hw : Abreast blake3 serde w m) :
    (refreshed blake3 serde w).run.Always serves (Kept blake3 serde m)
      (fun x m' => ∀ w', x = .ok w' → completeLines m'.bytes = completeLines m.bytes ∧
        AtEnd blake3 serde w' m') m := by
  apply callAt_bind_always (Kept.refl h)
  intro x m' hserve
  obtain ⟨hlength, rfl⟩ := hserve
  refine ⟨Kept.refl h, nofun, ?_⟩
  intro observed hx
  rw [hlength observed hx]
  split
  next => exact resync_always h
  next hsame =>
    refine ⟨Kept.refl h, ?_⟩
    intro w' hw'
    cases hw'
    exact ⟨rfl, hw.atEnd (not_not.mp hsame)⟩

section Extended

variable {records : List AuditRecord} {head : String} {record : AuditRecord} {entry : Entry}

section

variable (hserde : serde.Lawful) (hwhole : complete m.bytes = m.bytes)
include hserde hwhole

theorem completeLines_extended :
    completeLines (m.extended (encodeLine serde record)).bytes =
      completeLines m.bytes ++ [serde.toVec record] := by
  have hclean : ∀ line ∈ completeLines m.bytes, auditLogLineTerminator ∉ line :=
    fun _ h => not_mem_of_mem_linesOf h
  have happend := (linesOf_unlines_append hclean (encodeLine serde record)).1
  rwa [encodeLine, linesOf_line (hserde.terminator_notMem record), ← encodeLine, ← complete, hwhole]
    at happend

theorem complete_extended :
    complete (m.extended (encodeLine serde record)).bytes =
      (m.extended (encodeLine serde record)).bytes := by
  rw [complete, completeLines_extended hserde hwhole, unlines_append, ← complete, hwhole,
    unlines_cons, unlines_nil]
  rfl

theorem completeLines_torn {n : Nat} (hn : n ≤ (serde.toVec record).length) :
    completeLines (m.extended ((encodeLine serde record).take n)).bytes =
      completeLines m.bytes := by
  have hclean : ∀ line ∈ completeLines m.bytes, auditLogLineTerminator ∉ line :=
    fun _ h => not_mem_of_mem_linesOf h
  have htorn : auditLogLineTerminator ∉ (encodeLine serde record).take n := by
    rw [encodeLine, take_append_of_le_length hn]
    intro hmem
    exact hserde.terminator_notMem record (mem_of_mem_take hmem)
  have happend := (linesOf_unlines_append hclean ((encodeLine serde record).take n)).1
  rwa [linesOf_of_not_mem htorn, append_nil, ← complete, hwhole] at happend

end

section

variable (hserde : serde.Lawful) (h : Sound blake3 serde m) (hwhole : complete m.bytes = m.bytes)
  (hchained : Chained blake3 serde (completeLines m.bytes) records head)
include hserde h hwhole hchained

theorem sound_extended (n : Nat)
    (hrecord : record = sealEntry blake3 entry (UInt64.ofNat records.length) head)
    (hsize : n = 0 ∨ (m.extended ((encodeLine serde record).take n)).bytes.length < 2 ^ 64) :
    Sound blake3 serde (m.extended ((encodeLine serde record).take n)) := by
  refine ⟨?_, ?_, ?_⟩
  · by_cases hn : n ≤ (serde.toVec record).length
    · rw [completeLines_torn hserde hwhole hn]
      exact h.chained
    · have hfull : (encodeLine serde record).take n = encodeLine serde record := by
        apply take_of_length_le
        rw [encodeLine, length_append, length_singleton]
        omega
      rw [hfull, completeLines_extended hserde hwhole, hrecord]
      exact ⟨_, _, hchained.concat hserde entry⟩
  · rcases hsize with rfl | hsize
    · rw [take_zero, Medium.extended, append_nil]
      exact h.size
    · exact hsize
  · have hdurable := h.durable_le
    simp only [Medium.extended, length_append]
    omega

theorem writeLine_always
    (hrecord : record = sealEntry blake3 entry (UInt64.ofNat records.length) head) :
    (writeLine w (encodeLine serde record)).run.Always serves (Kept blake3 serde m)
      (fun x m' => x = .ok () → m' = (m.extended (encodeLine serde record)).synced) m := by
  apply callAt_bind_always (Kept.refl h)
  intro x m' hserve
  obtain ⟨n, rfl, hsize, hfull⟩ := hserve
  have hsound := sound_extended hserde h hwhole hchained n hrecord hsize
  have hkept : Kept blake3 serde m (m.extended ((encodeLine serde record).take n)) :=
    ⟨hsound, extends_extended m _⟩
  refine ⟨hkept, nofun, ?_⟩
  intro _ hx
  rw [take_of_length_le (hfull hx)] at hkept hsound ⊢
  apply callAt_bind_always hkept
  rintro x _ rfl
  refine ⟨hkept, nofun, ?_⟩
  intro _ _
  apply callAt_always hkept
  intro x m' hserve
  rcases hserve with ⟨rfl, e, rfl⟩ | ⟨rfl, rfl⟩
  · exact ⟨hkept, nofun, nofun⟩
  · exact ⟨hkept.trans ⟨hsound.synced, extends_synced hsound⟩, nofun, fun _ _ _ => rfl⟩

end

end Extended

/-- What `append` leaves, wherever it is cut short, and what it returns. -/
theorem append_always (hserde : serde.Lawful) (h : Sound blake3 serde m)
    (hw : Abreast blake3 serde w m) (entry : Entry) :
    (append blake3 serde entry w).Always serves (Kept blake3 serde m)
      (fun x m' => Abreast blake3 serde x.2 m' ∧ ∀ record, x.1 = .ok record →
        completeLines m'.bytes = completeLines m.bytes ++ [serde.toVec record] ∧
          m'.durable = m'.bytes.length) m := by
  apply Prog.Always.bind
  apply (refreshed_always h hw).mono fun _ h => h
  intro x m1 hkept hfresh
  cases x with
  | error e => exact ⟨hkept, hw.extends hkept.2, nofun⟩
  | ok w1 =>
    obtain ⟨hlines, hend⟩ := hfresh w1 rfl
    obtain ⟨records, hchained, hindex⟩ := hend.attests
    have hnext : w1.nextIndex = UInt64.ofNat records.length := by
      rw [← hindex, UInt64.ofNat_toNat]
    obtain ⟨record, hrecord⟩ : ∃ record, record = sealEntry blake3 entry w1.nextIndex w1.head :=
      ⟨_, rfl⟩
    have hwrite := @writeLine_always _ _ w1 _ _ _ record entry hserde hkept.1 hend.whole hchained
      (by rw [hrecord, hnext])
    simp only [← hrecord]
    apply Prog.Always.bind
    apply hwrite.mono fun _ h => hkept.trans h
    intro x m2 hkept2 hwritten
    cases x with
    | error e => exact ⟨hkept.trans hkept2, hend.abreast.extends hkept2.2, nofun⟩
    | ok _ =>
      obtain rfl := hwritten rfl
      have hafter : completeLines (m1.extended (encodeLine serde record)).synced.bytes =
          completeLines m1.bytes ++ [serde.toVec record] := completeLines_extended hserde hend.whole
      have hchained' := hchained.concat hserde entry
      rw [← hnext, ← hrecord, ← hafter] at hchained'
      have hlt := hkept2.1.records_lt hchained'
      rw [length_append, length_singleton] at hlt
      have hsize := hkept2.1.size
      have hlength : w1.length + (encodeLine serde record).length =
          (m1.extended (encodeLine serde record)).synced.bytes.length := by
        rw [hend.length]
        exact length_append.symm
      have hsucc : checkedSucc w1.nextIndex = some (w1.nextIndex + 1) := by
        rw [checkedSucc, hindex, if_pos hlt]
      simp only [hlength, hsucc]
      refine ⟨hkept.trans hkept2, ?_, ?_⟩
      · apply AtEnd.abreast
        refine ⟨?_, ?_, records ++ [record], hchained', ?_⟩
        · exact complete_extended hserde hend.whole
        · exact Nat.min_eq_left (by omega)
        · rw [UInt64.toNat_add, hindex, length_append, length_singleton]
          exact Nat.mod_eq_of_lt hlt
      · intro record' hx
        cases hx
        exact ⟨by rw [hafter, hlines], rfl⟩

end Dctl.Audit
