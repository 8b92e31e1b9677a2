import Dctl.Replicate.Execute

/-! What the report of a replication says, against what the two stores have answered. -/

namespace Dctl.Replicate

open ProofKit Store Cli Transfer List

def Request.key : Request → String
  | .get _ key | .getRange _ key _ | .put _ key .. | .delete _ key => key
  | .record entry => entry.path

def sampleRange (sourceBytes : Bytes) : ByteRange :=
  ⟨0, some (UInt64.ofNat (sampleWindow sourceBytes))⟩

variable (blake3 : Bytes → Bytes) (verify : VerifyMode)

/-- What the destination was asked before an object was written to it: nothing, or the object, and
what it served was not that of the source. -/
inductive Looked (key : String) (bytes : Bytes) : List Exchange → Prop
  | unasked : Looked key bytes []
  | differs {x : Except StoreError Bytes} (h : ∀ stored, x = .ok stored →
    blake3 stored ≠ blake3 bytes) :
    Looked key bytes [⟨.get .destination key, x⟩]

/-- What the destination was asked after an object was written to it, and whether that passes. -/
inductive Checked (key : String) (bytes : Bytes) : VerifyMode → List Exchange → Bool → Prop
  | checksum : Checked key bytes .checksum [] true
  | unsampled (e : StoreError) :
    Checked key bytes .sample [⟨.getRange .destination key (sampleRange bytes), .error e⟩] false
  | sampled (served : Bytes) : Checked key bytes .sample
      [⟨.getRange .destination key (sampleRange bytes), .ok served⟩]
      (served = firstBytes bytes served.length)
  | unread (e : StoreError) : Checked key bytes .strict [⟨.get .destination key, .error e⟩] false
  | whole (served : Bytes) : Checked key bytes .strict [⟨.get .destination key, .ok served⟩]
      (blake3 served = blake3 bytes)

/-- How one object can go: the exchanges, and the action it is reported with. -/
inductive Attempt (item : Item) : List Exchange → Action → Prop
  | tooLarge (h : replicateWholeObjectLimit < item.size) : Attempt item [] .failed
  | unreadable (h : item.size ≤ replicateWholeObjectLimit) (e : StoreError) :
    Attempt item [⟨.get .source item.key, .error e⟩] .failed
  | identical (h : item.size ≤ replicateWholeObjectLimit) (hplan : item.action = .reverify)
      {bytes stored : Bytes} (hsame : blake3 stored = blake3 bytes) :
    Attempt item [⟨.get .source item.key, .ok bytes⟩, ⟨.get .destination item.key, .ok stored⟩]
      .reverify
  | refused (h : item.size ≤ replicateWholeObjectLimit) {bytes : Bytes} {before : List Exchange}
      (hbefore : Looked blake3 item.key bytes before) (e : StoreError) :
    Attempt item (⟨.get .source item.key, .ok bytes⟩ :: before ++
      [⟨.put .destination item.key bytes (contentHash blake3 bytes), .error e⟩]) .failed
  | stored (h : item.size ≤ replicateWholeObjectLimit) {bytes : Bytes}
    {before after : List Exchange}
      {passes : Bool} (hbefore : Looked blake3 item.key bytes before)
      (hafter : Checked blake3 item.key bytes verify after passes) :
    Attempt item (⟨.get .source item.key, .ok bytes⟩ :: before ++
      ⟨.put .destination item.key bytes (contentHash blake3 bytes), .ok ()⟩ :: after)
      (if passes then .replicate else .failed)

variable {blake3 : Bytes → Bytes} {verify : VerifyMode} {item : Item} {l : List Exchange}
  {stats : Stats}

theorem contentHash_inj {a b : Bytes} :
    contentHash blake3 a = contentHash blake3 b ↔ blake3 a = blake3 b := by
  rw [contentHash, contentHash, ContentHash.mk.injEq]
  exact ⟨fun h => h.2, fun h => ⟨rfl, h⟩⟩

variable {passes : Bool} {bytes : Bytes}

theorem plays_readBack {key : String}
    (h : Prog.Plays (readBack blake3 verify key bytes (contentHash blake3 bytes)) l passes) :
    Checked blake3 key bytes verify l passes := by
  cases verify with
  | checksum =>
    obtain ⟨rfl, rfl⟩ := Prog.plays_done.mp h
    exact .checksum
  | sample =>
    obtain ⟨x, l', rfl, hrest⟩ := Prog.plays_call_bind.mp h
    cases x with
    | error e =>
      obtain ⟨rfl, rfl⟩ := Prog.plays_done.mp hrest
      exact .unsampled e
    | ok served =>
      obtain ⟨rfl, rfl⟩ := Prog.plays_done.mp hrest
      exact .sampled served
  | strict =>
    obtain ⟨x, l', rfl, hrest⟩ := Prog.plays_call_bind.mp h
    cases x with
    | error e =>
      obtain ⟨rfl, rfl⟩ := Prog.plays_done.mp hrest
      exact .unread e
    | ok served =>
      obtain ⟨rfl, rfl⟩ := Prog.plays_done.mp hrest
      simp only [contentHash_inj]
      exact .whole served

theorem plays_holdsAlready {same : Bool}
    (h : Prog.Plays (holdsAlready blake3 item (contentHash blake3 bytes)) l same) :
    (same = true ∧ item.action = .reverify ∧ ∃ stored, blake3 stored = blake3 bytes ∧
        l = [⟨.get .destination item.key, .ok stored⟩]) ∨
      (same = false ∧ Looked blake3 item.key bytes l) := by
  rw [holdsAlready] at h
  split at h
  · rename_i hplan
    obtain ⟨x, l', rfl, hrest⟩ := Prog.plays_call_bind.mp h
    cases x with
    | error e =>
      obtain ⟨rfl, rfl⟩ := Prog.plays_done.mp hrest
      exact Or.inr ⟨rfl, .differs fun stored hstored => by cases hstored⟩
    | ok stored =>
      obtain ⟨rfl, rfl⟩ := Prog.plays_done.mp hrest
      simp only [contentHash_inj, decide_eq_true_eq, decide_eq_false_iff_not]
      by_cases hsame : blake3 stored = blake3 bytes
      · exact Or.inl ⟨hsame, hplan, stored, hsame, rfl⟩
      · refine Or.inr ⟨hsame, .differs fun served hserved => ?_⟩
        cases hserved
        exact hsame
  · obtain ⟨rfl, rfl⟩ := Prog.plays_done.mp h
    exact Or.inr ⟨rfl, .unasked⟩

/-- Whether the run credits the bytes of an object with this action as verified. -/
def Action.verified : Action → Bool
  | .replicate | .reverify => true
  | .skip | .failed => false

def credit (bytes : UInt64) (item : Item) : UInt64 :=
  if item.action.verified then bytes + item.size else bytes

/-- What the counters of a run have gained by these outcomes: a failed object is an error, and is
counted neither as done nor as skipped. -/
structure Gained (start : Stats) (items : List Item) (stats : Stats) : Prop where
  verified : stats.bytesVerified = items.foldl credit start.bytesVerified
  filesDone : stats.filesDone = start.filesDone + items.countP (·.action = .replicate)
  filesSkipped : stats.filesSkipped =
    start.filesSkipped + items.countP fun item => item.action = .reverify ∨ item.action = .skip
  errors : stats.errors = start.errors + items.countP (·.action = .failed)

theorem Gained.cons {start mid : Stats} {items : List Item} (h : Gained start [item] mid)
    (hrest : Gained mid items stats) : Gained start (item :: items) stats := by
  obtain ⟨hverified, hdone, hskipped, herrors⟩ := h
  obtain ⟨hverified', hdone', hskipped', herrors'⟩ := hrest
  refine ⟨?_, ?_, ?_, ?_⟩
  · rw [hverified', hverified]
    rfl
  · rw [hdone', hdone, Nat.add_assoc, ← countP_append]
    rfl
  · rw [hskipped', hskipped, Nat.add_assoc, ← countP_append]
    rfl
  · rw [herrors', herrors, Nat.add_assoc, ← countP_append]
    rfl

/-- The report of one object: its row, and what it adds to the counters. -/
structure Reports (stats : Stats) (item : Item) (action : Action) (done : Item × Stats) : Prop where
  key : done.1.key = item.key
  size : done.1.size = item.size
  action : done.1.action = action
  gained : Gained stats [done.1] done.2

theorem reports_failed (stats : Stats) (bytes : UInt64) (item : Item) (reason : String) :
    Reports stats item .failed (failed { stats with bytesTransferred := bytes } item reason) := by
  refine ⟨rfl, rfl, rfl, ?_⟩
  rw [failed]
  dsimp only
  split <;> exact ⟨rfl, rfl, rfl, rfl⟩

theorem plays_upload {done : Replicated × Stats}
    (h : Prog.Plays (upload blake3 verify stats item bytes (contentHash blake3 bytes)) l done) :
    (∃ e, l = [⟨.put .destination item.key bytes (contentHash blake3 bytes), .error e⟩] ∧
        Reports stats item .failed (done.1.item, done.2)) ∨
      ∃ after passes, Checked blake3 item.key bytes verify after passes ∧
        l = ⟨.put .destination item.key bytes (contentHash blake3 bytes), .ok ()⟩ :: after ∧
        Reports stats item (if passes then .replicate else .failed) (done.1.item, done.2) := by
  obtain ⟨x, l', rfl, hput⟩ := Prog.plays_call_bind.mp h
  cases x with
  | error e =>
    obtain ⟨rfl, rfl⟩ := Prog.plays_done.mp hput
    exact Or.inl ⟨e, rfl, reports_failed stats _ item _⟩
  | ok _ =>
    obtain ⟨passes, after, l₂, rfl, hback, hend⟩ := Prog.plays_bind.mp hput
    refine Or.inr ⟨after, passes, plays_readBack hback, ?_⟩
    cases passes with
    | true =>
      obtain ⟨rfl, rfl⟩ := Prog.plays_done.mp hend
      exact ⟨by rw [append_nil], rfl, rfl, rfl, ⟨rfl, rfl, rfl, rfl⟩⟩
    | false =>
      obtain ⟨rfl, rfl⟩ := Prog.plays_done.mp hend
      exact ⟨by rw [append_nil], reports_failed stats _ item _⟩

theorem plays_one {done : Replicated × Stats}
    (h : Prog.Plays (one blake3 verify stats item) l done) :
    ∃ action, Attempt blake3 verify item l action ∧
      Reports stats item action (done.1.item, done.2) := by
  rw [one] at h
  split at h
  · rename_i hsize
    obtain ⟨rfl, rfl⟩ := Prog.plays_done.mp h
    exact ⟨.failed, .tooLarge hsize, reports_failed stats _ item _⟩
  · rename_i hlarge
    have hsize : item.size ≤ replicateWholeObjectLimit := UInt64.not_lt.mp hlarge
    obtain ⟨x, l', rfl, hread⟩ := Prog.plays_call_bind.mp h
    cases x with
    | error e =>
      obtain ⟨rfl, rfl⟩ := Prog.plays_done.mp hread
      exact ⟨.failed, .unreadable hsize e, reports_failed stats _ item _⟩
    | ok bytes =>
      obtain ⟨same, before, rest, rfl, hbefore, hrest⟩ := Prog.plays_bind.mp hread
      rcases plays_holdsAlready hbefore with ⟨rfl, hplan, stored, hsame, rfl⟩ | ⟨rfl, hlooked⟩
      · obtain ⟨rfl, rfl⟩ := Prog.plays_done.mp hrest
        exact ⟨.reverify, .identical hsize hplan hsame, rfl, rfl, rfl,
          ⟨rfl, rfl, rfl, rfl⟩⟩
      · rcases plays_upload hrest with ⟨e, rfl, hreport⟩ | ⟨after, passes, hafter, rfl, hreport⟩
        · exact ⟨.failed, .refused hsize hlooked e, hreport⟩
        · exact ⟨_, .stored hsize hlooked hafter, hreport⟩

/-- How one item of the plan can go, with its record. -/
inductive Handled (blake3 : Bytes → Bytes) (verify : VerifyMode) (item : Item) :
    List Exchange → Action → Prop
  | skipped (h : item.action = .skip) : Handled blake3 verify item [] .skip
  | attempted {l : List Exchange} {action : Action} (h : Attempt blake3 verify item l action)
      {entry : AuditEntry} (hentry : entry.path = item.key) :
    Handled blake3 verify item (l ++ [⟨.record entry, .ok ()⟩]) action

theorem plays_attempt {remote : String} {done : Item × Stats}
    (h : Prog.Plays (do
      let done ← ExceptT.lift (one blake3 verify stats item)
      record remote done.1
      pure (done.1.item, done.2) : Prog.Fallible Request Answer CliError (Item × Stats)).run
        l (.ok done)) :
    ∃ action, Handled blake3 verify item l action ∧ Reports stats item action done := by
  obtain ⟨replicated, l₁, l₂, rfl, hone, hrest⟩ := Prog.plays_bind_ok.mp h
  obtain ⟨action, hattempt, hreport⟩ := plays_one (Prog.plays_lift.mp hone)
  obtain ⟨_, l₃, l₄, rfl, hrecord, hend⟩ := Prog.plays_bind_ok.mp hrest
  obtain ⟨rfl, hdone⟩ := Prog.plays_pure.mp hend
  cases hdone
  obtain ⟨x, l₅, rfl, hanswer⟩ := Prog.plays_call_bind.mp hrecord
  obtain ⟨rfl, rfl⟩ := Prog.plays_done.mp hanswer
  exact ⟨action, .attempted hattempt hreport.key, hreport⟩

variable {remote : String}

theorem plays_step {done : Item × Stats}
    (h : Prog.Plays (step blake3 verify remote stats item).run l (.ok done)) :
    ∃ action, Handled blake3 verify item l action ∧ Reports stats item action done := by
  cases haction : item.action with
  | skip =>
    rw [step, haction] at h
    obtain ⟨rfl, hdone⟩ := Prog.plays_pure.mp h
    cases hdone
    refine ⟨.skip, .skipped haction, rfl, rfl, haction, ?_⟩
    constructor <;> simp [credit, haction, Action.verified, Stats.fileSkipped]
  | replicate => exact plays_attempt (by rwa [step, haction] at h)
  | reverify => exact plays_attempt (by rwa [step, haction] at h)
  | failed => exact plays_attempt (by rwa [step, haction] at h)

theorem Looked.key {key : String} (h : Looked blake3 key bytes l) : ∀ e ∈ l, e.1.key = key := by
  cases h <;> simp [Request.key]

theorem Checked.key {key : String} (h : Checked blake3 key bytes verify l passes) :
    ∀ e ∈ l, e.1.key = key := by
  cases h <;> simp [Request.key]

variable {action : Action}

theorem Attempt.key (h : Attempt blake3 verify item l action) : ∀ e ∈ l, e.1.key = item.key := by
  cases h with
  | tooLarge => simp
  | unreadable => simp [Request.key]
  | identical => simp [Request.key]
  | refused _ hbefore e =>
    have hkey := hbefore.key
    simpa [Request.key, or_imp, forall_and] using hkey
  | stored _ hbefore hafter =>
    have hkey := hbefore.key
    have hkey' := hafter.key
    simpa [Request.key, or_imp, forall_and] using ⟨hkey, hkey'⟩

def about (key : String) (l : List Exchange) : List Exchange := l.filter (·.1.key = key)

variable {e : Exchange}

theorem mem_about {key : String} : e ∈ about key l ↔ e ∈ l ∧ e.1.key = key := by
  rw [about, mem_filter, decide_eq_true_eq]

theorem Handled.key (h : Handled blake3 verify item l action) : ∀ e ∈ l, e.1.key = item.key := by
  cases h with
  | skipped => simp
  | attempted h hentry =>
    intro e he
    rcases mem_append.mp he with he | he
    · exact h.key e he
    · obtain rfl := mem_singleton.mp he
      exact hentry

structure Handles (blake3 : Bytes → Bytes) (verify : VerifyMode) (l : List Exchange)
    (item done : Item) : Prop where
  key : done.key = item.key
  size : done.size = item.size
  handled : Handled blake3 verify item (about item.key l) done.action

variable {items : List Item}

theorem plays_runItems {outcome : Outcome} {result : Outcome × Stats}
    (hdistinct : items.Pairwise fun a b => a.key ≠ b.key)
    (h : Prog.Plays (runItems blake3 verify remote items outcome stats).run l (.ok result)) :
    ∃ dones, result.1.items = outcome.items ++ dones ∧
      result.1.summary = dones.foldl Summary.add outcome.summary ∧
      Gained stats dones result.2 ∧
      List.Forall₂ (Handles blake3 verify l) items dones ∧
      ∀ e ∈ l, ∃ item ∈ items, e.1.key = item.key := by
  induction items generalizing outcome stats l with
  | nil =>
    obtain ⟨rfl, hresult⟩ := Prog.plays_pure.mp h
    cases hresult
    exact ⟨[], (append_nil _).symm, rfl, ⟨rfl, rfl, rfl, rfl⟩, .nil, by simp⟩
  | cons item rest ih =>
    obtain ⟨hfirst, hrest⟩ := pairwise_cons.mp hdistinct
    obtain ⟨done, l₁, l₂, rfl, hstep, hloop⟩ := Prog.plays_bind_ok.mp h
    obtain ⟨action, hhandled, hreport⟩ := plays_step hstep
    obtain ⟨dones, hitems, hsummary, hgained, hall, hkeys⟩ := ih hrest hloop
    have hown : about item.key (l₁ ++ l₂) = l₁ := by
      have hfirst' : about item.key l₁ = l₁ :=
        filter_eq_self.mpr fun e he => decide_eq_true (hhandled.key e he)
      have hother : about item.key l₂ = [] := by
        refine filter_eq_nil_iff.mpr fun e he => ?_
        obtain ⟨other, hmem, hkey⟩ := hkeys e he
        rw [decide_eq_true_eq, hkey]
        exact (hfirst other hmem).symm
      rw [about, filter_append, ← about, ← about, hfirst', hother, append_nil]
    have htail : ∀ other ∈ rest, about other.key (l₁ ++ l₂) = about other.key l₂ := by
      intro other hmem
      have hnone : about other.key l₁ = [] := by
        refine filter_eq_nil_iff.mpr fun e he => ?_
        rw [decide_eq_true_eq, hhandled.key e he]
        exact hfirst other hmem
      rw [about, filter_append, ← about, ← about, hnone, nil_append]
    refine ⟨done.1 :: dones, ?_, hsummary, hreport.gained.cons hgained,
      .cons ⟨hreport.key, hreport.size, ?_⟩ ?_, ?_⟩
    · rw [hitems, append_assoc]
      rfl
    · rw [hown, hreport.action]
      exact hhandled
    · have hboth := (List.forall₂_and_left rest dones).mpr ⟨htail, hall⟩
      exact hboth.imp fun other _ h => ⟨h.2.key, h.2.size, by rw [h.1]; exact h.2.handled⟩
    · intro e he
      rcases mem_append.mp he with he | he
      · exact ⟨item, mem_cons_self, hhandled.key e he⟩
      · obtain ⟨other, hmem, hkey⟩ := hkeys e he
        exact ⟨other, mem_cons_of_mem _ hmem, hkey⟩

/-- The destination served the first window of the object, with the source's bytes. -/
def ServedSample (l : List Exchange) (key : String) : Prop :=
  ∃ bytes served, ⟨.get .source key, .ok bytes⟩ ∈ l ∧
    ⟨.getRange .destination key (sampleRange bytes), .ok served⟩ ∈ l ∧
    served = bytes.take (sampleWindow bytes)

/-- The destination served bytes with the digest of the source's. -/
def ServedWhole (blake3 : Bytes → Bytes) (l : List Exchange) (key : String) : Prop :=
  ∃ bytes served, ⟨.get .source key, .ok bytes⟩ ∈ l ∧ ⟨.get .destination key, .ok served⟩ ∈ l ∧
    blake3 served = blake3 bytes

/-- The object was put at the destination with the source's bytes, and accepted. -/
def Written (blake3 : Bytes → Bytes) (l : List Exchange) (key : String) : Prop :=
  ∃ bytes, ⟨.get .source key, .ok bytes⟩ ∈ l ∧
    ⟨.put .destination key bytes (contentHash blake3 bytes), .ok ()⟩ ∈ l

/-- The object could not be read, written or read back. -/
def WentWrong (l : List Exchange) (key : String) : Prop :=
  (∃ e, ⟨.get .source key, .error e⟩ ∈ l) ∨
    (∃ data expected e, ⟨.put .destination key data expected, .error e⟩ ∈ l) ∨
    ∃ range e, ⟨.getRange .destination key range, .error e⟩ ∈ l

/-- What the items, the summary and the counters of a run say is true of the run. -/
structure Sound (blake3 : Bytes → Bytes) (verify : VerifyMode) (atSource : Listing) (start : Stats)
    (l : List Exchange) (result : Outcome × Stats) : Prop where
  objects : result.1.items.map (fun item => (item.key, item.size)) = atSource.toList
  counts : Counts result.1.summary result.1.items
  gained : Gained start result.1.items result.2
  sampled : verify = .sample → ∀ item ∈ result.1.items, item.action.verified = true →
    ServedSample l item.key
  strict : verify = .strict → ∀ item ∈ result.1.items, item.action.verified = true →
    ServedWhole blake3 l item.key
  reverified : ∀ item ∈ result.1.items, item.action = .reverify → ServedWhole blake3 l item.key ∧
    ∀ e ∈ l, ∀ data expected, e.1 ≠ .put .destination item.key data expected
  replicated : ∀ item ∈ result.1.items, item.action = .replicate → Written blake3 l item.key
  failures : ∀ item ∈ result.1.items, item.action.verified = true → ¬WentWrong l item.key

/-- Whatever the destination serves of an object for a range is as long as the window, if it is the
beginning of the object at all. -/
def FullSamples (l : List Exchange) : Prop :=
  ∀ key bytes range served, ⟨.get .source key, .ok bytes⟩ ∈ l →
    ⟨.getRange .destination key range, .ok served⟩ ∈ l → served <+: bytes →
    served.length = sampleWindow bytes

/-- A request writes no object but those at the source, to the destination, and deletes none. -/
def Request.KeepsOthers (atSource : Listing) : Request → Prop
  | .get .. | .getRange .. | .record _ => True
  | .put side key .. => side = .destination ∧ key ∈ atSource
  | .delete .. => False

theorem Attempt.verified (h : Attempt blake3 verify item l action)
    (hverified : action.verified = true) :
    ∃ bytes,
      (action = .reverify ∧ item.action = .reverify ∧ ∃ stored, blake3 stored = blake3 bytes ∧
        l = [⟨.get .source item.key, .ok bytes⟩, ⟨.get .destination item.key, .ok stored⟩]) ∨
      (action = .replicate ∧ ∃ before after, Looked blake3 item.key bytes before ∧
        Checked blake3 item.key bytes verify after true ∧
        l = ⟨.get .source item.key, .ok bytes⟩ :: before ++
          ⟨.put .destination item.key bytes (contentHash blake3 bytes), .ok ()⟩ :: after) := by
  cases h with
  | tooLarge => cases hverified
  | unreadable => cases hverified
  | refused => cases hverified
  | @identical _ hplan bytes stored hsame =>
    exact ⟨bytes, Or.inl ⟨rfl, hplan, stored, hsame, rfl⟩⟩
  | @stored _ bytes before after passes hbefore hafter =>
    cases passes with
    | false => cases hverified
    | true => exact ⟨bytes, Or.inr ⟨rfl, before, after, hbefore, hafter, rfl⟩⟩

theorem Looked.mem {key : String} (h : Looked blake3 key bytes l) (he : e ∈ l) :
    ∃ x, e = ⟨.get .destination key, x⟩ := by
  cases h with
  | unasked => cases he
  | differs => exact ⟨_, mem_singleton.mp he⟩

theorem Checked.mem {key : String} (h : Checked blake3 key bytes verify l passes)
    (hpasses : passes = true) (he : e ∈ l) :
    (∃ x, e = ⟨.get .destination key, .ok x⟩) ∨
      ∃ range x, e = ⟨.getRange .destination key range, .ok x⟩ := by
  cases h with
  | checksum => cases he
  | unsampled => cases hpasses
  | unread => cases hpasses
  | sampled served => exact Or.inr ⟨_, _, mem_singleton.mp he⟩
  | whole served => exact Or.inl ⟨_, mem_singleton.mp he⟩

/-- The exchanges of an object that is reported as verified. -/
inductive Fine (key : String) : Exchange → Prop
  | read (bytes : Bytes) : Fine key ⟨.get .source key, .ok bytes⟩
  | looked (x : Except StoreError Bytes) : Fine key ⟨.get .destination key, x⟩
  | written (data : Bytes) (expected : ContentHash) :
    Fine key ⟨.put .destination key data expected, .ok ()⟩
  | sampled (range : ByteRange) (served : Bytes) :
    Fine key ⟨.getRange .destination key range, .ok served⟩

theorem Attempt.fine (h : Attempt blake3 verify item l action)
    (hverified : action.verified = true) :
    ∀ e ∈ l, Fine item.key e := by
  intro e he
  obtain ⟨bytes, ⟨-, -, stored, -, rfl⟩ | ⟨-, before, after, hbefore, hafter, rfl⟩⟩ :=
    h.verified hverified
  · rcases mem_pair.mp he with rfl | rfl
    · exact .read bytes
    · exact .looked _
  · rcases mem_append.mp he with he | he
    · rcases mem_cons.mp he with rfl | he
      · exact .read bytes
      · obtain ⟨x, rfl⟩ := hbefore.mem he
        exact .looked x
    · rcases mem_cons.mp he with rfl | he
      · exact .written bytes _
      · rcases hafter.mem rfl he with ⟨x, rfl⟩ | ⟨range, x, rfl⟩
        · exact .looked _
        · exact .sampled range x

section

variable (h : Handles blake3 verify l item done)
include h

theorem Handles.attempt :
    (done.action = .skip ∧ about item.key l = []) ∨
      ∃ l' entry, Attempt blake3 verify item l' done.action ∧
        about item.key l = l' ++ [⟨.record entry, .ok ()⟩] := by
  obtain ⟨-, -, hhandled⟩ := h
  generalize about item.key l = l' at hhandled ⊢
  generalize done.action = action at hhandled ⊢
  cases hhandled with
  | skipped => exact Or.inl ⟨rfl, rfl⟩
  | attempted h _ => exact Or.inr ⟨_, _, h, rfl⟩

theorem Handles.verified (hverified : done.action.verified = true) :
    ∃ l', Attempt blake3 verify item l' done.action ∧ (∀ e ∈ l', e ∈ l) ∧
      ∀ e ∈ l, e.1.key = done.key → (∀ entry, e.1 ≠ .record entry) → e ∈ l' := by
  rcases h.attempt with ⟨hskip, -⟩ | ⟨l', entry, hattempt, habout⟩
  · rw [hskip] at hverified
    cases hverified
  · refine ⟨l', hattempt, fun e he => ?_, fun e he hkey hrecord => ?_⟩
    · have hmem : e ∈ about item.key l := by
        rw [habout]
        exact mem_append_left _ he
      exact (mem_about.mp hmem).1
    · have hmem := mem_about.mpr ⟨he, hkey.trans h.key⟩
      rw [habout] at hmem
      rcases mem_append.mp hmem with hmem | hmem
      · exact hmem
      · obtain rfl := mem_singleton.mp hmem
        exact absurd rfl (hrecord entry)

theorem Handles.not_wentWrong (hverified : done.action.verified = true) :
    ¬WentWrong l done.key := by
  obtain ⟨l', hattempt, -, hmem⟩ := h.verified hverified
  have hfine := hattempt.fine hverified
  rw [← h.key] at hfine
  rintro (⟨e, he⟩ | ⟨data, expected, e, he⟩ | ⟨range, e, he⟩)
  · cases hfine _ (hmem _ he rfl (by simp))
  · cases hfine _ (hmem _ he rfl (by simp))
  · cases hfine _ (hmem _ he rfl (by simp))

theorem Handles.reverified (haction : done.action = .reverify) :
    item.action = .reverify ∧ ServedWhole blake3 l done.key ∧
      ∀ e ∈ l, ∀ data expected, e.1 ≠ .put .destination done.key data expected := by
  have hverified : done.action.verified = true := by
    rw [haction]
    rfl
  obtain ⟨l', hattempt, hsub, hmem⟩ := h.verified hverified
  obtain ⟨bytes, ⟨-, hplan, stored, hsame, rfl⟩ | ⟨hreplicate, -⟩⟩ := hattempt.verified hverified
  · refine ⟨hplan, ⟨bytes, stored, ?_, ?_, hsame⟩, ?_⟩
    · exact hsub _ (by rw [h.key]; exact mem_cons_self)
    · exact hsub _ (by rw [h.key]; exact mem_cons_of_mem _ mem_cons_self)
    · rintro ⟨r, x⟩ he data expected rfl
      have := hmem _ he rfl (by simp)
      simp at this
  · rw [haction] at hreplicate
    cases hreplicate

theorem Handles.replicated (haction : done.action = .replicate) :
    ∃ bytes after, ⟨.get .source done.key, .ok bytes⟩ ∈ l ∧
      ⟨.put .destination done.key bytes (contentHash blake3 bytes), .ok ()⟩ ∈ l ∧
      Checked blake3 done.key bytes verify after true ∧ ∀ e ∈ after, e ∈ l := by
  have hverified : done.action.verified = true := by
    rw [haction]
    rfl
  obtain ⟨l', hattempt, hsub, hmem⟩ := h.verified hverified
  obtain ⟨bytes, ⟨hreverify, -⟩ | ⟨-, before, after, -, hafter, rfl⟩⟩ := hattempt.verified hverified
  · rw [haction] at hreverify
    cases hreverify
  · rw [← h.key] at hafter hsub
    exact ⟨bytes, after, hsub _ (by simp), hsub _ (by simp), hafter,
      fun e he => hsub e (by simp [he])⟩

end

def readsOf (l : List Exchange) : List Bytes :=
  l.filterMap fun
    | ⟨.get .source _, .ok bytes⟩ => some bytes
    | _ => none

def samplesOf (l : List Exchange) : List Bytes :=
  l.filterMap fun
    | ⟨.getRange .., .ok served⟩ => some served
    | _ => none

theorem mem_readsOf {key : String} (h : ⟨.get .source key, .ok bytes⟩ ∈ l) :
    bytes ∈ readsOf l := mem_filterMap.mpr ⟨_, h, rfl⟩

theorem mem_samplesOf {key : String} {range : ByteRange} {served : Bytes}
    (h : ⟨.getRange .destination key range, .ok served⟩ ∈ l) : served ∈ samplesOf l :=
  mem_filterMap.mpr ⟨_, h, rfl⟩

theorem Looked.served {key : String} (h : Looked blake3 key bytes l) :
    readsOf l = [] ∧ samplesOf l = [] := by
  cases h <;> exact ⟨rfl, rfl⟩

theorem Checked.served {key : String} (h : Checked blake3 key bytes verify l passes) :
    readsOf l = [] ∧
      (samplesOf l = [] ∨ ∃ served, samplesOf l = [served] ∧ verify = .sample ∧
        passes = decide (served = firstBytes bytes served.length)) := by
  cases h with
  | sampled served => exact ⟨rfl, Or.inr ⟨served, rfl, rfl, rfl⟩⟩
  | checksum => exact ⟨rfl, Or.inl rfl⟩
  | unsampled => exact ⟨rfl, Or.inl rfl⟩
  | unread => exact ⟨rfl, Or.inl rfl⟩
  | whole => exact ⟨rfl, Or.inl rfl⟩

theorem Attempt.served (h : Attempt blake3 verify item l action) :
    samplesOf l = [] ∨ ∃ bytes served, readsOf l = [bytes] ∧ samplesOf l = [served] ∧
      verify = .sample ∧ action = if served = firstBytes bytes served.length then .replicate
        else .failed := by
  cases h with
  | tooLarge => exact Or.inl rfl
  | unreadable => exact Or.inl rfl
  | identical => exact Or.inl rfl
  | refused _ hbefore e =>
    refine Or.inl ?_
    rw [samplesOf, filterMap_append, filterMap_cons, ← samplesOf, hbefore.served.2]
    rfl
  | @stored _ bytes before after passes hbefore hafter =>
    have hreads : readsOf (⟨.get .source item.key, .ok bytes⟩ :: before ++
        ⟨.put .destination item.key bytes (contentHash blake3 bytes), .ok ()⟩ :: after) =
        bytes :: (readsOf before ++ readsOf after) := by simp [readsOf]
    have hsamples : samplesOf (⟨.get .source item.key, .ok bytes⟩ :: before ++
        ⟨.put .destination item.key bytes (contentHash blake3 bytes), .ok ()⟩ :: after) =
        samplesOf before ++ samplesOf after := by simp [samplesOf]
    rw [hreads, hsamples, hbefore.served.1, hbefore.served.2, hafter.served.1]
    rcases hafter.served.2 with hnone | ⟨served, hone, hlevel, hpasses⟩
    · exact Or.inl hnone
    · exact Or.inr ⟨bytes, served, rfl, hone, hlevel, by simp [hpasses]⟩

variable {atSource : Listing}

theorem readBack_asks (key : String) (bytes : Bytes) (expected : ContentHash) :
    (readBack blake3 verify key bytes expected).Asks (Request.KeepsOthers atSource) := by
  cases verify with
  | checksum => trivial
  | sample => exact ⟨trivial, fun x => by cases x <;> trivial⟩
  | strict => exact ⟨trivial, fun x => by cases x <;> trivial⟩

theorem holdsAlready_asks (item : Item) (expected : ContentHash) :
    (holdsAlready blake3 item expected).Asks (Request.KeepsOthers atSource) := by
  rw [holdsAlready]
  split
  · exact ⟨trivial, fun x => by cases x <;> trivial⟩
  · trivial

section

variable (hitem : item.key ∈ atSource)
include hitem

theorem upload_asks (stats : Stats) (bytes : Bytes) (expected : ContentHash) :
    (upload blake3 verify stats item bytes expected).Asks
      (Request.KeepsOthers atSource) := by
  refine ⟨⟨rfl, hitem⟩, fun x => ?_⟩
  cases x with
  | error e => trivial
  | ok _ =>
    refine (readBack_asks item.key bytes expected).bind fun passes => ?_
    cases passes <;> trivial

theorem one_asks (stats : Stats) :
    (one blake3 verify stats item).Asks (Request.KeepsOthers atSource) := by
  rw [one]
  split
  · trivial
  · refine ⟨trivial, fun x => ?_⟩
    cases x with
    | error e => trivial
    | ok bytes =>
      refine (holdsAlready_asks item _).bind fun same => ?_
      cases same with
      | true => trivial
      | false => exact upload_asks hitem stats bytes _

theorem attempt_asks (remote : String) (stats : Stats) : (do
      let done ← ExceptT.lift (one blake3 verify stats item)
      record remote done.1
      pure (done.1.item, done.2) : Prog.Fallible Request Answer CliError (Item × Stats)).run.Asks
        (Request.KeepsOthers atSource) := by
  refine Prog.asks_bind ((one_asks hitem stats).bind fun _ => trivial) fun done => ?_
  refine Prog.asks_bind ?_ fun _ => trivial
  exact Prog.asks_bind (Prog.asks_query trivial) fun answer => Prog.asks_ofExcept answer

theorem step_asks (remote : String) (stats : Stats) :
    (step blake3 verify remote stats item).run.Asks
      (Request.KeepsOthers atSource) := by
  rw [step]
  split
  · trivial
  · exact attempt_asks hitem remote stats

end

theorem runItems_asks (hitems : ∀ item ∈ items, item.key ∈ atSource) (remote : String)
    (outcome : Outcome) (stats : Stats) :
    (runItems blake3 verify remote items outcome stats).run.Asks
      (Request.KeepsOthers atSource) := by
  induction items generalizing outcome stats with
  | nil => trivial
  | cons item rest ih =>
    refine Prog.asks_bind (step_asks (hitems item mem_cons_self) remote stats) fun done => ?_
    exact ih (fun other hmem => hitems other (mem_cons_of_mem _ hmem)) _ _

theorem eq_firstBytes {served : Bytes} :
    served = firstBytes bytes served.length ↔ served <+: bytes := by
  rw [firstBytes]
  split
  · exact prefix_iff_eq_take.symm
  · rename_i hlong
    constructor
    · rintro rfl
      exact nil_prefix
    · intro hbegins
      exact absurd hbegins.length_le hlong

theorem Handles.sampled (h : Handles blake3 .sample l item done)
    (haction : done.action = .replicate) :
    ∃ bytes served, ⟨.get .source done.key, .ok bytes⟩ ∈ l ∧
      ⟨.getRange .destination done.key (sampleRange bytes), .ok served⟩ ∈ l ∧ served <+: bytes := by
  obtain ⟨bytes, after, hread, -, hafter, hmem⟩ := h.replicated haction
  generalize hpasses : true = passes at hafter
  cases hafter with
  | unsampled => cases hpasses
  | sampled served =>
    have hfirst : served = firstBytes bytes served.length := of_decide_eq_true hpasses.symm
    exact ⟨bytes, served, hread, hmem _ mem_cons_self, eq_firstBytes.mp hfirst⟩

theorem Handles.strict (h : Handles blake3 .strict l item done)
    (haction : done.action = .replicate) :
    ServedWhole blake3 l done.key := by
  obtain ⟨bytes, after, hread, -, hafter, hmem⟩ := h.replicated haction
  generalize hpasses : true = passes at hafter
  cases hafter with
  | unread => cases hpasses
  | whole served =>
    exact ⟨bytes, served, hread, hmem _ mem_cons_self, of_decide_eq_true hpasses.symm⟩

/-- An object of which a beginning was served is reported as copied, and was read and sampled once.
-/
theorem Handles.accepts (h : Handles blake3 verify l item done) {served : Bytes} {range : ByteRange}
    (hread : ⟨.get .source done.key, .ok bytes⟩ ∈ l)
    (hserved : ⟨.getRange .destination done.key range, .ok served⟩ ∈ l)
      (hbegins : served <+: bytes) :
    verify = .sample ∧ done.action = .replicate ∧
      (∀ other, ⟨.get .source done.key, .ok other⟩ ∈ l → other = bytes) ∧
      ∀ range' other, ⟨.getRange .destination done.key range', .ok other⟩ ∈ l → other = served := by
  have habout {e : Exchange} (he : e ∈ l) (hkey : e.1.key = done.key) : e ∈ about item.key l :=
    mem_about.mpr ⟨he, hkey.trans h.key⟩
  have hreads {b : Bytes} (hb : ⟨.get .source done.key, .ok b⟩ ∈ l) :
      b ∈ readsOf (about item.key l) :=
    mem_readsOf (habout hb rfl)
  have hsamples {r : ByteRange} {b : Bytes} (hb : ⟨.getRange .destination done.key r, .ok b⟩ ∈ l) :
      b ∈ samplesOf (about item.key l) := mem_samplesOf (habout hb rfl)
  rcases h.attempt with ⟨-, hnone⟩ | ⟨l', entry, hattempt, hsplit⟩
  · have := hreads hread
    rw [hnone] at this
    cases this
  · have hreads' : readsOf (about item.key l) = readsOf l' := by
      rw [hsplit, readsOf, filterMap_append]
      exact append_nil _
    have hsamples' : samplesOf (about item.key l) = samplesOf l' := by
      rw [hsplit, samplesOf, filterMap_append]
      exact append_nil _
    rw [hreads'] at hreads
    rw [hsamples'] at hsamples
    rcases hattempt.served with hnone | ⟨bytes', served', hone, hone', hlevel, haction⟩
    · have := hsamples hserved
      rw [hnone] at this
      cases this
    · rw [hone] at hreads
      rw [hone'] at hsamples
      obtain rfl := mem_singleton.mp (hreads hread)
      obtain rfl := mem_singleton.mp (hsamples hserved)
      rw [if_pos (eq_firstBytes.mpr hbegins)] at haction
      exact ⟨hlevel, haction, fun other hother => mem_singleton.mp (hreads hother),
        fun _ other hother => mem_singleton.mp (hsamples hother)⟩

theorem handles_objects {dones : List Item}
    (h : List.Forall₂ (Handles blake3 verify l) items dones) :
    items.map (fun item => (item.key, item.size)) = dones.map fun item =>
      (item.key, item.size) := by
  induction h with
  | nil => rfl
  | cons hone _ ih => rw [map_cons, map_cons, ih, hone.key, hone.size]

theorem plays_run {atDestination : Listing} {result : Outcome × Stats}
    (h : Prog.Plays (run blake3 verify remote (Plan.decide atSource atDestination verify) stats).run
      l (.ok result)) :
    result.1.items.map (fun item => (item.key, item.size)) = atSource.toList ∧
      Counts result.1.summary result.1.items ∧
      Gained stats result.1.items result.2 ∧
      List.Forall₂ (Handles blake3 verify l) (Plan.decide atSource atDestination verify).items
        result.1.items ∧
      ∀ e ∈ l, ∃ done ∈ result.1.items, e.1.key = done.key := by
  obtain ⟨dones, hitems, hsummary, ⟨hverified, hdone, hskipped, herrors⟩, hall, hkeys⟩ :=
    plays_runItems (decide_distinct atSource atDestination verify) h
  rw [nil_append] at hitems
  subst hitems
  have hobjects : result.1.items.map (fun item => (item.key, item.size)) = atSource.toList := by
    rw [← decide_objects atSource atDestination verify]
    exact (handles_objects hall).symm
  have hcounts := decide_counts atSource atDestination verify
  refine ⟨hobjects, ?_, ⟨hverified, hdone, hskipped, herrors⟩, hall, ?_⟩
  · rw [hsummary]
    refine ⟨(Tallied.start _ _).foldl result.1.items, ?_⟩
    rw [foldl_add_objects, hcounts.objects, hall.length_eq]
  · intro e he
    obtain ⟨item, hitem, hkey⟩ := hkeys e he
    obtain ⟨done, hdone, hhandles⟩ := forall₂_exists_right hall hitem
    exact ⟨done, hdone, hkey.trans hhandles.key.symm⟩

theorem decide_keys (atSource atDestination : Listing) (verify : VerifyMode) :
    ∀ item ∈ (Plan.decide atSource atDestination verify).items, item.key ∈ atSource := by
  intro item hitem
  have hmem := mem_map_of_mem (f := fun item : Item => (item.key, item.size)) hitem
  rw [decide_objects] at hmem
  exact Table.mem_of_getElem? (Std.ExtTreeMap.mem_toList_iff_getElem?_eq_some.mp hmem)

theorem decide_reverify {atDestination : Listing} {verify : VerifyMode}
    (h : item ∈ (Plan.decide atSource atDestination verify).items)
    (haction : item.action = .reverify) : verify = .strict := by
  obtain ⟨object, -, rfl⟩ := mem_map.mp h
  exact (classify_action object.2 atDestination[object.1]? verify).1 haction

/-- Whatever the two stores answer, the report of a replication is true of the run if and only if
the ranges that were the beginning of an object were all of the window; and no run, not even one
that is cut short, writes an object that is not at the source or deletes any. -/
theorem replicate_sound_iff (blake3 : Bytes → Bytes) (verify : VerifyMode) (remote : String)
    (atSource atDestination : Listing) (stats : Stats) {l : List Exchange}
    {result : Outcome × Stats}
    (h : Prog.Plays (run blake3 verify remote (Plan.decide atSource atDestination verify) stats).run
      l (.ok result)) :
    (Sound blake3 verify atSource stats l result ↔ FullSamples l) ∧
      Counts (Plan.decide atSource atDestination verify).summary
        (Plan.decide atSource atDestination verify).items ∧
      (run blake3 verify remote (Plan.decide atSource atDestination verify) stats).run.Asks
        (Request.KeepsOthers atSource) := by
  obtain ⟨hobjects, hcounts, hgained, hall, hkeys⟩ := plays_run h
  refine ⟨⟨fun hsound => ?_, fun hfull => ?_⟩, decide_counts ..,
    runItems_asks (decide_keys _ _ _) ..⟩
  · intro key bytes range served hread hserved hbegins
    obtain ⟨done, hdone, rfl⟩ := hkeys _ hread
    obtain ⟨item, -, hhandles⟩ := forall₂_exists_left hall hdone
    obtain ⟨hlevel, haction, hreads, hsamples⟩ := hhandles.accepts hread hserved hbegins
    obtain ⟨bytes', served', hread', hserved', htake⟩ :=
      hsound.sampled hlevel done hdone (by rw [haction]; rfl)
    obtain rfl := hreads bytes' hread'
    obtain rfl := hsamples _ served' hserved'
    rw [htake, length_take]
    exact Nat.min_eq_left (Nat.min_le_right _ _)
  · refine ⟨hobjects, hcounts, hgained, ?_, ?_, ?_, ?_, ?_⟩
    · rintro rfl done hdone hdoneVerified
      obtain ⟨item, hitem, hhandles⟩ := forall₂_exists_left hall hdone
      cases haction : done.action with
      | reverify => cases decide_reverify hitem (hhandles.reverified haction).1
      | replicate =>
        obtain ⟨bytes, served, hread, hserved, hbegins⟩ := hhandles.sampled haction
        refine ⟨bytes, served, hread, hserved, ?_⟩
        rw [← hfull done.key bytes _ served hread hserved hbegins]
        exact prefix_iff_eq_take.mp hbegins
      | skip =>
        rw [haction] at hdoneVerified
        cases hdoneVerified
      | failed =>
        rw [haction] at hdoneVerified
        cases hdoneVerified
    · rintro rfl done hdone hdoneVerified
      obtain ⟨item, hitem, hhandles⟩ := forall₂_exists_left hall hdone
      cases haction : done.action with
      | reverify => exact (hhandles.reverified haction).2.1
      | replicate => exact hhandles.strict haction
      | skip =>
        rw [haction] at hdoneVerified
        cases hdoneVerified
      | failed =>
        rw [haction] at hdoneVerified
        cases hdoneVerified
    · intro done hdone haction
      obtain ⟨item, hitem, hhandles⟩ := forall₂_exists_left hall hdone
      exact (hhandles.reverified haction).2
    · intro done hdone haction
      obtain ⟨item, -, hhandles⟩ := forall₂_exists_left hall hdone
      obtain ⟨bytes, -, hread, hput, -⟩ := hhandles.replicated haction
      exact ⟨bytes, hread, hput⟩
    · intro done hdone hdoneVerified
      obtain ⟨item, hitem, hhandles⟩ := forall₂_exists_left hall hdone
      exact hhandles.not_wentWrong hdoneVerified

def oneObject : Listing := Std.ExtTreeMap.insert ∅ "k" 3

/-- Stores that hold the object, of which the destination serves `sample` for a range. -/
def serving (sample : Bytes) : (r : Request) → Answer r
  | .get .. => .ok [1, 2, 3]
  | .getRange .. => .ok sample
  | .put .. | .delete .. => .ok ()
  | .record _ => .ok ()

def sampledRun : Prog.Fallible Request Answer CliError (Outcome × Stats) :=
  run id .sample "offsite" (Plan.decide oneObject ∅ .sample) {}

def copied : Item := ⟨.replicate, "k", 3, planReasonMissing⟩

def exchanges (sample : Bytes) : List Exchange :=
  [⟨.get .source "k", .ok [1, 2, 3]⟩,
    ⟨.put .destination "k" [1, 2, 3] (contentHash id [1, 2, 3]), .ok ()⟩,
    ⟨.getRange .destination "k" ⟨0, some 3⟩, .ok sample⟩,
    ⟨.record (auditEntry "offsite" ⟨copied, hexEncode [1, 2, 3]⟩), .ok ()⟩]

def reported : Outcome × Stats :=
  (⟨[copied], { objects := 1, replicated := 1, bytes := 3 }⟩,
    { bytesTransferred := 3, bytesTotal := 3, bytesVerified := 3, filesDone := 1, filesTotal := 1 })

theorem plays_full : Prog.Plays sampledRun.run (exchanges [1, 2, 3]) (.ok reported) :=
  Prog.plays_transcript (serving [1, 2, 3]) sampledRun.run

theorem plays_short : Prog.Plays sampledRun.run (exchanges []) (.ok reported) :=
  Prog.plays_transcript (serving []) sampledRun.run

/-- A destination that serves the whole window. -/
theorem replicate_sound_sample : Sound id .sample oneObject {} (exchanges [1, 2, 3]) reported := by
  have hiff := replicate_sound_iff id .sample "offsite" oneObject ∅ {} plays_full
  refine hiff.1.mpr fun key bytes range served hread hserved _ => ?_
  simp [exchanges] at hread hserved
  rw [hread.2, hserved.2]
  rfl

/-- A destination that serves nothing for the range is reported as a verified replica. -/
theorem replicate_short_sample :
    ∃ l result, Prog.Plays sampledRun.run l (.ok result) ∧
      ¬Sound id .sample oneObject {} l result := by
  refine ⟨exchanges [], reported, plays_short, fun hsound => ?_⟩
  obtain ⟨bytes, served, hread, hserved, htake⟩ :=
    hsound.sampled rfl copied mem_cons_self rfl
  simp [exchanges] at hread hserved
  rw [hread.2, hserved.2] at htake
  cases htake

end Dctl.Replicate
