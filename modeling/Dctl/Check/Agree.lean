import Dctl.Check.Walk

/-! When `check` finds two sides the same and when a transfer skips the file: both read the same
flags, but a transfer compares times as they are and `check` compares whole seconds. -/

namespace Dctl.Check

open Cli ProofKit Transfer

variable {globals : GlobalArgs} {policy : ComparePolicy} {comparison : Comparison} {o : ListOptions}
  {s d : Stored} {path : String} {t u : Int} {w : Nat}

namespace Stored

def size : Stored → Option Nat
  | .localFile len _ _ => some len
  | .object size _ _ => some size
  | .row size .. => size

def time : Stored → Option SystemTime
  | .localFile _ modified _ => modified
  | .object _ modifiedUnix _ => modifiedUnix.bind unixSeconds
  | .row _ modifiedUnix .. => modifiedUnix.bind unixSeconds

def digest : Stored → Option Bytes
  | .localFile _ _ digest => some digest
  | .object _ _ digest => some digest
  | .row size _ recorded digest _ => recorded.or (if size = none then digest.toOption else none)

def early : Stored → Bool
  | .localFile _ (some t) _ => t < 0
  | _ => false

end Stored

/-- What the flags compare is known of both sides. -/
def Known (globals : GlobalArgs) (s d : Stored) : Prop :=
  if globals.checksum then s.digest.isSome ∧ d.digest.isSome
  else s.size.isSome ∧ d.size.isSome ∧
    (globals.sizeOnly = false → s.time.isSome ∧ d.time.isSome)

/-- What the flags compare is the same on both sides, times to within the window. -/
def Alike (globals : GlobalArgs) (s d : Stored) : Prop :=
  if globals.checksum then s.digest = d.digest
  else s.size = d.size ∧ (globals.sizeOnly = false →
    ∃ t u, s.time = some t ∧ d.time = some u ∧
      (t - u).natAbs ≤ Duration.fromSecs globals.modifyWindow)

/-- At the edge of the window the time with more whole seconds has no more of the next one. -/
def EdgeClear (w : Nat) (t u : Int) : Prop :=
  (t / 1000000000 - u / 1000000000 = w → t % 1000000000 ≤ u % 1000000000) ∧
    (u / 1000000000 - t / 1000000000 = w → u % 1000000000 ≤ t % 1000000000)

theorem natAbs_le_iff (z : Int) (n : Nat) : z.natAbs ≤ n ↔ -(n : Int) ≤ z ∧ z ≤ n := by omega

theorem within_iff : (t - u).natAbs ≤ Duration.fromSecs w ↔
    (t / 1000000000 - u / 1000000000).natAbs ≤ w ∧ EdgeClear w t u := by
  have ht := Int.emod_add_mul_ediv t 1000000000
  have hu := Int.emod_add_mul_ediv u 1000000000
  have htpos := Int.emod_nonneg t (show (1000000000 : Int) ≠ 0 by decide)
  have hupos := Int.emod_nonneg u (show (1000000000 : Int) ≠ 0 by decide)
  have htlt := Int.emod_lt_of_pos t (show (0 : Int) < 1000000000 by decide)
  have hult := Int.emod_lt_of_pos u (show (0 : Int) < 1000000000 by decide)
  unfold EdgeClear Duration.fromSecs
  rw [natAbs_le_iff, natAbs_le_iff]
  push_cast
  generalize t / 1000000000 = q at *
  generalize t % 1000000000 = r at *
  generalize u / 1000000000 = q' at *
  generalize u % 1000000000 = r' at *
  subst ht hu
  constructor
  · intro h
    refine ⟨by omega, fun hedge => ?_, fun hedge => ?_⟩ <;> omega
  · rintro ⟨h, habove, hbelow⟩
    by_cases hq : q - q' = w
    · have hr := habove hq
      omega
    · by_cases hq' : q' - q = w
      · have hr := hbelow hq'
        omega
      · omega

theorem edgeClear_of_far (h : ¬ (t / 1000000000 - u / 1000000000).natAbs ≤ w) : EdgeClear w t u :=
  ⟨fun hedge => absurd hedge (by omega), fun hedge => absurd hedge (by omega)⟩

theorem durationSince_any {window : Nat} :
    ((durationSince t u).or (durationSince u t)).any (fun delta => delta ≤ window) = true ↔
      (t - u).natAbs ≤ window := by
  have hunfold : ∀ a b : Int, durationSince a b = if b ≤ a then some (a - b).toNat else none :=
    fun _ _ => rfl
  rw [hunfold, hunfold]
  by_cases hle : u ≤ t
  · rw [if_pos hle, Option.some_or, Option.any_some, decide_eq_true_iff,
      show (t - u).toNat = (t - u).natAbs by omega]
  · rw [if_neg hle, Option.none_or, if_pos (by omega), Option.any_some, decide_eq_true_iff,
      show (u - t).toNat = (t - u).natAbs by omega]

theorem modifiedMatches_iff {source dest : Transfer.Entry} {window : Duration} :
    source.modifiedMatches dest window = true ↔
      ∃ t u, source.modified = some t ∧ dest.modified = some u ∧ (t - u).natAbs ≤ window := by
  unfold Entry.modifiedMatches
  cases hs : source.modified with
  | none => simp
  | some t =>
    cases hd : dest.modified with
    | none => simp
    | some u =>
      dsimp only
      rw [durationSince_any]
      constructor
      · exact fun h => ⟨t, u, rfl, rfl, h⟩
      · rintro ⟨_, _, ⟨⟩, ⟨⟩, h⟩
        exact h

theorem remoteEntry_ok {object : RemoteObject} {digest : Option String}
    (h : o.hashContents = true → object.contentHash.isSome ∨ object.digest = .ok digest) :
    ∃ e, remoteEntry o path object = .ok e ∧ e.size = object.size ∧
      e.modified = object.modifiedUnix.bind unixSeconds ∧ e.objectMissing = object.objectMissing ∧
      (o.hashContents = true → e.hash = object.contentHash.or digest) := by
  obtain ⟨_, size, modifiedUnix, recorded, asked, missing⟩ := object
  refine ⟨{ (match size with
      | some size => Entry.ofFile path size
      | none => Entry.unmeasuredFile path) with
    objectMissing := missing
    modified := modifiedUnix.bind unixSeconds
    hash := if o.hashContents then recorded.or digest else none }, ?_, ?_, rfl, rfl,
    fun hyes => if_pos hyes⟩
  · by_cases hhash : o.hashContents = true
    · cases recorded with
      | some recorded =>
        simp only [remoteEntry, hhash, if_true]
        cases size <;> rfl
      | none =>
        obtain rfl : asked = .ok digest := (h hhash).resolve_left nofun
        simp only [remoteEntry, hhash, if_true]
        cases size <;> rfl
    · simp only [remoteEntry, hhash]
      cases size <;> rfl
  · cases size <;> rfl

theorem planned_ok {reconciled : Bool} (h : o.hashContents = true → s.digest.isSome) :
    ∃ e, s.planned o reconciled path = .ok e ∧ e.size = s.size ∧ e.modified = s.time ∧
      e.objectMissing = (reconciled && !s.confirm) ∧
      (o.hashContents = true → e.hash = s.digest.map hexEncode) := by
  cases s with
  | localFile len modified digest =>
    refine ⟨{ Entry.ofFile path len with
      modified := modified
      hash := if o.hashContents then some (hexEncode digest) else none },
      ?_, rfl, rfl, (Bool.and_false _).symm, fun hyes => if_pos hyes⟩
    by_cases hhash : o.hashContents = true
    · simp only [Stored.planned, Listing.fileEntry, hhash, if_true]
      rfl
    · simp only [Stored.planned, Listing.fileEntry, hhash]
      rfl
  | object size modifiedUnix digest =>
    obtain ⟨e, he, hsize, hmodified, hmissing, hhash⟩ := @remoteEntry_ok o path
      ⟨path, some size, modifiedUnix, none, .ok (some (hexEncode digest)), false⟩ _ fun _ =>
        .inr rfl
    exact ⟨e, he, hsize, hmodified, hmissing.trans (Bool.and_false _).symm, hhash⟩
  | row size modifiedUnix recorded digest stands =>
    have hasked : o.hashContents = true → (recorded.map hexEncode).isSome ∨
        (if size = none then digest.map (some ∘ hexEncode) else .ok none) =
          .ok ((if size = none then digest.toOption else none).map hexEncode) := by
      intro hyes
      have hsome : (recorded.or (if size = none then digest.toOption else none)).isSome := h hyes
      cases recorded with
      | some recorded => exact .inl rfl
      | none =>
        right
        by_cases hsize : size = none
        · rw [if_pos hsize] at hsome ⊢
          rw [if_pos hsize]
          cases digest with
          | error e => cases hsome
          | ok digest => rfl
        · rw [if_neg hsize] at hsome
          cases hsome
    obtain ⟨e, he, hsize, hmodified, hmissing, hhash⟩ := @remoteEntry_ok o path
      ⟨path, size, modifiedUnix, recorded.map hexEncode, _, reconciled && !stands⟩ _ hasked
    refine ⟨e, he, hsize, hmodified, hmissing, fun hyes => (hhash hyes).trans ?_⟩
    show (recorded.map hexEncode).or _ = (recorded.or _).map hexEncode
    cases recorded <;> rfl

theorem ediv_unixSeconds {seconds : Int} (h : unixSeconds seconds = some t) :
    t / 1000000000 = seconds := by
  unfold unixSeconds at h
  split at h
  · cases h
  · obtain rfl := Option.some.inj h
    exact Int.mul_ediv_cancel _ (by decide)

theorem modifiedUnix_entry (h : s.time = some t) :
    (s.entry path).modifiedUnix = if s.early then none else some (t / 1000000000) := by
  cases s with
  | localFile len modified digest =>
    obtain rfl : modified = some t := h
    show modifiedUnix t = _
    unfold modifiedUnix Stored.early
    by_cases ht : 0 ≤ t
    · rw [if_pos ht, if_neg (by simpa using ht)]
    · rw [if_neg ht, if_pos (by simpa using ht)]
  | object size modifiedUnix digest =>
    obtain ⟨seconds, rfl, hseconds⟩ := Option.bind_eq_some_iff.mp h
    exact congrArg some (ediv_unixSeconds hseconds).symm
  | row size modifiedUnix recorded digest stands =>
    obtain ⟨seconds, rfl, hseconds⟩ := Option.bind_eq_some_iff.mp h
    exact congrArg some (ediv_unixSeconds hseconds).symm

theorem size_entry (path : String) (s : Stored) : (s.entry path).size = s.size := by
  cases s <;> rfl

theorem hash_eq {digest : Bytes} (h : s.digest = some digest) :
    s.hash path = .ok (hexEncode digest) := by
  cases s with
  | localFile len modified digest' =>
    obtain rfl := Option.some.inj h
    rfl
  | object size modifiedUnix digest' =>
    obtain rfl := Option.some.inj h
    rfl
  | row size modifiedUnix recorded digest' stands =>
    cases recorded with
    | some recorded =>
      obtain rfl : recorded = digest := Option.some.inj h
      rfl
    | none =>
      have hread : (if size = none then digest'.toOption else none) = some digest := h
      by_cases hsize : size = none
      · rw [if_pos hsize] at hread
        cases digest' with
        | error e => cases hread
        | ok digest' =>
          obtain rfl : digest' = digest := Option.some.inj hread
          rfl
      · rw [if_neg hsize] at hread
        cases hread

theorem lowercase_hexChars (bs : Bytes) : (hexChars bs).map toAsciiLowercase = hexChars bs := by
  have hdigit : ∀ n < 16, toAsciiLowercase (hexDigit n) = hexDigit n := by decide
  induction bs with
  | nil => rfl
  | cons b bs ih =>
    have hb := b.toNat_lt
    rw [hexChars, List.map_cons, List.map_cons, ih, hdigit _ (by omega), hdigit _ (by omega)]

theorem eqIgnoreAsciiCase_hexEncode {a b : Bytes} :
    eqIgnoreAsciiCase (hexEncode a) (hexEncode b) = true ↔ a = b := by
  unfold eqIgnoreAsciiCase hexEncode
  rw [decide_eq_true_iff, String.toList_ofList, String.toList_ofList, lowercase_hexChars,
    lowercase_hexChars]
  constructor
  · intro h
    have hback := congrArg hexBytes h
    rwa [hexBytes_hexChars, hexBytes_hexChars, Option.some.injEq] at hback
  · rintro rfl
    rfl

theorem confirmed_eq (s : Stored) : s.confirmed = if s.confirm then some s else none := by
  cases s with
  | localFile len modified digest => rfl
  | object size modifiedUnix digest => rfl
  | row size modifiedUnix recorded digest stands => cases stands <;> rfl

theorem resolvePolicy_ok (h : resolvePolicy globals false false = .ok policy) :
    policy = ⟨globals.checksum, globals.sizeOnly, false, false,
      Duration.fromSecs globals.modifyWindow⟩ := by
  unfold resolvePolicy resolveWindow at h
  split at h
  · cases h
  · exact (Except.ok.inj h).symm

theorem decideMetadata_skip {source dest : Transfer.Entry} {window : Duration}
    (hknown : s.size.isSome ∧ d.size.isSome ∧
      (globals.sizeOnly = false → s.time.isSome ∧ d.time.isSome))
    (hssize : source.size = s.size) (hstime : source.modified = s.time)
    (hdsize : dest.size = d.size) (hdtime : dest.modified = d.time) :
    decideMetadata source dest ⟨globals.checksum, globals.sizeOnly, false, false, window⟩ =
        .skip planReasonIdentical ↔
      s.size = d.size ∧ (globals.sizeOnly = false →
        ∃ t u, s.time = some t ∧ d.time = some u ∧ (t - u).natAbs ≤ window) := by
  obtain ⟨m, hm⟩ := Option.isSome_iff_exists.mp hknown.1
  obtain ⟨n, hn⟩ := Option.isSome_iff_exists.mp hknown.2.1
  have hmatches := @modifiedMatches_iff source dest window
  rw [hstime, hdtime] at hmatches
  unfold decideMetadata
  simp only [hssize, hdsize, hm, hn, Option.some.injEq]
  by_cases hsize : m = n
  · rw [if_neg (not_not.mpr hsize)]
    cases globals.sizeOnly with
    | true => simp [hsize]
    | false =>
      rw [if_neg Bool.false_ne_true, ← hmatches]
      cases source.modifiedMatches dest window with
      | true => simp [hsize]
      | false => simp [hsize]
  · rw [if_pos hsize]
    simp [hsize]

theorem skips_iff (hpolicy : resolvePolicy globals false false = .ok policy)
    (ho : o.hashContents = globals.checksum) (hknown : Known globals s d) :
    (∃ source dest, s.planned o false path = .ok source ∧ d.planned o true path = .ok dest ∧
      decide source (some dest) policy = .ok (.skip planReasonIdentical)) ↔
    d.confirm = true ∧ Alike globals s d := by
  obtain rfl := resolvePolicy_ok hpolicy
  unfold Known at hknown
  unfold Alike
  have hsome : o.hashContents = true → s.digest.isSome ∧ d.digest.isSome := by
    intro hyes
    rwa [if_pos (ho ▸ hyes)] at hknown
  obtain ⟨source, hs, hssize, hstime, -, hshash⟩ :=
    @planned_ok o s path false fun hyes => (hsome hyes).1
  obtain ⟨dest, hd, hdsize, hdtime, hdmissing, hdhash⟩ :=
    @planned_ok o d path true fun hyes => (hsome hyes).2
  rw [Bool.true_and] at hdmissing
  have hplans :
      (∃ source dest, s.planned o false path = .ok source ∧ d.planned o true path = .ok dest ∧
      decide source (some dest) ⟨globals.checksum, globals.sizeOnly, false, false,
        Duration.fromSecs globals.modifyWindow⟩ = .ok (.skip planReasonIdentical)) ↔
      decide source (some dest) ⟨globals.checksum, globals.sizeOnly, false, false,
        Duration.fromSecs globals.modifyWindow⟩ = .ok (.skip planReasonIdentical) := by
    constructor
    · rintro ⟨source', dest', hs', hd', hdecide⟩
      obtain rfl : source = source' := Except.ok.inj (hs.symm.trans hs')
      obtain rfl : dest = dest' := Except.ok.inj (hd.symm.trans hd')
      exact hdecide
    · exact fun hdecide => ⟨source, dest, hs, hd, hdecide⟩
  rw [hplans]
  unfold Transfer.decide
  simp only [hdmissing, Bool.false_and, Bool.false_eq_true, if_false]
  cases d.confirm with
  | false => simp [planReasonDestinationLost]
  | true =>
    simp only [Bool.not_true, Bool.false_eq_true, if_false, true_and]
    by_cases hchecksum : globals.checksum = true
    · rw [if_pos hchecksum] at hknown
      obtain ⟨a, ha⟩ := Option.isSome_iff_exists.mp hknown.1
      obtain ⟨b, hb⟩ := Option.isSome_iff_exists.mp hknown.2
      rw [if_pos hchecksum, if_pos hchecksum, ha, hb, decideChecksum, hshash (ho ▸ hchecksum),
        hdhash (ho ▸ hchecksum), ha, hb]
      simp only [Option.map_some, Except.ok.injEq, Option.some.injEq, hexEncode_inj]
      by_cases hab : a = b
      · simp [hab]
      · simp [hab]
    · rw [if_neg hchecksum] at hknown
      rw [if_neg hchecksum, if_neg hchecksum, Except.ok.injEq]
      exact decideMetadata_skip hknown hssize hstime hdsize hdtime

theorem fromGlobals_checksum (h : Comparison.fromGlobals globals = .ok comparison)
    (hchecksum : globals.checksum = true) : comparison = .checksum := by
  unfold Comparison.fromGlobals at h
  rw [if_pos hchecksum] at h
  exact (Except.ok.inj h).symm

theorem fromGlobals_metadata (h : Comparison.fromGlobals globals = .ok comparison)
    (hchecksum : ¬ globals.checksum = true) :
    comparison = if globals.sizeOnly then .sizeOnly else .sizeAndModTime globals.modifyWindow := by
  unfold Comparison.fromGlobals at h
  rw [if_neg hchecksum] at h
  cases hsize : globals.sizeOnly with
  | true =>
    rw [hsize, if_pos rfl] at h
    exact (Except.ok.inj h).symm
  | false =>
    rw [hsize, if_neg Bool.false_ne_true, resolveWindow] at h
    split at h
    · cases h
    · exact (Except.ok.inj h).symm

theorem hashed_eq {digest : Bytes} (h : s.digest = some digest) :
    s.hashed path = some { s.entry path with hash := some (hexEncode digest) } := by
  rw [Stored.hashed, hash_eq h]
  rfl

theorem classify_both {a b : Entry} :
    classify (some a) (some b) comparison = .matched ↔ comparison.same a b = some true := by
  simp only [classify]
  cases comparison.same a b with
  | none => simp
  | some same => cases same <;> simp

theorem matched_metadata (h : Comparison.fromGlobals globals = .ok comparison)
    (hchecksum : ¬ globals.checksum = true)
    (hknown : s.size.isSome ∧ d.size.isSome ∧
      (globals.sizeOnly = false → s.time.isSome ∧ d.time.isSome)) :
    classify (some (s.entry path)) (some (d.entry path)) comparison = .matched ↔
      s.size = d.size ∧ (globals.sizeOnly = false → s.early = false ∧ d.early = false ∧
        ∃ t u, s.time = some t ∧ d.time = some u ∧
          (t / 1000000000 - u / 1000000000).natAbs ≤ globals.modifyWindow) := by
  obtain rfl := fromGlobals_metadata h hchecksum
  obtain ⟨m, hm⟩ := Option.isSome_iff_exists.mp hknown.1
  obtain ⟨n, hn⟩ := Option.isSome_iff_exists.mp hknown.2.1
  rw [classify_both]
  cases hsize : globals.sizeOnly with
  | true => simp [Comparison.same, size_entry, hm, hn]
  | false =>
    obtain ⟨htime, hutime⟩ := hknown.2.2 hsize
    obtain ⟨t, ht⟩ := Option.isSome_iff_exists.mp htime
    obtain ⟨u, hu⟩ := Option.isSome_iff_exists.mp hutime
    simp only [Bool.false_eq_true, if_false, Comparison.same, size_entry, hm, hn,
      modifiedUnix_entry ht, modifiedUnix_entry hu, ht, hu, Option.some.injEq]
    by_cases hmn : m = n
    · cases s.early <;> cases d.early <;> simp [hmn]
    · simp [hmn]

theorem matched_iff (hcomparison : Comparison.fromGlobals globals = .ok comparison)
    (hknown : Known globals s d) :
    compare path (some s) (some d) comparison = .matched ↔
      s.confirm = true ∧ d.confirm = true ∧
      if globals.checksum then s.digest = d.digest
      else s.size = d.size ∧ (globals.sizeOnly = false → s.early = false ∧ d.early = false ∧
        ∃ t u, s.time = some t ∧ d.time = some u ∧
          (t / 1000000000 - u / 1000000000).natAbs ≤ globals.modifyWindow) := by
  unfold Known at hknown
  unfold compare
  rw [Option.bind_some, Option.bind_some, confirmed_eq, confirmed_eq]
  cases s.confirm with
  | false => cases d.confirm <;> simp [classify]
  | true =>
    cases d.confirm with
    | false => simp [classify]
    | true =>
      simp only [if_true, true_and]
      by_cases hchecksum : globals.checksum = true
      · rw [if_pos hchecksum] at hknown ⊢
        obtain ⟨a, ha⟩ := Option.isSome_iff_exists.mp hknown.1
        obtain ⟨b, hb⟩ := Option.isSome_iff_exists.mp hknown.2
        obtain rfl : comparison = .checksum := fromGlobals_checksum hcomparison hchecksum
        have hsource := @hashed_eq s path a ha
        have hdest := @hashed_eq d path b hb
        simp only [Comparison.provesContents, decide_true, if_true, hsource, hdest, classify,
          Comparison.same, ha, hb, Option.some.injEq, ← @eqIgnoreAsciiCase_hexEncode a b]
        cases eqIgnoreAsciiCase (hexEncode a) (hexEncode b) <;> simp
      · rw [if_neg hchecksum] at hknown ⊢
        have hnot : ¬ comparison.provesContents = true := by
          rw [fromGlobals_metadata hcomparison hchecksum]
          cases globals.sizeOnly <;> simp [Comparison.provesContents]
        rw [if_neg hnot]
        exact matched_metadata hcomparison hchecksum hknown

/-- What the two commands need to agree: if the destination is there and both are alike, the source
is there and no time that counts lies before the epoch; and at the edge of the window the whole
seconds decide rightly. -/
def Agreeable (globals : GlobalArgs) (s d : Stored) : Prop :=
  d.confirm = true →
    (Alike globals s d → s.confirm = true ∧
      (globals.checksum = false → globals.sizeOnly = false → s.early = false ∧ d.early = false)) ∧
    (s.confirm = true → globals.checksum = false → globals.sizeOnly = false → s.size = d.size →
      s.early = false → d.early = false → ∀ t u, s.time = some t → d.time = some u →
        EdgeClear globals.modifyWindow t u)

/-- A transfer skips the file as identical exactly when `check` finds a match, if and only if the
two are agreeable. -/
theorem skips_iff_matched (hpolicy : resolvePolicy globals false false = .ok policy)
    (hcomparison : Comparison.fromGlobals globals = .ok comparison)
    (ho : o.hashContents = globals.checksum) (hknown : Known globals s d) (path : String) :
    ((∃ source dest, s.planned o false path = .ok source ∧ d.planned o true path = .ok dest ∧
        Transfer.decide source (some dest) policy = .ok (.skip planReasonIdentical)) ↔
      compare path (some s) (some d) comparison = .matched) ↔ Agreeable globals s d := by
  rw [skips_iff hpolicy ho hknown, matched_iff hcomparison hknown]
  unfold Agreeable Alike
  cases hconfirm : d.confirm with
  | false => simp
  | true =>
    by_cases hchecksum : globals.checksum = true
    · simp only [hchecksum]
      by_cases heq : s.digest = d.digest <;> simp [heq]
    · rw [Bool.not_eq_true] at hchecksum
      cases hsize : globals.sizeOnly with
      | true =>
        by_cases heq : s.size = d.size <;> simp [hchecksum, heq]
      | false =>
        unfold Known at hknown
        rw [hchecksum, if_neg Bool.false_ne_true] at hknown
        obtain ⟨htime, hutime⟩ := hknown.2.2 hsize
        obtain ⟨t, ht⟩ := Option.isSome_iff_exists.mp htime
        obtain ⟨u, hu⟩ := Option.isSome_iff_exists.mp hutime
        have halike : (∃ t u, s.time = some t ∧ d.time = some u ∧
            (t - u).natAbs ≤ Duration.fromSecs globals.modifyWindow) ↔
              (t / 1000000000 - u / 1000000000).natAbs ≤ globals.modifyWindow ∧
                EdgeClear globals.modifyWindow t u := by
          rw [← within_iff]
          constructor
          · rintro ⟨t', u', ht', hu', h⟩
            cases ht.symm.trans ht'
            cases hu.symm.trans hu'
            exact h
          · exact fun h => ⟨t, u, ht, hu, h⟩
        have hseconds : (∃ t u, s.time = some t ∧ d.time = some u ∧
            (t / 1000000000 - u / 1000000000).natAbs ≤ globals.modifyWindow) ↔
              (t / 1000000000 - u / 1000000000).natAbs ≤ globals.modifyWindow := by
          constructor
          · rintro ⟨t', u', ht', hu', h⟩
            cases ht.symm.trans ht'
            cases hu.symm.trans hu'
            exact h
          · exact fun h => ⟨t, u, ht, hu, h⟩
        have hedge :
            (∀ t u, s.time = some t → d.time = some u → EdgeClear globals.modifyWindow t u) ↔
            EdgeClear globals.modifyWindow t u := by
          constructor
          · exact fun h => h t u ht hu
          · intro h t' u' ht' hu'
            cases ht.symm.trans ht'
            cases hu.symm.trans hu'
            exact h
        have hfar : ¬ (t / 1000000000 - u / 1000000000).natAbs ≤ globals.modifyWindow →
            EdgeClear globals.modifyWindow t u := edgeClear_of_far
        rw [halike, hseconds, hedge]
        simp only [hchecksum, Bool.false_eq_true, if_false, true_and, forall_const]
        grind

def listAll : ListOptions := ⟨.everything, false, false, .skip⟩

/-- Two objects of plain stores, a second apart. -/
theorem skips_iff_matched_objects :
    ((∃ source dest, (Stored.object 5 (some 9) []).planned listAll false "a" = .ok source ∧
        (Stored.object 5 (some 10) []).planned listAll true "a" = .ok dest ∧
        Transfer.decide source (some dest) ⟨false, false, false, false, Duration.fromSecs 1⟩ =
          .ok (.skip planReasonIdentical)) ↔
      compare "a" (some (.object 5 (some 9) [])) (some (.object 5 (some 10) []))
        (.sizeAndModTime 1) = .matched) ↔
    Agreeable ⟨false, false, 1⟩ (.object 5 (some 9) []) (.object 5 (some 10) []) := by
  have hknown : Known ⟨false, false, 1⟩ (.object 5 (some 9) []) (.object 5 (some 10) []) :=
    ⟨rfl, rfl, fun _ => ⟨rfl, rfl⟩⟩
  exact skips_iff_matched rfl rfl rfl hknown "a"

/-- A local file of 10.9 s and a copy stored with 9 s: `check` finds a match, and a transfer sends
the file again. -/
theorem edge_disagrees :
    ¬ ((∃ source dest,
        (Stored.localFile 5 (some 10900000000) []).planned listAll false "a" = .ok source ∧
        (Stored.object 5 (some 9) []).planned listAll true "a" = .ok dest ∧
        Transfer.decide source (some dest) ⟨false, false, false, false, Duration.fromSecs 1⟩ =
          .ok (.skip planReasonIdentical)) ↔
      compare "a" (some (.localFile 5 (some 10900000000) [])) (some (.object 5 (some 9) []))
        (.sizeAndModTime 1) =
        .matched) := by
  intro h
  obtain ⟨source, dest, hsource, hdest, hskip⟩ := h.mpr rfl
  cases hsource
  cases hdest
  have hupdate : Transfer.decide ⟨"a", some 5, some 10900000000, none, .file, false⟩
      (some ⟨"a", some 5, some 9000000000, none, .file, false⟩)
      ⟨false, false, false, false, Duration.fromSecs 1⟩ = .ok (.update planReasonModified) := rfl
  exact absurd (hupdate.symm.trans hskip) (by decide)

end Dctl.Check
