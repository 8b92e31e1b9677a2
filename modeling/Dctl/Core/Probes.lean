import Dctl.Core.Rebuild

/-! How the header of an object is found (`range.rs`): a bounded number of probes, each for the
length that the one before it asked for.  What a probe asks for is decided by the lengths that the
head declares, and a probe that was answered in full has passed one of them. -/

namespace Dctl.Core

open ProofKit Crypto Object List

def maxHeaderLen : Nat := minProbeLen + 65535 + wrappedDekLen + 4 + metaMaxLen

def metaLenAt (object : Bytes) : Nat := minProbeLen + leAt object objectHeadLen 2 + wrappedDekLen

def declaredHeaderLen (object : Bytes) : Nat :=
  metaLenAt object + 4 + leAt object (metaLenAt object) 4

def OnlyFormat {α : Type} (x : Except CryptoError α) : Prop :=
  ∀ e, x = .error e → ∃ message, e = .format message

section

variable {α β : Type}

theorem onlyFormat_ok (a : α) : OnlyFormat (.ok a) := nofun

theorem onlyFormat_reject (bad : Prop) [Decidable bad] (message : String) :
    OnlyFormat (reject bad (.format message)) := by
  intro e he
  rw [reject] at he
  split at he
  · exact ⟨message, (Except.error.inj he).symm⟩
  · cases he

theorem OnlyFormat.bind {x : Except CryptoError α} {f : α → Except CryptoError β}
    (hx : OnlyFormat x) (hf : ∀ a, OnlyFormat (f a)) : OnlyFormat (x >>= f) := by
  cases x with
  | error e =>
    intro e' he
    obtain ⟨message, rfl⟩ := hx e rfl
    exact ⟨message, (Except.error.inj he).symm⟩
  | ok a => exact hf a

end

theorem parseHead_onlyFormat (bytes : Bytes) : OnlyFormat (parseHead bytes) := by
  refine .bind (onlyFormat_reject _ _) fun _ => .bind (onlyFormat_reject _ _) fun _ =>
    .bind (onlyFormat_reject _ _) fun _ => .bind (onlyFormat_reject _ _) fun _ =>
    .bind (onlyFormat_reject _ _) fun _ => .bind (onlyFormat_reject _ _) fun _ =>
    .bind (onlyFormat_reject _ _) fun _ => .bind (onlyFormat_reject _ _) fun _ => onlyFormat_ok _

theorem onlyFormat_cases {α : Type} {x : Except CryptoError α} (hx : OnlyFormat x) :
    (∃ message, x = .error (.format message)) ∨ ∃ a, x = .ok a := by
  cases x with
  | error e =>
    obtain ⟨message, rfl⟩ := hx e rfl
    exact .inl ⟨message, rfl⟩
  | ok a => exact .inr ⟨a, rfl⟩

/-- What a format error says of the object: the head does not parse, the length of its key block
does not go with its `kem_id`, or the length of its metadata is out of range. -/
inductive Malformed (object : Bytes) : String → Prop
  | head {n : Nat} {message : String} : minProbeLen ≤ (object.take n).length →
      parseHead (object.take n) = .error (.format message) → Malformed object message
  | block {n : Nat} {message : String} {head : Head} : parseHead (object.take n) = .ok head →
      (head.kemId = kemIdNone ∧ leAt object objectHeadLen 2 ≠ 0 ∨
        head.kemId = kemIdHybrid ∧ leAt object objectHeadLen 2 = 0) → Malformed object message
  | metadata {message : String} : leAt object (metaLenAt object) 4 < metaMinLen ∨
      metaMaxLen < leAt object (metaLenAt object) 4 → Malformed object message

inductive Probed (object front : Bytes) : Except CryptoError HeaderExtent → Prop
  | malformed {message : String} : Malformed object message →
      Probed object front (.error (.format message))
  | head : front.length < minProbeLen → Probed object front (.ok (.short minProbeLen))
  | block : minProbeLen ≤ front.length → front.length < metaLenAt object + 4 →
      Probed object front (.ok (.short (metaLenAt object + 4)))
  | metadata : metaLenAt object + 4 ≤ front.length → front.length < declaredHeaderLen object →
      declaredHeaderLen object ≤ metaLenAt object + 4 + metaMaxLen →
      Probed object front (.ok (.short (declaredHeaderLen object)))
  | complete : declaredHeaderLen object ≤ front.length →
      Probed object front (.ok (.complete (declaredHeaderLen object)))

theorem probed_take (object : Bytes) (want : Nat) :
    Probed object (object.take want) (headerExtent (object.take want)) := by
  have hle : (object.take want).length ≤ want := length_take_le _ _
  have hread : ∀ {i n}, i + n ≤ (object.take want).length →
      leAt (object.take want) i n = leAt object i n := fun h => leAt_take (h.trans hle)
  generalize hfront : object.take want = front at hread
  rw [headerExtent]
  split
  next hshort => exact .head hshort
  next hprobe =>
    rw [not_lt] at hprobe
    subst hfront
    rcases onlyFormat_cases (parseHead_onlyFormat (object.take want))
      with ⟨message, herror⟩ | ⟨head, hhead⟩
    · rw [herror]
      exact .malformed (.head hprobe herror)
    have hkem : readU16 (object.take want) objectHeadLen = .ok (leAt object objectHeadLen 2) := by
      rw [readU16, reject, if_neg (not_lt.mpr hprobe), ok_bind, hread hprobe]
      rfl
    rw [hhead, ok_bind, hkem, ok_bind]
    simp only
    by_cases hnone : head.kemId = kemIdNone ∧ leAt object objectHeadLen 2 ≠ 0
    · rw [reject, if_pos hnone]
      exact .malformed (.block hhead (.inl hnone))
    rw [reject, if_neg hnone, ok_bind]
    by_cases hhybrid : head.kemId = kemIdHybrid ∧ leAt object objectHeadLen 2 = 0
    · rw [reject, if_pos hhybrid]
      exact .malformed (.block hhead (.inr hhybrid))
    rw [reject, if_neg hhybrid, ok_bind, ← metaLenAt]
    split
    next hblock => exact .block hprobe hblock
    next hblock =>
      rw [not_lt] at hblock
      have hmeta : readU32 (object.take want) (metaLenAt object) =
          .ok (leAt object (metaLenAt object) 4) := by
        rw [readU32, reject, if_neg (not_lt.mpr hblock), ok_bind, hread hblock]
        rfl
      rw [hmeta, ok_bind, ← declaredHeaderLen]
      by_cases hrange : leAt object (metaLenAt object) 4 < metaMinLen ∨
          metaMaxLen < leAt object (metaLenAt object) 4
      · rw [reject, if_pos hrange]
        exact .malformed (.metadata hrange)
      rw [reject, if_neg hrange, ok_bind]
      split
      next hmetadata =>
        refine .metadata hblock hmetadata (Nat.add_le_add_left ?_ _)
        exact not_lt.mp fun h => hrange (.inr h)
      next hall => exact .complete (not_lt.mp hall)

/-- The three ways in which the probes may end: with a front that holds the header, with an object
that ends inside it, or with one that is malformed. -/
inductive Settled (path : String) (object : Bytes) : Except CoreError (Bytes × Nat) → Prop
  | found (n : Nat) : declaredHeaderLen object ≤ (object.take n).length →
      Settled path object (.ok (object.take n, declaredHeaderLen object))
  | truncated : object.length < declaredHeaderLen object →
      Settled path object (.error (truncated path))
  | malformed {message : String} : Malformed object message →
      Settled path object (.error (.crypto (.format message)))

def probesLeft (object : Bytes) (want : Nat) : Nat :=
  if want < metaLenAt object + 4 then 3 else if want < declaredHeaderLen object then 2 else 1

variable {s : Stores} {key path : String} {object : Bytes}

theorem honest_getRange (hobject : s.objects[key]? = some object) {want : Nat}
    (x : Except StoreError Bytes) (s' : Stores) :
    honest s (.getRange key 0 want) x s' ↔ x = .ok (object.take want) ∧ s' = s := by
  have hget : s.objects.getRange key 0 want = .ok (object.take want) := by
    simp [Backend.getRange, Backend.get, hobject, okOr, reject]
  rw [honest, Stores.Honest, hget]

theorem metaLenAt_le (object : Bytes) : metaLenAt object + 4 + metaMaxLen ≤ maxHeaderLen := by
  have := leAt_lt object objectHeadLen 2
  simp only [metaLenAt, maxHeaderLen]
  omega

/-- Against stores that work, a program that goes on from the log has exactly one outcome, and has
asked for the fronts of these lengths. -/
def Outcome {α : Type} (s : Stores) (key : String) (p : VaultM α) (log : List Request)
    (out : Except CoreError α) (asked : List Nat) : Prop :=
  ∀ o t, Prog.Run (Prog.Server.logged honest) p.run (s, log) o t ↔
    o = out ∧ t = (s, log ++ asked.map (.getRange key 0))

theorem outcome_ofExcept {α : Type} (x : Except CoreError α) (log : List Request) :
    Outcome s key (Prog.ofExcept x) log x [] := by
  intro o t
  rw [Prog.run_ofExcept, map_nil, append_nil, eq_comm, eq_comm (a := (s, log))]

def afterProbe (key path : String) (remaining want : Nat) (front : Bytes) :
    Except CryptoError HeaderExtent → VaultM (Bytes × Nat)
  | .error e => Prog.ofExcept (.error (.crypto e))
  | .ok (.complete headerLen) => Prog.ofExcept (.ok (front, headerLen))
  | .ok (.short need) =>
    if want ≤ front.length then askHeaderLoop key path remaining need
    else Prog.ofExcept (.error (truncated path))

theorem outcome_askHeaderLoop_succ (hobject : s.objects[key]? = some object)
    {remaining want : Nat} {log : List Request} {out : Except CoreError (Bytes × Nat)}
    {asked : List Nat}
    (h : Outcome s key (afterProbe key path remaining want (object.take want)
      (headerExtent (object.take want))) (log ++ [.getRange key 0 want]) out asked) :
    Outcome s key (askHeaderLoop key path (remaining + 1) want) log out (want :: asked) := by
  intro o t
  rw [map_cons, ← singleton_append, ← append_assoc, ← h, askHeaderLoop, fetchRange,
    LawfulMonad.bind_assoc, Prog.run_logged_query_of (honest_getRange hobject), liftStore,
    show ofStore (.ok (object.take want)) = .ok (object.take want) from rfl,
    Prog.run_ofExcept_ok_bind]
  rcases headerExtent (object.take want) with e | (n | n)
  · rfl
  · rfl
  · rfl

/-- Probes that were given as many turns as there are lengths to pass end in one of the three ways,
and never ask for more than the longest header. -/
theorem askHeaderLoop_settles (hobject : s.objects[key]? = some object) {remaining want : Nat}
    (hmin : minProbeLen ≤ want) (hmax : want ≤ maxHeaderLen)
    (hleft : probesLeft object want ≤ remaining) (log : List Request) :
    ∃ out asked, Outcome s key (askHeaderLoop key path remaining want) log out asked ∧
      asked.length ≤ remaining ∧ (∀ n ∈ asked, n ≤ maxHeaderLen) ∧ Settled path object out := by
  induction remaining generalizing want log with
  | zero =>
    rw [probesLeft] at hleft
    split at hleft
    · omega
    · split at hleft
      · omega
      · omega
  | succ remaining ih =>
    have hlen : (object.take want).length ≤ want := length_take_le _ _
    -- The search ends with this probe, or goes on with one for `need` bytes.
    have hend : ∀ out, afterProbe key path remaining want (object.take want)
        (headerExtent (object.take want)) = Prog.ofExcept out → Settled path object out →
        ∃ out asked, Outcome s key (askHeaderLoop key path (remaining + 1) want) log out asked ∧
          asked.length ≤ remaining + 1 ∧ (∀ n ∈ asked, n ≤ maxHeaderLen) ∧
          Settled path object out := by
      intro out hout hsettled
      refine ⟨out, [want], outcome_askHeaderLoop_succ hobject ?_, by simp, by simpa using hmax,
        hsettled⟩
      rw [hout]
      exact outcome_ofExcept out _
    have hnext : ∀ need, headerExtent (object.take want) = .ok (.short need) →
        minProbeLen ≤ need → need ≤ maxHeaderLen → ((object.take want).length < want →
          object.length < declaredHeaderLen object) → (want ≤ (object.take want).length →
          probesLeft object need ≤ remaining) →
        ∃ out asked, Outcome s key (askHeaderLoop key path (remaining + 1) want) log out asked ∧
          asked.length ≤ remaining + 1 ∧ (∀ n ∈ asked, n ≤ maxHeaderLen) ∧
          Settled path object out := by
      intro need hext hneed hneedMax hneedShort hneedLeft
      by_cases hfull : want ≤ (object.take want).length
      · obtain ⟨out, asked, hout, hcount, hasked, hsettled⟩ := ih hneed hneedMax (hneedLeft hfull)
          (log ++ [.getRange key 0 want])
        refine ⟨out, want :: asked, outcome_askHeaderLoop_succ hobject ?_,
          Nat.succ_le_succ hcount, ?_, hsettled⟩
        · rw [hext, afterProbe, if_pos hfull]
          exact hout
        · simpa using ⟨hmax, hasked⟩
      · refine hend (.error (truncated path)) ?_ (.truncated (hneedShort (not_le.mp hfull)))
        rw [hext, afterProbe, if_neg hfull]
    have hprobed := probed_take object want
    generalize hext : headerExtent (object.take want) = ext at hprobed
    have hblockMax := metaLenAt_le object
    have hblockMin : minProbeLen ≤ metaLenAt object := by
      rw [metaLenAt]
      omega
    -- A probe that is not answered in full holds the whole object.
    have hwhole : (object.take want).length < want → (object.take want).length = object.length := by
      rw [length_take]
      omega
    have hdeclared : metaLenAt object + 4 ≤ declaredHeaderLen object := Nat.le_add_right _ _
    cases hprobed with
    | @malformed message hmalformed =>
      exact hend (.error (.crypto (.format message))) (by rw [hext]; rfl) (.malformed hmalformed)
    | head hshort =>
      exact hnext _ hext (Nat.le_refl _) (by decide) (by omega) (by omega)
    | block hprobe hblock =>
      refine hnext _ hext (by omega) (by omega) (by omega) fun hfull => ?_
      rw [probesLeft, if_pos (by omega)] at hleft
      rw [probesLeft, if_neg (by omega)]
      split <;> omega
    | metadata hblock hmeta hrange =>
      refine hnext _ hext (by omega) (by omega) (by omega) fun hfull => ?_
      rw [probesLeft, if_neg (by omega), if_pos (by omega)] at hleft
      rw [probesLeft, if_neg (by omega), if_neg (by omega)]
      omega
    | complete hall => exact hend _ (by rw [hext]; rfl) (.found want hall)

/-- Three probes are enough for every object: they end with the header in the length that the
object declares, or find that the object ends inside it or that it is malformed.  None of them asks
for more than the longest header of the format. -/
theorem askHeader_settles (hobject : s.objects[key]? = some object) (path : String) :
    ∃ out asked, Outcome s key (askHeader key path) [] out asked ∧
      asked.length ≤ maxHeaderProbes ∧ (∀ n ∈ asked, n ≤ maxHeaderLen) ∧
      Settled path object out := by
  refine askHeaderLoop_settles hobject (by decide) (by decide) ?_ []
  rw [probesLeft]
  split
  · exact Nat.le_refl _
  · split <;> decide

/-- The head of an object for other recipients. -/
def hybridHead : Head :=
  { sealHead kemIdHybrid ⟨default, default, default, default, default⟩ 0 1 with flags := 0 }

/-- A header whose key block reaches beyond the first probe. -/
def longHeader : Bytes :=
  buildHead hybridHead ++
    (le 2 5000 ++ (List.replicate 5072 0 ++ (le 4 116 ++ List.replicate 116 0)))

theorem askHeader_settles_longHeader :
    Outcome { objects := (∅ : Backend).insert "k" longHeader, rows := ∅ } "k" (askHeader "k" "p") []
        (.ok (longHeader, 5262)) [4096, 5146, 5262] ∧
      Settled "p" longHeader (.ok (longHeader, 5262)) := by
  have hobject : (Stores.mk ((∅ : Backend).insert "k" longHeader) ∅).objects["k"]? =
      some longHeader := by simp
  have hprobe : ∀ {n need remaining log out asked},
      (longHeader.take n).length = n ∧ headerExtent (longHeader.take n) = .ok (.short need) →
      Outcome { objects := (∅ : Backend).insert "k" longHeader, rows := ∅ } "k"
        (askHeaderLoop "k" "p" remaining need) (log ++ [.getRange "k" 0 n]) out asked →
      Outcome { objects := (∅ : Backend).insert "k" longHeader, rows := ∅ } "k"
        (askHeaderLoop "k" "p" (remaining + 1) n) log out (n :: asked) := by
    rintro n need remaining log out asked ⟨hfull, hshort⟩ h
    refine outcome_askHeaderLoop_succ hobject ?_
    rw [hshort, afterProbe, if_pos hfull.ge]
    exact h
  have hasked : Outcome { objects := (∅ : Backend).insert "k" longHeader, rows := ∅ } "k"
      (askHeader "k" "p") [] (.ok (longHeader, 5262)) [4096, 5146, 5262] := by
    refine hprobe (by decide +kernel) (@hprobe 5146 5262 _ _ _ _ (by decide +kernel) ?_)
    refine outcome_askHeaderLoop_succ hobject ?_
    rw [show longHeader.take 5262 = longHeader from take_of_length_le (by decide +kernel),
      show headerExtent longHeader = .ok (.complete 5262) by decide +kernel]
    exact outcome_ofExcept _ _
  obtain ⟨out, asked, hout, -, -, hsettled⟩ := askHeader_settles hobject "p"
  obtain ⟨rfl, -⟩ := (hout _ _).mp ((hasked _ _).mpr ⟨rfl, rfl⟩)
  exact ⟨hasked, hsettled⟩

end Dctl.Core
