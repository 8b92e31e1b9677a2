import Dctl.Store.Retry

/-! Runs of any number of operations that share one count of unanswered attempts. -/

namespace Dctl.Store.Retry

open ProofKit Function

variable {ι V : Type} {i : ι}

/-- What happened, for the statements only. -/
inductive RunEvent (ι : Type) where
  /-- The operation found that the run is not exhausted, and begins an attempt. -/
  | permitted (i : ι)
  /-- The operation found that the run is exhausted. -/
  | stalled (i : ι)
  | answered (i : ι)
  | silent (i : ι)
  deriving DecidableEq

def RunEvent.by' : RunEvent ι → ι
  | .permitted i | .stalled i | .answered i | .silent i => i

/-- The count and the clock that the operations share.  `underWay` and `waited` are kept for the
statements: whether an operation has begun and will make another attempt, and how long it waited. -/
structure RunState (ι : Type) where
  stall : RunStall
  now : Nat
  underWay : ι → Bool
  waited : ι → Nat
  log : List (RunEvent ι)

def RunState.fresh (stall : RunStall) : RunState ι := ⟨stall, 0, fun _ => false, fun _ => 0, []⟩

variable [DecidableEq ι]

namespace RunState

variable (s : RunState ι)

def note (e : RunEvent ι) : RunState ι := { s with log := s.log ++ [e] }

/-- The state when the operation has looked at the count. -/
def asked (i : ι) : RunState ι :=
  match RunStall.exhausted s.stall with
  | some _ => s.note (.stalled i)
  | none => { s.note (.permitted i) with underWay := update s.underWay i true }

def attempted (i : ι) (again : Bool) : RunState ι :=
  { s with underWay := update s.underWay i again }

/-- Whether another attempt follows an outcome. -/
def goesOn (policy : RetryPolicy) (number waited : Nat) : Except StoreError V → Bool
  | .ok _ => false
  | .error e => verdict (Observed.of e) number waited policy ≠ .never

end RunState

/-- How the shared state answers the operation `i`.  An attempt may have any outcome. -/
def shares (policies : ι → RetryPolicy) (i : ι) (s : RunState ι) :
    (r : RetryRequest) → r.Answer V → RunState ι → Prop
  | .clock, x, s' => x = s.now ∧ s' = s
  | .exhausted, x, s' => x = RunStall.exhausted s.stall ∧ s' = s.asked i
  | .attempt number, x, s' =>
    s' = s.attempted i (RunState.goesOn (policies i) number (s.waited i) x)
  | .answered, _, s' => s' = { s.note (.answered i) with stall := RunStall.answered s.stall }
  | .unanswered, _, s' => s' = { s.note (.silent i) with stall := RunStall.unanswered s.stall }
  | .entropy, x, s' => x ≤ u64Max ∧ s' = s
  | .sleep delay, _, s' => s' = { s with
      now := s.now + delay
      waited := update s.waited i (min (s.waited i + delay) durationMax) }

/-- Time passes. -/
inductive Passes (s : RunState ι) : RunState ι → Prop
  | pass (n : Nat) : Passes s { s with now := s.now + n }

/-- A silence that brings the count to its limit is noted when no operation that has begun will make
another attempt. -/
def Fills (s : RunState ι) : (r : RetryRequest) → r.Answer V → Prop
  | .unanswered, _ => (RunStall.exhausted (RunStall.unanswered s.stall)).isSome →
      ∀ j, s.underWay j = false
  | _, _ => True

/-- The silences since the last answer. -/
def silences (log : List (RunEvent ι)) : Nat :=
  log.foldl (fun n e => match e with
    | .answered _ => 0
    | .silent _ => n + 1
    | _ => n) 0

omit [DecidableEq ι] in
@[simp] theorem silences_append (log : List (RunEvent ι)) (e : RunEvent ι) :
    silences (log ++ [e]) = match e with
      | .answered _ => 0
      | .silent _ => silences log + 1
      | _ => silences log := by
  rw [silences, List.foldl_append]
  rfl

/-- What the run's count promises: an operation that has begun is never ended by it, and the run is
exhausted only after as many silences in a row as it allows. -/
structure RunState.Kept (s : RunState ι) : Prop where
  begun : ∀ before i after, s.log = before ++ .stalled i :: after → .permitted i ∉ before
  row : ∀ before i after, s.log = before ++ .stalled i :: after →
    ∃ stall, s.stall = some stall ∧ stall.limit ≤ silences before

/-- What holds at every moment of a run. -/
structure RunState.Sane (s : RunState ι) : Prop extends s.Kept where
  closed : (RunStall.exhausted s.stall).isSome → ∀ j, s.underWay j = false
  counted : ∀ stall, s.stall = some stall → stall.unanswered ≤ silences s.log

/-- What the others leave to the operation `i`. -/
structure RunRely (i : ι) (s s' : RunState ι) : Prop where
  log : AddedByOthers RunEvent.by' i s.log s'.log
  underWay : s'.underWay i = s.underWay i
  waited : s'.waited i = s.waited i

variable {s s' : RunState ι} {policies : ι → RetryPolicy} {deadline : RunDeadline}

omit [DecidableEq ι] in
theorem RunRely.refl (i : ι) (s : RunState ι) : RunRely i s s :=
  ⟨AddedByOthers.refl _ i s.log, rfl, rfl⟩

omit [DecidableEq ι] in
theorem RunRely.trans {s1 s2 s3 : RunState ι} (h1 : RunRely i s1 s2) (h2 : RunRely i s2 s3) :
    RunRely i s1 s3 where
  log := h1.log.trans h2.log
  underWay := h2.underWay.trans h1.underWay
  waited := h2.waited.trans h1.waited

/-- The operation `i` notes an event of its own at most, and leaves the others alone. -/
structure OwnStep (i : ι) (s s' : RunState ι) : Prop where
  log : s'.log = s.log ∨ ∃ e, e.by' = i ∧ s'.log = s.log ++ [e]
  underWay : ∀ j, j ≠ i → s'.underWay j = s.underWay j
  waited : ∀ j, j ≠ i → s'.waited j = s.waited j

omit [DecidableEq ι] in
theorem ownStep_note {e : RunEvent ι} (he : e.by' = i) {stall : RunStall} :
    OwnStep i s { s.note e with stall := stall } :=
  ⟨Or.inr ⟨e, he, rfl⟩, fun _ _ => rfl, fun _ _ => rfl⟩

omit [DecidableEq ι] in
theorem OwnStep.rely (h : OwnStep i s s') {j : ι} (hj : j ≠ i) : RunRely j s s' where
  log := by
    rcases h.log with hlog | ⟨e, hby, hlog⟩
    · rw [hlog]
      exact AddedByOthers.refl _ j _
    · rw [hlog]
      exact AddedByOthers.single (by rw [hby]; exact hj.symm)
  underWay := h.underWay j hj
  waited := h.waited j hj

omit [DecidableEq ι] in
theorem RunState.Kept.append (h : s.Kept) {e : RunEvent ι} (he : ∀ j, e ≠ .stalled j)
    (hlog : s'.log = s.log ++ [e]) (hlimit : s'.stall.map Stall.limit = s.stall.map Stall.limit) :
    s'.Kept where
  begun := by
    intro before j after hsplit
    rw [hlog] at hsplit
    rcases split_append_singleton hsplit with ⟨-, heq⟩ | ⟨rest, hrest⟩
    · exact absurd heq (he j)
    · exact h.begun before j rest hrest
  row := by
    intro before j after hsplit
    rw [hlog] at hsplit
    rcases split_append_singleton hsplit with ⟨-, heq⟩ | ⟨rest, hrest⟩
    · exact absurd heq (he j)
    · obtain ⟨stall, hstall, hle⟩ := h.row before j rest hrest
      rw [hstall] at hlimit
      obtain ⟨stall', hstall', heq⟩ := Option.map_eq_some_iff.mp hlimit
      exact ⟨stall', hstall', by rw [heq]; exact hle⟩

namespace RunState.Sane

omit [DecidableEq ι] in
theorem fresh (stall : RunStall) (h : ∀ st, stall = some st → st.unanswered = 0 ∧ 0 < st.limit) :
    (RunState.fresh stall : RunState ι).Sane where
  begun := by simp [RunState.fresh]
  row := by simp [RunState.fresh]
  closed := fun _ _ => rfl
  counted := by
    intro st hst
    rw [(h st hst).1]
    exact Nat.zero_le _

theorem asked (h : s.Sane) (hdue : .permitted i ∉ s.log ∨ s.underWay i = true) :
    (s.asked i).Sane := by
  rw [RunState.asked]
  split
  next e he =>
    have hexhausted : (RunStall.exhausted s.stall).isSome := by rw [he]; rfl
    have hfresh : .permitted i ∉ s.log := hdue.resolve_right (by rw [h.closed hexhausted i]; nofun)
    refine ⟨⟨?_, ?_⟩, h.closed, ?_⟩
    · intro before j after hsplit
      rcases split_append_singleton hsplit with ⟨rfl, heq⟩ | ⟨rest, hrest⟩
      · cases heq
        exact hfresh
      · exact h.begun before j rest hrest
    · intro before j after hsplit
      rcases split_append_singleton hsplit with ⟨rfl, heq⟩ | ⟨rest, hrest⟩
      · obtain ⟨stall, hstall, hlimit⟩ := Option.bind_eq_some_iff.mp he
        refine ⟨stall, hstall, ?_⟩
        split at hlimit
        next hle => exact Nat.le_trans hle (h.counted stall hstall)
        next => cases hlimit
      · exact h.row before j rest hrest
    · intro stall hstall
      rw [RunState.note, silences_append]
      exact h.counted stall hstall
  next hnone =>
    refine ⟨h.toKept.append (e := .permitted i) nofun rfl rfl, ?_, ?_⟩
    · intro hexhausted
      have : (RunStall.exhausted s.stall).isSome := hexhausted
      rw [hnone] at this
      cases this
    · intro stall hstall
      show stall.unanswered ≤ silences (s.log ++ [.permitted i])
      rw [silences_append]
      exact h.counted stall hstall

theorem attempted (h : s.Sane) (hunder : s.underWay i = true) (b : Bool) :
    (s.attempted i b).Sane where
  toKept := ⟨h.begun, h.row⟩
  closed := by
    intro hexhausted
    rw [h.closed hexhausted i] at hunder
    cases hunder
  counted := h.counted

omit [DecidableEq ι] in
theorem answered (h : s.Sane) :
    RunState.Sane { s.note (.answered i) with stall := RunStall.answered s.stall } where
  toKept := by
    apply h.toKept.append (e := .answered i) nofun rfl
    show (RunStall.answered s.stall).map Stall.limit = _
    rw [RunStall.answered, Option.map_map]
    rfl
  closed := by
    intro hexhausted
    apply h.closed
    obtain ⟨e, he⟩ := Option.isSome_iff_exists.mp hexhausted
    obtain ⟨stall, hstall, hlimit⟩ := Option.bind_eq_some_iff.mp he
    obtain ⟨stall', hstall', rfl⟩ := Option.map_eq_some_iff.mp hstall
    have hle : stall'.limit ≤ 0 := by
      by_contra hpos
      rw [if_neg hpos] at hlimit
      cases hlimit
    rw [RunStall.exhausted, hstall']
    simp only [Option.bind_some]
    rw [if_pos (Nat.le_trans hle (Nat.zero_le _))]
    rfl
  counted := by
    intro stall hstall
    obtain ⟨stall', -, rfl⟩ := Option.map_eq_some_iff.mp hstall
    exact Nat.zero_le _

omit [DecidableEq ι] in
theorem unanswered (h : s.Sane)
    (hfills : (RunStall.exhausted (RunStall.unanswered s.stall)).isSome →
      ∀ j, s.underWay j = false) :
    RunState.Sane { s.note (.silent i) with stall := RunStall.unanswered s.stall } where
  toKept := by
    apply h.toKept.append (e := .silent i) nofun rfl
    show (RunStall.unanswered s.stall).map Stall.limit = _
    rw [RunStall.unanswered, Option.map_map]
    rfl
  closed := hfills
  counted := by
    intro stall hstall
    obtain ⟨stall', hstall', rfl⟩ := Option.map_eq_some_iff.mp hstall
    show (stall'.unanswered + 1) % 2 ^ 32 ≤ silences (s.log ++ [.silent i])
    rw [silences_append]
    exact Nat.le_trans (Nat.mod_le _ _) (Nat.succ_le_succ (h.counted stall' hstall'))

end RunState.Sane

/-- How the shared state answers where a silence that fills the count meets the condition. -/
def filling (policies : ι → RetryPolicy) (i : ι) :
    Prog.Server (RunState ι) RetryRequest (RetryRequest.Answer V) :=
  Prog.Server.given (shares policies i) Fills

/-- A program of the operation `i` that keeps the state sane. -/
abbrev Minding {α : Type} (policies : ι → RetryPolicy) (i : ι)
    (post : Except StoreError α → RunState ι → Prop) (p : RetryM V α) (s : RunState ι) : Prop :=
  p.run.Minds (filling policies) RunState.Sane RunRely i post s

/-- The operation is about to make an attempt after the waits so far: its first, or one that it was
bound to make. -/
structure Due (i : ι) (waited : Nat) (s : RunState ι) : Prop where
  waited : s.waited i = waited
  due : .permitted i ∉ s.log ∨ s.underWay i = true

omit [DecidableEq ι] in
theorem Due.rely {waited : Nat} (h : Due i waited s) (hrely : RunRely i s s') :
    Due i waited s' where
  waited := hrely.waited.trans h.waited
  due := by
    rw [hrely.underWay]
    exact h.due.imp_left fun hfresh hin => hfresh (hrely.log.mem_of_mem hin rfl)

theorem permitted_minds {waited : Nat} (h : Due i waited s) :
    Minding policies i (fun x s' => x = .ok () → s'.waited i = waited ∧ s'.underWay i = true)
      (permitted deadline : RetryM V Unit) s := by
  apply Prog.Minds.query_bind
  rintro s1 hrely hsane now s' ⟨-, -, rfl⟩
  refine ⟨hsane, fun j _ => RunRely.refl j _, ?_⟩
  have h1 := h.rely hrely
  cases RunDeadline.exceeded deadline now with
  | some e => exact nofun
  | none =>
    apply Prog.Minds.query_bind
    rintro s2 hrely2 hsane2 x s' ⟨-, rfl, rfl⟩
    have h2 := h1.rely hrely2
    have hown : OwnStep i s2 (s2.asked i) := by
      rw [RunState.asked]
      split
      · exact ⟨Or.inr ⟨_, rfl, rfl⟩, fun _ _ => rfl, fun _ _ => rfl⟩
      · exact ⟨Or.inr ⟨_, rfl, rfl⟩, fun j hj => update_of_ne hj _ _, fun _ _ => rfl⟩
    refine ⟨hsane2.asked h2.due, fun j hj => hown.rely hj, ?_⟩
    cases hexhausted : RunStall.exhausted s2.stall with
    | some e => exact nofun
    | none =>
      intro _
      have hasked : s2.asked i =
          { s2.note (.permitted i) with underWay := update s2.underWay i true } := by
        rw [RunState.asked, hexhausted]
      rw [hasked]
      refine ⟨h2.waited, ?_⟩
      show update s2.underWay i true i = true
      rw [update_self]

theorem note_minds {waited : Nat} {b : Bool} {reach : Reach} (hwaited : s.waited i = waited)
    (hunder : s.underWay i = b) :
    Minding policies i (fun _ s' => s'.waited i = waited ∧ s'.underWay i = b)
      (note reach : RetryM V Unit) s := by
  cases reach with
  | silent =>
    rintro s1 hrely hsane x s' ⟨hfills, rfl⟩
    exact ⟨hsane.unanswered hfills, fun j hj => (ownStep_note rfl).rely hj,
      hrely.waited.trans hwaited, hrely.underWay.trans hunder⟩
  | answered =>
    rintro s1 hrely hsane x s' ⟨-, rfl⟩
    exact ⟨hsane.answered, fun j hj => (ownStep_note rfl).rely hj,
      hrely.waited.trans hwaited, hrely.underWay.trans hunder⟩
  | unknown => exact ⟨hwaited, hunder⟩

theorem quiet_minds {α : Type} {r : RetryRequest} {f : r.Answer V → RetryM V α} {b : Bool}
    {waited : Nat} {post : Except StoreError α → RunState ι → Prop}
    (hquiet : ∀ s (x : r.Answer V) s', filling policies i s r x s' → s' = s)
    (hwaited : s.waited i = waited) (hunder : s.underWay i = b)
    (h : ∀ x s', s'.waited i = waited → s'.underWay i = b → Minding policies i post (f x) s') :
    Minding policies i post (Prog.query r >>= f) s := by
  apply Prog.Minds.query_bind
  rintro s1 hrely hsane x s' hserve
  rw [hquiet s1 x s' hserve]
  exact ⟨hsane, fun j _ => RunRely.refl j _,
    h x s1 (hrely.waited.trans hwaited) (hrely.underWay.trans hunder)⟩

theorem pause_minds {observed : Observed} {scheduled waited : Nat} (hwaited : s.waited i = waited)
    (hunder : s.underWay i = true) :
    Minding policies i (fun x s' => ∀ delay, x = .ok delay →
        s'.waited i = min (waited + delay) durationMax ∧ s'.underWay i = true)
      (pause deadline observed scheduled : RetryM V Nat) s := by
  have hrest : ∀ delay s, s.waited i = waited → s.underWay i = true →
      Minding policies i (fun x s' => ∀ d, x = .ok d →
          s'.waited i = min (waited + d) durationMax ∧ s'.underWay i = true)
        (Prog.query .clock >>= fun now => Prog.query (.sleep (deadline.shorten now delay)) >>=
          fun _ => return deadline.shorten now delay : RetryM V Nat) s := by
    intro delay s hwaited hunder
    refine quiet_minds (r := .clock) (fun _ _ _ h => h.2.2) hwaited hunder ?_
    intro now s1 hwaited1 hunder1
    apply Prog.Minds.query_bind
    rintro s2 hrely hsane - s' ⟨-, rfl⟩
    refine ⟨⟨⟨hsane.begun, hsane.row⟩, hsane.closed, hsane.counted⟩, ?_, ?_⟩
    · intro j hj
      exact ⟨AddedByOthers.refl _ j _, rfl, update_of_ne hj _ _⟩
    · intro d hd
      cases hd
      refine ⟨?_, hrely.underWay.trans hunder1⟩
      show update s2.waited i _ i = _
      rw [update_self, hrely.waited.trans hwaited1]
  show Minding policies i _ (spread observed scheduled >>= fun delay =>
      Prog.query .clock >>= fun now =>
    Prog.query (.sleep (deadline.shorten now delay)) >>= fun _ =>
      return deadline.shorten now delay) s
  rw [spread]
  split
  · rw [pure_bind]
    exact hrest scheduled s hwaited hunder
  · rw [bind_assoc]
    refine quiet_minds (r := .entropy) (fun _ _ _ h => h.2.2) hwaited hunder ?_
    intro n s' hwaited' hunder'
    rw [pure_bind]
    exact hrest (jittered scheduled n) s' hwaited' hunder'

/-- Every attempt of an operation keeps the state sane: it is the first, or one that it was bound to
make. -/
theorem attempts_minds {number waited : Nat} (h : Due i waited s) :
    Minding policies i (fun _ _ => True)
      (attempts (policies i) deadline number waited : RetryM V V) s := by
  induction hleft : (policies i).maxAttempts - number using Nat.strongRecOn
    generalizing number waited s with
  | ind left ih =>
    rw [attempts]
    refine (permitted_minds h).fallible_bind ?_ fun _ _ _ => trivial
    intro _ s1 hpermitted
    obtain ⟨hwaited, hunder⟩ := hpermitted rfl
    apply Prog.Minds.query_bind
    rintro s2 hrely hsane x s' ⟨-, rfl⟩
    refine ⟨hsane.attempted (hrely.underWay.trans hunder) _, ?_, ?_⟩
    · intro j hj
      exact ⟨AddedByOthers.refl _ j _, update_of_ne hj _ _, rfl⟩
    · have hwaited2 : s2.waited i = waited := hrely.waited.trans hwaited
      have hwaited3 :
          (s2.attempted i (RunState.goesOn (policies i) number (s2.waited i) x)).waited i =
          waited := hwaited2
      have hunder3 :
          (s2.attempted i (RunState.goesOn (policies i) number (s2.waited i) x)).underWay i =
          RunState.goesOn (policies i) number waited x := by
        show update s2.underWay i _ i = _
        rw [update_self, hwaited2]
      cases x with
      | ok value =>
        show Minding policies i (fun _ _ => True)
          (note .answered >>= fun _ => return value : RetryM V V) _
        refine (note_minds hwaited3 hunder3).fallible_bind ?_ ?_
        · exact fun _ _ _ => trivial
        · exact fun _ _ _ => trivial
      | error e =>
        dsimp only
        refine (note_minds hwaited3 hunder3).fallible_bind ?_ ?_
        swap
        · exact fun _ _ _ => trivial
        rintro _ s3 ⟨hwaited3, hunder3⟩
        split
        next => trivial
        next scheduled hverdict =>
          have hunder3' : s3.underWay i = true := by
            rw [hunder3, RunState.goesOn, hverdict]
            rfl
          refine (pause_minds hwaited3 hunder3').fallible_bind ?_ fun _ _ _ => trivial
          intro delay s4 hpause
          obtain ⟨hwaited4, hunder4⟩ := hpause delay rfl
          have hlt := lt_maxAttempts_of_verdict hverdict
          exact ih _ (by omega) ⟨hwaited4, Or.inr hunder4⟩ rfl

def operations (policies : ι → RetryPolicy) (deadlines : ι → RunDeadline) (stall : RunStall) :
    Crowd ι RetryRequest (RetryRequest.Answer V) (Except StoreError V) (RunState ι) where
  state := RunState.fresh stall
  todo i := (run (policies i) (deadlines i)).run

/-- The count ends no operation that has begun, and only after as many silences in a row as it
allows, in every run of any operations where it is filled at the end of their schedules only. -/
theorem schedules_kept {deadlines : ι → RunDeadline} {idle : Option Nat}
    {c : Crowd ι RetryRequest (RetryRequest.Answer V) (Except StoreError V) (RunState ι)}
    (hrun : Crowd.Steps (filling policies) Passes
      (operations policies deadlines (RunStall.fromIdle idle)) c) : c.state.Kept := by
  have hstart : (operations policies deadlines (RunStall.fromIdle idle) :
      Crowd ι RetryRequest (RetryRequest.Answer V) _ _).Minded (filling policies)
        RunState.Sane RunRely fun _ _ _ => True := by
    constructor
    · apply RunState.Sane.fresh
      intro stall hstall
      obtain ⟨n, -, rfl⟩ := Option.map_eq_some_iff.mp hstall
      exact ⟨rfl, show 0 < 6 by decide⟩
    · intro i
      exact attempts_minds ⟨rfl, Or.inl (by simp [operations, RunState.fresh])⟩
  have hend := hstart.steps (fun _ _ _ _ => RunRely.trans) (fun _ _ => RunRely.refl _ _)
    (fun _ _ _ _ _ _ => trivial) (by
      rintro s s' hsane ⟨n⟩
      exact ⟨⟨⟨hsane.begun, hsane.row⟩, hsane.closed, hsane.counted⟩,
        fun j => ⟨AddedByOthers.refl _ j _, rfl, rfl⟩⟩) hrun
  exact hend.invariant.toKept

def plays (policies : ι → RetryPolicy) (outcomes : ι → Nat → Except StoreError Unit) (i : ι)
    (s : RunState ι) : (r : RetryRequest) → r.Answer Unit × RunState ι
  | .clock => (s.now, s)
  | .exhausted => (RunStall.exhausted s.stall, s.asked i)
  | .attempt number => (outcomes i number,
      s.attempted i (RunState.goesOn (policies i) number (s.waited i) (outcomes i number)))
  | .answered => ((), { s.note (.answered i) with stall := RunStall.answered s.stall })
  | .unanswered => ((), { s.note (.silent i) with stall := RunStall.unanswered s.stall })
  | .entropy => (0, s)
  | .sleep delay => ((), { s with
      now := s.now + delay
      waited := update s.waited i (min (s.waited i + delay) durationMax) })

theorem shares_plays {outcomes : ι → Nat → Except StoreError Unit} (s : RunState ι)
    (r : RetryRequest) :
    shares policies i s r (plays policies outcomes i s r).1 (plays policies outcomes i s r).2 := by
  cases r with
  | entropy => exact ⟨Nat.zero_le _, rfl⟩
  | clock | exhausted => exact ⟨rfl, rfl⟩
  | _ => rfl

/-- Nothing came back. -/
def silence : StoreError := .transport "b2" "no data moved for 30s (--timeout 30s)"

def twoInTurn (outcomes : Fin 2 → Nat → Except StoreError Unit)
    (check : (s : RunState (Fin 2)) → (r : RetryRequest) → r.Answer Unit → Bool) :
    Option (RunState (Fin 2)) :=
  let alone (i : Fin 2) (s : RunState (Fin 2)) :=
    (run RetryPolicy.network none).run.evalGiven (plays (fun _ => RetryPolicy.network) outcomes i)
      check s
  (alone 0 (RunState.fresh (RunStall.fromIdle (some 30)))).bind fun end' =>
    (alone 1 end'.2).map (·.2)

theorem steps_twoInTurn {outcomes : Fin 2 → Nat → Except StoreError Unit}
    {check : (s : RunState (Fin 2)) → (r : RetryRequest) → r.Answer Unit → Bool}
    {s : RunState (Fin 2)}
    (serve : Fin 2 → Prog.Server (RunState (Fin 2)) _ (RetryRequest.Answer Unit))
    (hserve : ∀ i s r x s', check s r x = true → shares (fun _ => RetryPolicy.network) i s r x s' →
      serve i s r x s')
    (h : twoInTurn outcomes check = some s) :
    ∃ left, Crowd.Steps serve Passes (operations (fun _ => RetryPolicy.network) (fun _ => none)
      (RunStall.fromIdle (some 30))) ⟨s, left⟩ := by
  have halone : ∀ i s x s', (run RetryPolicy.network none).run.evalGiven
      (plays (fun _ => RetryPolicy.network) outcomes i) check s = some (x, s') →
      Prog.Run (serve i) (run RetryPolicy.network none).run s x s' := by
    intro i s x s' heval
    have hgiven : Prog.Run (Prog.Server.given (shares (fun _ => RetryPolicy.network) i)
        fun s r x => check s r x = true) _ s x s' :=
      Prog.run_of_evalGiven _ (fun _ _ _ => id) (fun s r => shares_plays s r) heval
    exact hgiven.mono fun s r x s' h => hserve i s r x s' h.1 h.2
  obtain ⟨⟨x, s1⟩, hfirst, hsecond⟩ := Option.bind_eq_some_iff.mp h
  obtain ⟨⟨y, s2⟩, hlast, rfl⟩ := Option.map_eq_some_iff.mp hsecond
  have hturn : Crowd.InTurn serve Passes (fun _ => (run RetryPolicy.network none).run) [0, 1]
      (RunState.fresh (RunStall.fromIdle (some 30))) s2 :=
    .cons .refl (halone 0 _ x s1 hfirst) (.cons .refl (halone 1 _ y s2 hlast) (.nil s2))
  exact hturn.steps (by decide) fun _ _ => rfl

/-- The first operation ends at a failure that says nothing about the far end, after one silence.
The second makes five of its six attempts before the count ends it. -/
theorem schedule_cut_short : ∃ c : Crowd (Fin 2) RetryRequest (RetryRequest.Answer Unit)
      (Except StoreError Unit) (RunState (Fin 2)),
    Crowd.Steps (shares fun _ => RetryPolicy.network) Passes
      (operations (fun _ => RetryPolicy.network) (fun _ => none) (RunStall.fromIdle (some 30))) c ∧
    ¬c.state.Kept := by
  have hend : (twoInTurn (fun i number => .error (if i = 0 ∧ number = 2 then .backend "bad bucket"
      else silence)) fun _ _ _ => true).map (·.log) = some
        ([.permitted 0, .silent 0, .permitted 0, .permitted 1, .silent 1, .permitted 1, .silent 1,
          .permitted 1, .silent 1, .permitted 1, .silent 1, .permitted 1, .silent 1] ++
          .stalled 1 :: []) := by
    decide +kernel
  obtain ⟨s, hs, hlog⟩ := Option.map_eq_some_iff.mp hend
  obtain ⟨left, hsteps⟩ := steps_twoInTurn _ (fun _ _ _ _ _ _ h => h) hs
  refine ⟨_, hsteps, ?_⟩
  intro hkept
  exact hkept.begun _ 1 _ hlog (by decide)

/-- The first operation fills the count with its own six attempts, and the second makes none. -/
theorem schedules_kept_dead_link : ∃ c : Crowd (Fin 2) RetryRequest (RetryRequest.Answer Unit)
      (Except StoreError Unit) (RunState (Fin 2)),
    c.state.log = [.permitted 0, .silent 0, .permitted 0, .silent 0, .permitted 0, .silent 0,
      .permitted 0, .silent 0, .permitted 0, .silent 0, .permitted 0, .silent 0, .stalled 1] ∧
    c.state.Kept := by
  have hend : (twoInTurn (fun _ _ => .error silence) fun s r _ => match r with
      | .unanswered => (RunStall.exhausted (RunStall.unanswered s.stall)).isNone ||
        !s.underWay 0 && !s.underWay 1
      | _ => true).map (·.log) = some
        [.permitted 0, .silent 0, .permitted 0, .silent 0, .permitted 0, .silent 0,
          .permitted 0, .silent 0, .permitted 0, .silent 0, .permitted 0, .silent 0,
            .stalled 1] := by
    decide +kernel
  obtain ⟨s, hs, hlog⟩ := Option.map_eq_some_iff.mp hend
  obtain ⟨left, hsteps⟩ := steps_twoInTurn (filling fun _ => RetryPolicy.network) (by
    intro i s r x s' hcheck h
    refine ⟨?_, h⟩
    cases r with
    | unanswered =>
      intro hexhausted j
      simp only [Bool.or_eq_true, Bool.and_eq_true, Bool.not_eq_true', Option.isNone_iff_eq_none]
        at hcheck
      rcases hcheck with hnone | hidle
      · rw [hnone] at hexhausted
        cases hexhausted
      · match j with
        | 0 => exact hidle.1
        | 1 => exact hidle.2
    | _ => trivial) hs
  exact ⟨_, hlog, schedules_kept hsteps⟩

end Dctl.Store.Retry
