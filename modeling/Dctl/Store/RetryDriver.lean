import Dctl.Store.Retry

/-! What one operation's retry loop promises, whatever its attempts come to: how many it makes and
when, how long it waits, and what it reports. -/

namespace Dctl.Store.Retry

open ProofKit List

variable {V : Type}

structure Attempted (V : Type) where
  begun : Nat
  outcome : Except StoreError V

/-- A wait: what came of the attempt before it, what the waits before it came to, when it began and
how long it is. -/
structure Wait (V : Type) where
  behind : Option (Except StoreError V)
  spent : Nat
  start : Nat
  length : Nat

/-- The clock, and what the loop has done. -/
structure Journal (V : Type) where
  now : Nat
  attempts : List (Attempted V)
  waits : List (Wait V)

def Journal.fresh (now : Nat) : Journal V := ⟨now, [], []⟩

def Journal.waited (s : Journal V) : Nat := (s.waits.map Wait.length).sum

def Journal.last (s : Journal V) : Option (Except StoreError V) :=
  s.attempts.getLast?.map Attempted.outcome

/-- How the loop is answered: the clock only goes on, the run has stopped asking or not, an attempt
has any outcome, and the entropy is any word. -/
def journals (s : Journal V) : (r : RetryRequest) → r.Answer V → Journal V → Prop
  | .clock, x, s' => s.now ≤ x ∧ s' = { s with now := x }
  | .exhausted, x, s' => (∀ e, x = some e → ∃ n idle, e = .stalled n idle) ∧ s' = s
  | .attempt _, x, s' => s' = { s with attempts := s.attempts ++ [⟨s.now, x⟩] }
  | .answered, _, s' | .unanswered, _, s' => s' = s
  | .entropy, x, s' => x ≤ u64Max ∧ s' = s
  | .sleep delay, _, s' => s' = { s with
      now := s.now + delay
      waits := s.waits ++ [⟨s.last, s.waited, s.now, delay⟩] }

/-- A failure that another attempt could not survive. -/
def Permanent (policy : RetryPolicy) (observed : Observed) : Prop :=
  match observed.status with
  | none => observed.transient = false
  | some status => policy.retriesStatus status = false

/-- The outcome is an error that the policy lets be tried again. -/
def Repeatable (policy : RetryPolicy) (outcome : Except StoreError V) : Prop :=
  ∃ e, outcome = .error e ∧ ¬Permanent policy (Observed.of e) ∧
    (Observed.of e).alreadyAttempted = none

/-- A wait behind an answer that names a time is that long, where it fits every limit. -/
def Wait.Obeys (policy : RetryPolicy) (deadline : RunDeadline) (wait : Wait V) : Prop :=
  ∀ e after, wait.behind = some (.error e) → (Observed.of e).retryAfter = some after →
    after ≤ policy.retryAfterCap → after ≤ policy.totalBudget - wait.spent →
    (∀ bound ∈ deadline, wait.start + after ≤ bound.endsAt) → wait.length = after

/-- No attempt begins at the deadline or behind it, and the waits keep the budget, the window and
what the store asked for. -/
structure Journal.Keeps (policy : RetryPolicy) (deadline : RunDeadline) (s : Journal V) : Prop where
  begun : ∀ a ∈ s.attempts, ∀ bound ∈ deadline, a.begun < bound.endsAt
  budget : s.waited ≤ policy.totalBudget
  window : ∀ w ∈ s.waits, ∀ bound ∈ deadline, w.length = 0 ∨ w.start + w.length ≤ bound.endsAt
  obeys : ∀ w ∈ s.waits, w.Obeys policy deadline

/-- What is reported: the last outcome, a failure with the count of the attempts unless it is the
first or has a count of its own, or that the run is over. -/
inductive Reports (s : Journal V) : Except StoreError V → Prop
  | value (v : V) : s.last = some (.ok v) → Reports s (.ok v)
  | error (e : StoreError) : s.last = some (.error e) →
    Reports s (.error (record e s.attempts.length))
  | runDeadline (limit : Nat) : Reports s (.error (.runDeadline limit))
  | stalled (n idle : Nat) : Reports s (.error (.stalled n idle))

/-- What the loop promises. -/
structure Journal.Sound (policy : RetryPolicy) (deadline : RunDeadline) (s : Journal V)
    (x : Except StoreError V) : Prop extends s.Keeps policy deadline where
  attempts : s.attempts.length ≤ max 1 policy.maxAttempts
  repeated : ∀ a ∈ s.attempts.dropLast, Repeatable policy a.outcome
  reports : Reports s x

/-- The loop is about to make the `number`-th attempt, when it has waited so long. -/
structure Journal.Ready (policy : RetryPolicy) (deadline : RunDeadline) (number waited : Nat)
    (s : Journal V) : Prop extends s.Keeps policy deadline where
  next : number = s.attempts.length + 1
  spent : s.waited = waited
  allowed : number ≤ max 1 policy.maxAttempts
  repeated : ∀ a ∈ s.attempts, Repeatable policy a.outcome

variable {policy : RetryPolicy} {deadline : RunDeadline} {s s' : Journal V}
  {number waited delay : Nat}
  {observed : Observed}

theorem jittered_le (delay entropy : Nat) : jittered delay entropy ≤ delay := by
  rw [jittered]
  split
  next => exact Nat.le_refl _
  next hwindow =>
    have hmod : entropy % min (min delay u64Max - min delay u64Max / 2 * 1 + 1) u64Max ≤
        min delay u64Max - min delay u64Max / 2 * 1 := by
      have hpos : 0 < min (min delay u64Max - min delay u64Max / 2 * 1 + 1) u64Max := by
        rw [u64Max]
        omega
      have := Nat.mod_lt entropy hpos
      omega
    omega

theorem shorten_le (deadline : RunDeadline) (now wait : Nat) :
    deadline.shorten now wait ≤ wait := by
  cases deadline with
  | none => exact Nat.le_refl _
  | some bound => exact Nat.min_le_left _ _

theorem shorten_within {bound : Bound} (h : bound ∈ deadline) (now wait : Nat) :
    deadline.shorten now wait = 0 ∨ now + deadline.shorten now wait ≤ bound.endsAt := by
  cases h
  show min wait (bound.endsAt - now) = 0 ∨ now + min wait (bound.endsAt - now) ≤ bound.endsAt
  omega

theorem shorten_eq {now wait : Nat} (h : ∀ bound ∈ deadline, now + wait ≤ bound.endsAt) :
    deadline.shorten now wait = wait := by
  cases deadline with
  | none => rfl
  | some bound =>
    have hbound := h bound rfl
    show min wait (bound.endsAt - now) = wait
    omega

theorem exceeded_cases (deadline : RunDeadline) (now : Nat) :
    (deadline.exceeded now = none ∧ ∀ bound ∈ deadline, now < bound.endsAt) ∨
      ∃ limit, deadline.exceeded now = some (.runDeadline limit) := by
  cases deadline with
  | none => exact .inl ⟨rfl, nofun⟩
  | some bound =>
    by_cases hover : bound.endsAt ≤ now
    · refine .inr ⟨bound.limit, ?_⟩
      exact if_pos hover
    · refine .inl ⟨if_neg hover, ?_⟩
      rintro _ ⟨⟩
      omega

theorem verdict_after {scheduled : Nat}
    (h : verdict observed number waited policy = .after scheduled) :
    observed.alreadyAttempted = none ∧ number < policy.maxAttempts ∧ waited < policy.totalBudget ∧
      ∃ delay, delayFor observed number policy = some delay ∧
        scheduled = min delay (policy.totalBudget - waited) := by
  rw [verdict] at h
  split at h
  next => cases h
  next hfirst =>
    split at h
    next => cases h
    next hattempt =>
      split at h
      next => cases h
      next hbudget =>
        split at h
        next => cases h
        next delay hdelay =>
          cases h
          exact ⟨by simpa using hfirst, by omega, by omega, delay, hdelay, rfl⟩

theorem not_permanent_of_delayFor (h : delayFor observed number policy = some delay) :
    ¬Permanent policy observed := by
  rw [delayFor] at h
  rw [Permanent]
  cases hstatus : observed.status with
  | none =>
    rw [hstatus] at h
    intro hterminal
    simp [hterminal] at h
  | some status =>
    rw [hstatus] at h
    intro hterminal
    simp [hterminal] at h

theorem status_of_retryAfter {e : StoreError} {after : Nat}
    (h : (Observed.of e).retryAfter = some after) :
    ∃ status, (Observed.of e).status = some status := by
  induction e with
  | provider operation status code retryAfterSecs => exact ⟨status, rfl⟩
  | retried attempts source ih => exact ih h
  | _ => cases h

variable {x : Except StoreError Unit}

theorem run_orFail {o : Option StoreError}
    (h : Prog.Run journals (orFail o : RetryM V Unit).run s x s') :
    s' = s ∧ x = match o with
      | none => .ok ()
      | some e => .error e := by
  cases o with
  | none =>
    obtain ⟨rfl, rfl⟩ := Prog.run_pure.mp h
    exact ⟨rfl, rfl⟩
  | some e =>
    obtain ⟨rfl, rfl⟩ := Prog.run_throw.mp h
    exact ⟨rfl, rfl⟩

theorem run_permitted (h : Prog.Run journals (permitted deadline : RetryM V Unit).run s x s') :
    ∃ now, s.now ≤ now ∧ s' = { s with now := now } ∧
      ((x = .ok () ∧ ∀ bound ∈ deadline, now < bound.endsAt) ∨
        (∃ limit, x = .error (.runDeadline limit)) ∨ ∃ n idle, x = .error (.stalled n idle)) := by
  rw [permitted, Prog.run_query_bind] at h
  obtain ⟨now, s1, ⟨hnow, rfl⟩, h⟩ := h
  refine ⟨now, hnow, ?_⟩
  rcases exceeded_cases deadline now with ⟨hopen, hwindow⟩ | ⟨limit, hover⟩
  · rw [hopen, orFail, pure_bind, Prog.run_query_bind] at h
    obtain ⟨o, s2, ⟨hstalled, rfl⟩, hrest⟩ := h
    obtain ⟨rfl, hx⟩ := run_orFail hrest
    refine ⟨rfl, ?_⟩
    cases o with
    | none => exact .inl ⟨hx, hwindow⟩
    | some e =>
      obtain ⟨n, idle, rfl⟩ := hstalled e rfl
      exact .inr (.inr ⟨n, idle, hx⟩)
  · rw [hover] at h
    rcases Prog.run_fallible_bind.mp h with ⟨e, hfirst, rfl⟩ | ⟨_, s2, hfirst, -⟩
    · obtain ⟨rfl, hx⟩ := run_orFail hfirst
      exact ⟨rfl, .inr (.inl ⟨limit, hx⟩)⟩
    · obtain ⟨-, hx⟩ := run_orFail hfirst
      cases hx

theorem run_note {reach : Reach} (h : Prog.Run journals (note reach : RetryM V Unit).run s x s') :
    x = .ok () ∧ s' = s := by
  cases reach with
  | unknown =>
    obtain ⟨rfl, rfl⟩ := Prog.run_pure.mp h
    exact ⟨rfl, rfl⟩
  | silent | answered =>
    rw [note, ← bind_pure (Prog.query _), Prog.run_query_bind] at h
    obtain ⟨y, s1, rfl, hend⟩ := h
    obtain ⟨rfl, rfl⟩ := Prog.run_pure.mp hend
    exact ⟨rfl, rfl⟩

theorem run_pause {scheduled : Nat} {x : Except StoreError Nat}
    (h : Prog.Run journals (pause deadline observed scheduled : RetryM V Nat).run s x s') :
    ∃ now asked, asked ≤ scheduled ∧ (observed.retryAfter.isSome → asked = scheduled) ∧
      x = .ok (deadline.shorten now asked) ∧
      s' = { s with
        now := now + deadline.shorten now asked
        waits := s.waits ++ [⟨s.last, s.waited, now, deadline.shorten now asked⟩] } := by
  have hrest : ∀ asked, Prog.Run journals (Prog.query .clock >>= fun now =>
        Prog.query (.sleep (deadline.shorten now asked)) >>= fun _ =>
          return deadline.shorten now asked : RetryM V Nat).run s x s' →
      ∃ now, x = .ok (deadline.shorten now asked) ∧ s' = { s with
        now := now + deadline.shorten now asked
        waits := s.waits ++ [⟨s.last, s.waited, now, deadline.shorten now asked⟩] } := by
    intro asked hrun
    rw [Prog.run_query_bind] at hrun
    obtain ⟨now, s1, ⟨-, rfl⟩, hrun⟩ := hrun
    rw [Prog.run_query_bind] at hrun
    obtain ⟨-, s2, rfl, hrun⟩ := hrun
    obtain ⟨rfl, rfl⟩ := Prog.run_pure.mp hrun
    exact ⟨now, rfl, rfl⟩
  change Prog.Run journals (spread observed scheduled >>= fun delay =>
    Prog.query .clock >>= fun now =>
    Prog.query (.sleep (deadline.shorten now delay)) >>= fun _ =>
      return deadline.shorten now delay : RetryM V Nat).run s x s' at h
  rw [spread] at h
  split at h
  next =>
    rw [pure_bind] at h
    obtain ⟨now, hx, hs⟩ := hrest scheduled h
    exact ⟨now, scheduled, Nat.le_refl _, fun _ => rfl, hx, hs⟩
  next hown =>
    rw [bind_assoc, Prog.run_query_bind] at h
    obtain ⟨entropy, s1, ⟨-, rfl⟩, h⟩ := h
    rw [pure_bind] at h
    obtain ⟨now, hx, hs⟩ := hrest (jittered scheduled entropy) h
    exact ⟨now, jittered scheduled entropy, jittered_le _ _,
      fun hasked => absurd hasked hown, hx, hs⟩

section

variable (h : s.Ready policy deadline number waited)
include h

theorem Journal.Ready.waited_on {scheduled now asked : Nat} {e : StoreError} {begun : Nat}
    (hbudget : policy.totalBudget ≤ durationMax)
    (hverdict : verdict (Observed.of e) number waited policy = .after scheduled)
    (hbegun : ∀ bound ∈ deadline, begun < bound.endsAt) (hasked : asked ≤ scheduled)
    (hexact : (Observed.of e).retryAfter.isSome → asked = scheduled) {now' : Nat} :
    Journal.Ready policy deadline (number + 1)
      (min (waited + deadline.shorten now asked) durationMax)
      { now := now', attempts := s.attempts ++ [⟨begun, .error e⟩],
        waits := s.waits ++ [⟨some (.error e), s.waited, now, deadline.shorten now asked⟩] } := by
  obtain ⟨hfirst, hnumber, hwaited, delay, hdelay, rfl⟩ := verdict_after hverdict
  have hle := shorten_le deadline now asked
  have hspent := h.spent
  have htotal : ∀ w : Wait V, ((s.waits ++ [w]).map Wait.length).sum = waited + w.length := by
    intro w
    rw [map_append, sum_append, ← hspent, Journal.waited]
    simp
  refine ⟨⟨?_, ?_, ?_, ?_⟩, ?_, ?_, ?_, ?_⟩
  · intro a ha bound hbound
    rcases mem_append.mp ha with ha | ha
    · exact h.begun a ha bound hbound
    · rw [mem_singleton.mp ha]
      exact hbegun bound hbound
  · show ((s.waits ++ [_]).map Wait.length).sum ≤ policy.totalBudget
    rw [htotal]
    show waited + deadline.shorten now asked ≤ policy.totalBudget
    omega
  · intro w hw bound hbound
    rcases mem_append.mp hw with hw | hw
    · exact h.window w hw bound hbound
    · rw [mem_singleton.mp hw]
      exact shorten_within hbound now asked
  · intro w hw
    rcases mem_append.mp hw with hw | hw
    · exact h.obeys w hw
    · rw [mem_singleton.mp hw]
      rintro _ after ⟨⟩ hafter hcap hroom hwindow
      obtain ⟨status, hstatus⟩ := status_of_retryAfter hafter
      have hasked' : asked = min delay (policy.totalBudget - waited) := hexact (by rw [hafter]; rfl)
      have hafter' : delay = after := by
        rw [delayFor, hstatus] at hdelay
        simp only [hafter, Nat.min_eq_left hcap] at hdelay
        split at hdelay
        · exact (Option.some.inj hdelay).symm
        · cases hdelay
      have hroom' : after ≤ policy.totalBudget - waited := hspent ▸ hroom
      have heq : asked = after := by rw [hasked', hafter', Nat.min_eq_left hroom']
      show deadline.shorten now asked = after
      rw [heq]
      exact shorten_eq hwindow
  · show number + 1 = (s.attempts ++ [_]).length + 1
    rw [length_append, length_singleton, h.next]
  · show ((s.waits ++ [_]).map Wait.length).sum = _
    rw [htotal]
    show waited + deadline.shorten now asked = min (waited + deadline.shorten now asked) durationMax
    omega
  · omega
  · intro a ha
    rcases mem_append.mp ha with ha | ha
    · exact h.repeated a ha
    · rw [mem_singleton.mp ha]
      exact ⟨e, rfl, not_permanent_of_delayFor hdelay, hfirst⟩

theorem Journal.Ready.over {x : Except StoreError V} {now : Nat}
    (hreports : Reports { s with now := now } x) :
    Journal.Sound policy deadline { s with now := now } x := by
  have hnext := h.next
  have hallowed := h.allowed
  refine ⟨⟨h.begun, h.budget, h.window, h.obeys⟩, ?_, ?_, hreports⟩
  · show s.attempts.length ≤ _
    omega
  · exact fun a ha => h.repeated a ((dropLast_sublist _).subset ha)

theorem Journal.Ready.ended {x : Except StoreError V} {now begun : Nat}
    {outcome : Except StoreError V} (hbegun : ∀ bound ∈ deadline, begun < bound.endsAt)
    (hreports : Reports { s with now := now, attempts := s.attempts ++ [⟨begun, outcome⟩] } x) :
    Journal.Sound policy deadline { s with now := now, attempts := s.attempts ++
      [⟨begun, outcome⟩] } x := by
  have hnext := h.next
  have hallowed := h.allowed
  refine ⟨⟨?_, h.budget, h.window, h.obeys⟩, ?_, ?_, hreports⟩
  · intro a ha bound hbound
    rcases mem_append.mp ha with ha | ha
    · exact h.begun a ha bound hbound
    · rw [mem_singleton.mp ha]
      exact hbegun bound hbound
  · show (s.attempts ++ [_]).length ≤ _
    rw [length_append, length_singleton]
    omega
  · intro a ha
    have hbefore : a ∈ s.attempts := by
      rwa [dropLast_concat] at ha
    exact h.repeated a hbefore

theorem attempts_sound {x : Except StoreError V} (hbudget : policy.totalBudget ≤ durationMax)
    (hrun : Prog.Run journals (attempts policy deadline number waited).run s x s') :
    s'.Sound policy deadline x := by
  induction hleft :
    policy.maxAttempts - number using Nat.strongRecOn generalizing number waited s with
  | ind left ih =>
    rw [attempts] at hrun
    rcases Prog.run_fallible_bind.mp hrun with ⟨e, hfirst, rfl⟩ | ⟨_, s1, hfirst, hrun⟩
    · obtain ⟨now, -, rfl, ⟨hx, -⟩ | ⟨limit, hx⟩ | ⟨n, idle, hx⟩⟩ := run_permitted hfirst
      · cases hx
      · cases hx
        exact h.over (.runDeadline limit)
      · cases hx
        exact h.over (.stalled n idle)
    · obtain ⟨now, -, rfl, ⟨-, hwindow⟩ | ⟨limit, hx⟩ | ⟨n, idle, hx⟩⟩ := run_permitted hfirst
      · rw [Prog.run_query_bind] at hrun
        obtain ⟨outcome, s2, rfl, hrun⟩ := hrun
        have hlast : ∀ now', Journal.last
            { s with now := now', attempts := s.attempts ++ [⟨now, outcome⟩] } =
            some outcome := by
          intro now'
          simp [Journal.last]
        cases outcome with
        | ok value =>
          rw [Prog.run_query_bind] at hrun
          obtain ⟨-, s3, rfl, hrun⟩ := hrun
          obtain ⟨rfl, rfl⟩ := Prog.run_pure.mp hrun
          exact h.ended hwindow (.value value (hlast now))
        | error e =>
          rcases Prog.run_fallible_bind.mp hrun with ⟨e', hnote, -⟩ | ⟨_, s3, hnote, hrun⟩
          · cases (run_note hnote).1
          · obtain ⟨-, rfl⟩ := run_note hnote
            split at hrun
            next =>
              obtain ⟨rfl, rfl⟩ := Prog.run_throw.mp hrun
              have hcount : number = (s.attempts ++ [(⟨now, .error e⟩ : Attempted V)]).length := by
                rw [length_append, length_singleton, h.next]
              rw [hcount]
              exact h.ended hwindow (.error e (hlast now))
            next scheduled hverdict =>
              rcases Prog.run_fallible_bind.mp hrun with ⟨e', hpause, -⟩ | ⟨delay, s4, hpause, hrun⟩
              · obtain ⟨_, _, -, -, hx, -⟩ := run_pause hpause
                cases hx
              · obtain ⟨now', asked, hasked, hexact, hx, rfl⟩ := run_pause hpause
                cases hx
                rw [hlast] at hrun
                have hlt := lt_maxAttempts_of_verdict hverdict
                exact ih _ (by omega) (h.waited_on hbudget hverdict hwindow hasked hexact) hrun rfl
      · cases hx
      · cases hx

end

/-- Whatever the attempts of an operation come to, and whenever its window ends: there are at most
as many as the policy has, and one at least; none begins behind the window; the waits keep to the
budget and to the window, and to what a server asked for where there is room; no failure is repeated
that is permanent or has a count already; and the count that the loop adds is that of its attempts.
-/
theorem run_sound (policy : RetryPolicy) (deadline : RunDeadline) (now : Nat)
    (x : Except StoreError V) (s : Journal V) (hbudget : policy.totalBudget ≤ durationMax)
    (hrun : Prog.Run journals (run policy deadline).run (Journal.fresh now) x s) :
    s.Sound policy deadline x := by
  have hready : (Journal.fresh now : Journal V).Ready policy deadline 1 0 := by
    refine ⟨⟨?_, Nat.zero_le _, ?_, ?_⟩, rfl, rfl, by omega, ?_⟩
    · exact fun a ha => absurd ha not_mem_nil
    · exact fun w hw => absurd hw not_mem_nil
    · exact fun w hw => absurd hw not_mem_nil
    · exact fun a ha => absurd ha not_mem_nil
  exact attempts_sound hready hbudget hrun

def answers (outcomes : Nat → Except StoreError Unit) (s : Journal Unit) :
    (r : RetryRequest) → r.Answer Unit × Journal Unit
  | .clock => (s.now, s)
  | .exhausted => (none, s)
  | .attempt number =>
    (outcomes number, { s with attempts := s.attempts ++ [⟨s.now, outcomes number⟩] })
  | .answered | .unanswered => ((), s)
  | .entropy => (0, s)
  | .sleep delay => ((), { s with
      now := s.now + delay
      waits := s.waits ++ [⟨s.last, s.waited, s.now, delay⟩] })

theorem journals_answers {outcomes : Nat → Except StoreError Unit} (s : Journal Unit)
    (r : RetryRequest) : journals s r (answers outcomes s r).1 (answers outcomes s r).2 := by
  cases r with
  | clock => exact ⟨Nat.le_refl _, rfl⟩
  | exhausted => exact ⟨nofun, rfl⟩
  | entropy => exact ⟨Nat.zero_le _, rfl⟩
  | _ => rfl

def played (policy : RetryPolicy) (deadline : RunDeadline) (outcomes : Nat →
    Except StoreError Unit) :
    Except StoreError Unit × Journal Unit :=
  (run policy deadline).run.eval (answers outcomes) (Journal.fresh 0)

theorem run_played (policy : RetryPolicy) (deadline : RunDeadline)
    (outcomes : Nat → Except StoreError Unit) :
    Prog.Run journals (run policy deadline).run (Journal.fresh 0)
      (played policy deadline outcomes).1
      (played policy deadline outcomes).2 :=
  Prog.run_eval journals_answers _ _

def busy : StoreError := .provider "b2" 503 "service_unavailable" (some 5)

def busyOnce (number : Nat) : Except StoreError Unit := if number = 1 then .error busy else .ok ()

/-- A server that is busy once is asked again. -/
theorem run_sound_busyOnce : (played .network none busyOnce).2.Sound .network none
    (played .network none busyOnce).1 :=
  run_sound .network none 0 _ _ (by decide) (run_played .network none busyOnce)

def reported : Except StoreError Unit → Option StoreError
  | .ok _ => none
  | .error e => some e

/-- Busy at first, and then with the count of a lower layer. -/
def busyBelow (number : Nat) : Except StoreError Unit :=
  .error (if number = 1 then busy else .retried 6 busy)

/-- A policy without attempts makes one, a wait that a server asks for ends with the window, and a
failure that comes with the count of a lower layer keeps it. -/
theorem played_limits :
    (played { RetryPolicy.network with maxAttempts := 0 } none busyBelow).2.attempts.length = 1 ∧
    ((played .network (some ⟨3, 3000000000⟩) busyOnce).2.waits.map Wait.length = [3000000000] ∧
      (Observed.of busy).retryAfter = some 5000000000) ∧
    reported (played .network none busyBelow).1 = some (.retried 6 busy) ∧
      (played .network none busyBelow).2.attempts.length = 2 := by
  decide +kernel

end Dctl.Store.Retry
