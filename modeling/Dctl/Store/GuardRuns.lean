import Dctl.Store.Guard
import Mathlib.Data.Fin.VecNotation

/-! Runs of any number of callers of a guarded backend, while time passes and the store is
exchanged. -/

namespace Dctl.Store

open ProofKit

variable {ι Reply : Type} {w w' : GuardState ι} {i : ι} {interval : Nat} {container key : String}

def GuardEvent.by' : GuardEvent ι → ι
  | .checked i _ | .answered (.opening i) .. | .answered (.check i) .. | .refused i _
  | .forwarded i .. => i

namespace GuardState

/-- A probe that answers so does not stop a write. -/
def Admits (w : GuardState ι) (identity : Option StoreIdentity) : Prop :=
  ∃ recorded, w.openedAs = some recorded ∧ verdict recorded identity = .proceed

/-- The store at hand has the token of the one that was opened. -/
def IsOpened (w : GuardState ι) (store : Option StoreIdentity) : Prop :=
  ∃ opened now, w.openedAs = some (some opened) ∧ store = some now ∧ opened.token = now.token

/-- The caller goes by a probe that was answered and does not stop a write. -/
def Admitted (w : GuardState ι) (i : ι) : Prop :=
  ∃ p identity n, .checked i (some p) ∈ w.log ∧ .answered p (.ok identity) n ∈ w.log ∧
    w.Admits identity

/-- Some write was refused. -/
def HasRefused (log : List (GuardEvent ι)) : Prop := ∃ j v, .refused j v ∈ log

end GuardState

/-- What the claims of the guard say about a run: after a refusal, no write is forwarded into a
store that is not the one which was opened, and no write is forwarded that goes by a failed probe.
-/
structure GuardState.Kept (w : GuardState ι) : Prop where
  stays : ∀ before i m store n after, w.log = before ++ .forwarded i m store n :: after →
    m.writes = true → HasRefused before → w.IsOpened store
  rests : ∀ i m store n, .forwarded i m store n ∈ w.log → m.writes = true → w.Admitted i
  failed : ∀ i m store n p e k, .forwarded i m store n ∈ w.log → m.writes = true →
    .checked i (some p) ∈ w.log → .answered p (.error e) k ∉ w.log

/-- A write that comes too early for a probe of its own goes by one that was answered and does not
stop it; after a refusal, the store is not exchanged between the answer that a write goes by and the
write. -/
def Heeds (i : ι) (w : GuardState ι) : (r : GuardRequest) → r.Answer Reply → Prop
  | .dueToProbe, due => due = false → ∃ p identity n, w.stamp = some p ∧
      .answered p (.ok identity) n ∈ w.log ∧ w.Admits identity
  | .inner m _, _ => m.writes = true → GuardState.HasRefused w.log → ∀ p x n,
      .checked i (some p) ∈ w.log → .answered p x n ∈ w.log → n = w.exchanges
  | _, _ => True

/-- What holds at every moment of a run. -/
structure GuardState.Sane (w : GuardState ι) : Prop where
  opening : w.opening.isSome → w.openedAs = none
  checks : ∀ i p q, .checked i p ∈ w.log → .checked i q ∈ w.log → p = q
  answers : ∀ p x y n k, .answered p x n ∈ w.log → .answered p y k ∈ w.log → x = y
  truthful : ∀ p identity n, .answered p (.ok identity) n ∈ w.log →
    n ≤ w.exchanges ∧ (n = w.exchanges → identity = w.store)
  refusals : HasRefused w.log → ∃ opened, w.openedAs = some (some opened)
  rests : ∀ i m store n, .forwarded i m store n ∈ w.log → m.writes = true → w.Admitted i
  stays : ∀ before i m store n after, w.log = before ++ .forwarded i m store n :: after →
    m.writes = true → HasRefused before → w.IsOpened store

/-- What the others leave to the caller `i`: its own events, the recorded identity, and whose turn
it is to record one. -/
structure GuardRely (i : ι) (w w' : GuardState ι) : Prop where
  log : AddedByOthers GuardEvent.by' i w.log w'.log
  opened : ∀ o, w.openedAs = some o → w'.openedAs = some o
  opening : w'.opening = some i ↔ w.opening = some i

theorem GuardRely.refl (i : ι) (w : GuardState ι) : GuardRely i w w where
  log := AddedByOthers.refl _ i w.log
  opened := fun _ h => h
  opening := Iff.rfl

theorem GuardRely.trans {w1 w2 w3 : GuardState ι} (h1 : GuardRely i w1 w2)
    (h2 : GuardRely i w2 w3) : GuardRely i w1 w3 where
  log := h1.log.trans h2.log
  opened := fun o ho => h2.opened o (h1.opened o ho)
  opening := h2.opening.trans h1.opening

section

variable (h : GuardRely i w w')
include h

theorem GuardRely.mem {e : GuardEvent ι} (he : e ∈ w.log) : e ∈ w'.log :=
  h.log.mem he

theorem GuardRely.mem_of_mem {e : GuardEvent ι} (he : e ∈ w'.log) (hby : e.by' = i) :
    e ∈ w.log := h.log.mem_of_mem he hby

theorem GuardRely.admits {identity : Option StoreIdentity} (ha : w.Admits identity) :
    w'.Admits identity := by
  obtain ⟨recorded, hopened, hverdict⟩ := ha
  exact ⟨recorded, h.opened _ hopened, hverdict⟩

theorem GuardRely.admitted {j : ι} (ha : w.Admitted j) : w'.Admitted j := by
  obtain ⟨p, identity, n, hcheck, hanswer, hadmits⟩ := ha
  exact ⟨p, identity, n, h.mem hcheck, h.mem hanswer, h.admits hadmits⟩

end

namespace GuardState.Sane

theorem fresh (store : Option StoreIdentity) : (GuardState.fresh store : GuardState ι).Sane where
  opening := nofun
  checks := nofun
  answers := nofun
  truthful := nofun
  refusals := nofun
  rests := nofun
  stays := by
    intro before i m store n after h
    simp [GuardState.fresh] at h

theorem kept (h : w.Sane) : w.Kept where
  stays := h.stays
  rests := h.rests
  failed := by
    intro i m store n p e k hforward hwrites hcheck hanswer
    obtain ⟨q, identity, l, hq, hok, -⟩ := h.rests i m store n hforward hwrites
    have hpq := h.checks i _ _ hcheck hq
    cases hpq
    have := h.answers p _ _ _ _ hanswer hok
    cases this

end GuardState.Sane

/-- What one new event has to satisfy. -/
structure Fits (w : GuardState ι) (e : GuardEvent ι) : Prop where
  checked : ∀ i p, e = .checked i p → ∀ q, .checked i q ∉ w.log
  answered : ∀ p x n, e = .answered p x n → (∀ y k, .answered p y k ∉ w.log) ∧ n = w.exchanges ∧
    ∀ identity, x = .ok identity → identity = w.store
  refused : ∀ j v, e = .refused j v → ∃ opened, w.openedAs = some (some opened)
  forwarded : ∀ j m store n, e = .forwarded j m store n → m.writes = true →
    w.Admitted j ∧ (GuardState.HasRefused w.log → w.IsOpened store)

/-- The caller `i` adds an event of its own, and leaves the identity and the turns of the others. -/
structure Adds (i : ι) (e : GuardEvent ι) (w w' : GuardState ι) : Prop where
  log : w'.log = w.log ++ [e]
  by' : e.by' = i
  opened : w'.openedAs = w.openedAs
  opening : w'.opening = w.opening
  store : w'.store = w.store
  exchanges : w'.exchanges = w.exchanges

theorem Adds.rely {e : GuardEvent ι} (h : Adds i e w w') {j : ι} (hj : j ≠ i) :
    GuardRely j w w' where
  log := by
    rw [h.log]
    apply AddedByOthers.single
    rw [h.by']
    exact hj.symm
  opened := by
    rw [h.opened]
    exact fun _ ho => ho
  opening := by rw [h.opening]

theorem Adds.mem {e f : GuardEvent ι} (h : Adds i e w w') : f ∈ w'.log ↔ f ∈ w.log ∨ f = e := by
  rw [h.log, List.mem_append, List.mem_singleton]

theorem Adds.admitted {e : GuardEvent ι} (h : Adds i e w w') {j : ι} (ha : w.Admitted j) :
    w'.Admitted j := by
  obtain ⟨p, identity, n, hcheck, hanswer, recorded, hopened, hverdict⟩ := ha
  exact ⟨p, identity, n, h.mem.mpr (Or.inl hcheck), h.mem.mpr (Or.inl hanswer), recorded,
    by rw [h.opened, hopened], hverdict⟩

theorem GuardState.Sane.adds {e : GuardEvent ι} (h : w.Sane) (hadds : Adds i e w w')
    (hfits : Fits w e) : w'.Sane where
  opening := by
    rw [hadds.opening, hadds.opened]
    exact h.opening
  checks := by
    intro j p q hp hq
    rcases hadds.mem.mp hp with hp | rfl <;> rcases hadds.mem.mp hq with hq | hq
    · exact h.checks j p q hp hq
    · exact absurd hp (hfits.checked j q hq.symm p)
    · exact absurd hq (hfits.checked j p rfl q)
    · cases hq
      rfl
  answers := by
    intro p x y n k hx hy
    rcases hadds.mem.mp hx with hx | rfl <;> rcases hadds.mem.mp hy with hy | hy
    · exact h.answers p x y n k hx hy
    · exact absurd hx ((hfits.answered p y k hy.symm).1 x n)
    · exact absurd hy ((hfits.answered p x n rfl).1 y k)
    · cases hy
      rfl
  truthful := by
    intro p identity n hanswer
    rw [hadds.exchanges, hadds.store]
    rcases hadds.mem.mp hanswer with hold | rfl
    · exact h.truthful p identity n hold
    · obtain ⟨-, rfl, hstore⟩ := hfits.answered p _ n rfl
      exact ⟨Nat.le_refl _, fun _ => hstore identity rfl⟩
  refusals := by
    rintro ⟨j, v, hv⟩
    rw [hadds.opened]
    rcases hadds.mem.mp hv with hold | rfl
    · exact h.refusals ⟨j, v, hold⟩
    · exact hfits.refused j v rfl
  rests := by
    intro j m store n hforward hwrites
    apply hadds.admitted
    rcases hadds.mem.mp hforward with hold | rfl
    · exact h.rests j m store n hold hwrites
    · exact (hfits.forwarded j m store n rfl hwrites).1
  stays := by
    intro before j m store n after hsplit hwrites hrefused
    have hsame : w'.IsOpened store ↔ w.IsOpened store := by
      rw [GuardState.IsOpened, GuardState.IsOpened, hadds.opened]
    rw [hsame]
    rw [hadds.log] at hsplit
    rcases split_append_singleton hsplit with ⟨rfl, rfl⟩ | ⟨rest, hrest⟩
    · exact (hfits.forwarded j m store n rfl hwrites).2 hrefused
    · exact h.stays before j m store n rest hrest hwrites hrefused

theorem GuardState.Sane.drift (h : w.Sane) (hdrift : Drift w w') :
    w'.Sane ∧ ∀ i, GuardRely i w w' := by
  cases hdrift with
  | pass n =>
    exact ⟨⟨h.opening, h.checks, h.answers, h.truthful, h.refusals, h.rests, h.stays⟩,
      fun i => ⟨AddedByOthers.refl _ i _, fun _ ho => ho, Iff.rfl⟩⟩
  | exchange store =>
    refine ⟨⟨h.opening, h.checks, h.answers, ?_, h.refusals, h.rests, h.stays⟩,
      fun i => ⟨AddedByOthers.refl _ i _, fun _ ho => ho, Iff.rfl⟩⟩
    intro p identity n hanswer
    have := (h.truthful p identity n hanswer).1
    exact ⟨by simp only; omega, fun heq => by simp only at heq; omega⟩

structure Start (i : ι) (w : GuardState ι) : Prop where
  turn : w.opening ≠ some i
  silent : ∀ e ∈ w.log, e.by' ≠ i

/-- A caller that knows which store was opened, and has not compared it yet. -/
structure Ready (i : ι) (recorded : Option StoreIdentity) (w : GuardState ι) : Prop where
  turn : w.opening ≠ some i
  opened : w.openedAs = some recorded
  unchecked : ∀ p, .checked i p ∉ w.log
  unasked : ∀ x n, .answered (.check i) x n ∉ w.log

theorem Start.fresh (i : ι) (store : Option StoreIdentity) : Start i (GuardState.fresh store) where
  turn := nofun
  silent := nofun

theorem Start.rely (h : Start i w) (hrely : GuardRely i w w') : Start i w' where
  turn := fun hturn => h.turn (hrely.opening.mp hturn)
  silent := fun e he hby => h.silent e (hrely.mem_of_mem he hby) hby

theorem Ready.rely {recorded : Option StoreIdentity} (h : Ready i recorded w)
    (hrely : GuardRely i w w') : Ready i recorded w' where
  turn := fun hturn => h.turn (hrely.opening.mp hturn)
  opened := hrely.opened _ h.opened
  unchecked := fun p hp => h.unchecked p (hrely.mem_of_mem hp rfl)
  unasked := fun x n hx => h.unasked x n (hrely.mem_of_mem hx rfl)

variable [DecidableEq ι]

/-- How the shared state answers a caller that heeds the condition. -/
def heeded (interval : Nat) (i : ι) :
    Prog.Server (GuardState ι) GuardRequest (GuardRequest.Answer Reply) :=
  Prog.Server.given (guards interval i) (Heeds i)

/-- A program of the caller `i` that keeps the state sane. -/
abbrev Minding {α : Type} (interval : Nat) (i : ι) (post : Except StoreError α →
    GuardState ι → Prop)
    (p : GuardM Reply α) (w : GuardState ι) : Prop :=
  p.run.Minds (heeded interval) GuardState.Sane GuardRely i post w

omit [DecidableEq ι] in
theorem GuardState.Sane.record (h : w.Sane) (hempty : w.openedAs = none)
    (identity : Option StoreIdentity) (last : Option Nat) (stamp : Option (ProbeId ι)) :
    GuardState.Sane { w with
      openedAs := some identity, opening := none, lastProbe := last, stamp } where
  opening := nofun
  checks := h.checks
  answers := h.answers
  truthful := h.truthful
  refusals := by
    intro hrefused
    obtain ⟨opened, hopened⟩ := h.refusals hrefused
    rw [hempty] at hopened
    cases hopened
  rests := by
    intro j m store n hforward hwrites
    obtain ⟨p, identity, k, -, -, recorded, hopened, -⟩ := h.rests j m store n hforward hwrites
    rw [hempty] at hopened
    cases hopened
  stays := by
    intro before j m store n after hlog hwrites hrefused
    obtain ⟨opened, now, hopened, -⟩ := h.stays before j m store n after hlog hwrites hrefused
    rw [hempty] at hopened
    cases hopened

theorem settle_minds {x : Except StoreError (Option StoreIdentity)} (hturn : w.opening = some i)
    (hunchecked : ∀ p, .checked i p ∉ w.log) (hunasked : ∀ x n, .answered (.check i) x n ∉ w.log) :
    Minding interval i (fun x w' => ∀ recorded, x = .ok recorded → Ready i recorded w')
      (settle x : GuardM Reply _) w := by
  cases x with
  | ok identity =>
    apply Prog.Minds.query_bind
    rintro w1 hrely hsane - w' ⟨-, rfl⟩
    have hturn' := hrely.opening.mpr hturn
    have hempty := hsane.opening (by rw [hturn']; rfl)
    refine ⟨hsane.record hempty identity _ _, ?_, ?_⟩
    · intro j hj
      refine ⟨AddedByOthers.refl _ j _, by simp [hempty], ?_⟩
      rw [hturn']
      simpa using hj.symm
    · intro recorded hrecorded
      cases hrecorded
      exact ⟨nofun, rfl, fun p hp => hunchecked p (hrely.mem_of_mem hp rfl),
        fun x n hx => hunasked x n (hrely.mem_of_mem hx rfl)⟩
  | error e =>
    apply Prog.Minds.query_bind
    rintro w1 hrely hsane - w' ⟨-, rfl⟩
    refine ⟨⟨nofun, hsane.checks, hsane.answers, hsane.truthful, hsane.refusals, hsane.rests,
      hsane.stays⟩, ?_, nofun⟩
    intro j hj
    refine ⟨AddedByOthers.refl _ j _, fun _ ho => ho, ?_⟩
    rw [hrely.opening.mpr hturn]
    simpa using hj.symm

theorem adds_answer (i : ι) (x : Except StoreError (Option StoreIdentity)) :
    Adds i (.answered (w.probing i) x w.exchanges) w (w.answer i x) where
  log := rfl
  by' := by
    rw [GuardState.probing]
    split <;> rfl
  opened := rfl
  opening := rfl
  store := rfl
  exchanges := rfl

theorem GuardState.Sane.answer (h : w.Sane) {x : Except StoreError (Option StoreIdentity)}
    (hx : x = .ok w.store ∨ ∃ e, x = .error e)
    (hfirst : ∀ y k, .answered (w.probing i) y k ∉ w.log) : (w.answer i x).Sane := by
  refine h.adds (adds_answer i x) ⟨nofun, ?_, nofun, nofun⟩
  intro p y n he
  cases he
  refine ⟨hfirst, rfl, ?_⟩
  rintro identity rfl
  rcases hx with hx | ⟨e, he⟩
  · exact Except.ok.inj hx
  · cases he

theorem openedAs_minds (h : Start i w) :
    Minding interval i (fun x w' => ∀ recorded, x = .ok recorded → Ready i recorded w')
      (openedAs : GuardM Reply _) w := by
  apply Prog.Minds.query_bind
  rintro w1 hrely hsane x w' ⟨-, hserve⟩
  have h1 := h.rely hrely
  rcases hserve with ⟨hsome, rfl, rfl⟩ | ⟨hempty, hfree, rfl, rfl⟩
  · refine ⟨hsane, fun j _ => GuardRely.refl j _, ?_⟩
    obtain ⟨recorded, hrecorded⟩ := Option.isSome_iff_exists.mp hsome
    rw [hrecorded]
    intro recorded' heq
    cases heq
    exact ⟨h1.turn, hrecorded, fun p hp => h1.silent _ hp rfl, fun x n hx => h1.silent _ hx rfl⟩
  · refine ⟨⟨fun _ => hempty, hsane.checks, hsane.answers, hsane.truthful, hsane.refusals,
      hsane.rests, hsane.stays⟩, ?_, ?_⟩
    · intro j hj
      refine ⟨AddedByOthers.refl _ j _, fun _ ho => ho, ?_⟩
      rw [hfree]
      simpa using hj.symm
    · apply Prog.Minds.query_bind
      rintro w2 hrely2 hsane2 x w' ⟨-, hx, rfl⟩
      have hturn : w2.opening = some i := hrely2.opening.mpr rfl
      have hsilent : ∀ e ∈ w2.log, e.by' ≠ i := fun e he hby =>
        h1.silent e (hrely2.mem_of_mem he hby) hby
      have hprobing : w2.probing i = .opening i := if_pos hturn
      refine ⟨hsane2.answer hx ?_, fun j hj => (adds_answer i x).rely hj, settle_minds hturn ?_ ?_⟩
      · intro y k hy
        rw [hprobing] at hy
        exact hsilent _ hy rfl
      · intro p hp
        rcases (adds_answer i x).mem.mp hp with hp | hp
        · exact hsilent _ hp rfl
        · cases hp
      · intro y n hy
        rcases (adds_answer i x).mem.mp hy with hy | hy
        · exact hsilent _ hy rfl
        · rw [hprobing] at hy
          cases hy

theorem admit_minds {recorded identity : Option StoreIdentity} {n : Nat}
    (hopened : w.openedAs = some recorded) (hcheck : .checked i (some (.check i)) ∈ w.log)
    (hanswer : .answered (.check i) (.ok identity) n ∈ w.log) :
    Minding interval i (fun x w' => x = .ok () → w'.Admitted i)
      (admitOn container (verdict recorded identity) : GuardM Reply _) w := by
  by_cases hverdict : verdict recorded identity = .proceed
  · rw [hverdict]
    intro _
    exact ⟨_, identity, n, hcheck, hanswer, recorded, hopened, hverdict⟩
  · have hrefuse : (admitOn container (verdict recorded identity) : GuardM Reply _) =
        Prog.query (.reportRefusal (verdict recorded identity)) >>= fun _ =>
          throw (refuse container (verdict recorded identity)) := by
      cases h : verdict recorded identity with
      | proceed => exact absurd h hverdict
      | gone | replaced => rfl
    rw [hrefuse]
    apply Prog.Minds.query_bind
    rintro w1 hrely hsane - w' ⟨-, rfl⟩
    have hadds : Adds i (.refused i (verdict recorded identity)) w1
        { w1 with log := w1.log ++ [.refused i (verdict recorded identity)] } :=
      ⟨rfl, rfl, rfl, rfl, rfl, rfl⟩
    refine ⟨hsane.adds hadds ⟨nofun, nofun, ?_, nofun⟩, fun j hj => hadds.rely hj, nofun⟩
    intro _ _ _
    rw [hrely.opened _ hopened]
    cases recorded with
    | none => exact absurd rfl hverdict
    | some opened => exact ⟨opened, rfl⟩

theorem compare_minds {recorded : Option StoreIdentity} (h : Ready i recorded w) :
    Minding interval i (fun x w' => x = .ok () → w'.Admitted i)
      (Prog.query .dueToProbe >>= compare container recorded : GuardM Reply _) w := by
  apply Prog.Minds.query_bind
  rintro w1 hrely hsane due w' ⟨hheeds, hserve⟩
  have h1 := h.rely hrely
  have hturn : (due, w') = w1.takeTurn interval i := hserve
  rw [GuardState.takeTurn] at hturn
  by_cases hinterval : dueToProbe interval w1.now w1.lastProbe = true
  · rw [if_pos hinterval] at hturn
    obtain ⟨rfl, hw'⟩ := Prod.mk.inj hturn
    have hadds : Adds i (.checked i (some (.check i))) w1 w' := by
      rw [hw']
      exact ⟨rfl, rfl, rfl, rfl, rfl, rfl⟩
    refine ⟨hsane.adds hadds ⟨?_, nofun, nofun, nofun⟩, fun j hj => hadds.rely hj, ?_⟩
    · intro j p he q hq
      cases he
      exact h1.unchecked q hq
    · show Minding interval i _ (probe >>= fun now => admitOn container (verdict recorded now)) w'
      rw [probe, bind_assoc]
      apply Prog.Minds.query_bind
      rintro w2 hrely2 hsane2 x w3 ⟨-, hx, rfl⟩
      have hturn : w2.opening ≠ some i := by
        rw [ne_eq, hrely2.opening, hadds.opening]
        exact h1.turn
      have hprobing : w2.probing i = .check i := if_neg hturn
      have hadds2 := adds_answer (w := w2) i x
      rw [hprobing] at hadds2
      refine ⟨hsane2.answer hx ?_, fun j hj => hadds2.rely hj, ?_⟩
      · intro y k hy
        rw [hprobing] at hy
        rcases hadds.mem.mp (hrely2.mem_of_mem hy rfl) with hy | hy
        · exact h1.unasked y k hy
        · cases hy
      · cases x with
        | error e => exact nofun
        | ok identity =>
          refine @admit_minds _ _ _ _ _ _ _ recorded identity w2.exchanges ?_ ?_ ?_
          · rw [hadds2.opened]
            exact hrely2.opened _ (by rw [hadds.opened]; exact h1.opened)
          · exact hadds2.mem.mpr (Or.inl (hrely2.mem (hadds.mem.mpr (Or.inr rfl))))
          · exact hadds2.mem.mpr (Or.inr rfl)
  · rw [if_neg hinterval] at hturn
    obtain ⟨rfl, hw'⟩ := Prod.mk.inj hturn
    have hadds : Adds i (.checked i w1.stamp) w1 w' := by
      rw [hw']
      exact ⟨rfl, rfl, rfl, rfl, rfl, rfl⟩
    refine ⟨hsane.adds hadds ⟨?_, nofun, nofun, nofun⟩, fun j hj => hadds.rely hj, ?_⟩
    · intro j p he q hq
      cases he
      exact h1.unchecked q hq
    · intro _
      obtain ⟨p, identity, n, hstamp, hanswer, recorded', hopened, hverdict⟩ := hheeds rfl
      exact ⟨p, identity, n, hadds.mem.mpr (Or.inr (by rw [hstamp])),
        hadds.mem.mpr (Or.inl hanswer), recorded', by rw [hadds.opened, hopened], hverdict⟩

theorem requireSameStore_minds (h : Start i w) :
    Minding interval i (fun x w' => x = .ok () → w'.Admitted i)
      (requireSameStore container : GuardM Reply _) w := by
  refine (openedAs_minds h).fallible_bind ?_ fun _ _ _ => nofun
  intro recorded w' hready
  exact compare_minds (hready recorded rfl)

theorem forward_minds {m : Method} (h : m.writes = true → w.Admitted i) :
    Minding interval i (fun _ _ => True) (forward m key : GuardM Reply _) w := by
  apply Prog.Minds.query_bind
  rintro w1 hrely hsane x w' ⟨hheeds, rfl⟩
  have hadds : Adds i (.forwarded i m w1.store w1.exchanges) w1
      { w1 with log := w1.log ++ [.forwarded i m w1.store w1.exchanges] } :=
    ⟨rfl, rfl, rfl, rfl, rfl, rfl⟩
  refine ⟨hsane.adds hadds ⟨nofun, nofun, nofun, ?_⟩, fun j hj => hadds.rely hj, ?_⟩
  · intro j m' store n he hwrites
    cases he
    have hadmitted := hrely.admitted (h hwrites)
    refine ⟨hadmitted, ?_⟩
    intro hrefused
    obtain ⟨p, identity, n, hcheck, hanswer, recorded, hopened, hverdict⟩ := hadmitted
    have hsame := (hsane.truthful p identity n hanswer).2
      (hheeds hwrites hrefused p _ n hcheck hanswer)
    obtain ⟨opened, hopened'⟩ := hsane.refusals hrefused
    rw [hopened'] at hopened
    cases hopened
    -- The probe was answered with a store, and it is the one that is still there.
    cases identity with
    | none => cases hverdict
    | some now =>
      refine ⟨opened, now, hopened', hsame.symm, ?_⟩
      by_contra htoken
      rw [verdict, if_neg htoken] at hverdict
      cases hverdict
  · cases x <;> trivial

theorem operation_minds (h : Start i w) (m : Method) :
    Minding interval i (fun _ _ => True) (operation container key m : GuardM Reply _) w := by
  rw [operation_eq]
  split
  · refine (requireSameStore_minds h).fallible_bind ?_ fun _ _ _ => trivial
    intro u w' hadmitted
    exact forward_minds fun _ => hadmitted rfl
  · rename_i hreads
    refine (openedAs_minds h).fallible_bind ?_ fun _ _ _ => trivial
    intro recorded w' _
    exact forward_minds fun hwrites => absurd hwrites hreads

def callers (container : String) (calls : ι → Method × String) (store : Option StoreIdentity) :
    Crowd ι GuardRequest (GuardRequest.Answer Reply) (Except StoreError Reply) (GuardState ι) where
  state := GuardState.fresh store
  todo i := (operation container (calls i).2 (calls i).1).run

/-- After a refusal nothing is written into a store that is not the one which was opened, and no
failed probe lets a write through, in every run of any callers that heed the condition. -/
theorem refusals_hold {calls : ι → Method × String} {store : Option StoreIdentity}
    {c : Crowd ι GuardRequest (GuardRequest.Answer Reply) (Except StoreError Reply) (GuardState ι)}
    (hrun : Crowd.Steps (heeded interval) Drift (callers container calls store) c) :
    c.state.Kept := by
  have hstart : (callers container calls store :
      Crowd ι GuardRequest (GuardRequest.Answer Reply) _ _).Minded (heeded interval)
        GuardState.Sane GuardRely fun _ _ _ => True := by
    refine ⟨GuardState.Sane.fresh store, ?_⟩
    intro i
    exact operation_minds (Start.fresh i store) _
  have hend := hstart.steps (fun _ _ _ _ => GuardRely.trans) (fun _ _ => GuardRely.refl _ _)
    (fun _ _ _ _ _ _ => trivial) (fun _ _ hsane hdrift => hsane.drift hdrift) hrun
  exact hend.invariant.kept

def honestGuard (interval : Nat) (i : ι) (w : GuardState ι) :
    (r : GuardRequest) → r.Answer Unit × GuardState ι
  | .openedAs => (w.openedAs, if w.openedAs.isSome then w else { w with opening := some i })
  | .storeIdentity => (.ok w.store, w.answer i (.ok w.store))
  | .record identity =>
    ((), { w with
      openedAs := some identity
      opening := none
      lastProbe := some w.now
      stamp := some (.opening i) })
  | .giveUp => ((), { w with opening := none })
  | .dueToProbe => w.takeTurn interval i
  | .reportRefusal v => ((), { w with log := w.log ++ [.refused i v] })
  | .inner m _ => (.ok (), { w with log := w.log ++ [.forwarded i m w.store w.exchanges] })

def free (w : GuardState ι) (r : GuardRequest) (_ : r.Answer Unit) : Bool :=
  r ≠ .openedAs || w.opening = none

def heeding (i : ι) (w : GuardState ι) : (r : GuardRequest) → r.Answer Unit → Bool
  | .dueToProbe, due => due || match w.stamp, w.openedAs with
    | some p, some recorded => w.log.any fun e => match e with
      | .answered q (.ok identity) _ => q = p && verdict recorded identity = .proceed
      | _ => false
    | _, _ => false
  | .inner .., _ => w.log.all fun e => match e with
    | .checked j (some p) => j ≠ i || w.log.all fun e' => match e' with
      | .answered q _ n => q ≠ p || n = w.exchanges
      | _ => true
    | _ => true
  | _, _ => true

theorem heeds_of_heeding {r : GuardRequest} {x : r.Answer Unit} (h : heeding i w r x = true) :
    Heeds i w r x := by
  cases r with
  | dueToProbe =>
    intro hdue
    have hx : x = false := hdue
    rw [heeding, hx, Bool.false_or] at h
    split at h
    next p recorded hstamp hopened =>
      obtain ⟨e, he, hanswer⟩ := List.any_eq_true.mp h
      split at hanswer
      next q identity n =>
        obtain ⟨rfl, hverdict⟩ : q = p ∧ verdict recorded identity = .proceed := by
          simpa using hanswer
        exact ⟨q, identity, n, hstamp, he, recorded, hopened, hverdict⟩
      next => cases hanswer
    next => cases h
  | inner m key =>
    intro _ _ p y n hcheck hanswer
    have hall := List.all_eq_true.mp h _ hcheck
    simp only [ne_eq, not_true_eq_false, decide_false, Bool.false_or] at hall
    simpa using List.all_eq_true.mp hall _ hanswer
  | _ => trivial

theorem guards_honestGuard {r : GuardRequest} {x : r.Answer Unit} (hfree : free w r x = true)
    (h : Prog.Server.ofFun (honestGuard interval i) w r x w') : guards interval i w r x w' := by
  cases r with
  | openedAs =>
    obtain ⟨rfl, rfl⟩ := Prod.mk.inj h
    cases hopened : w.openedAs with
    | some o => exact Or.inl ⟨by rw [hopened]; rfl, by rw [hopened], rfl⟩
    | none => exact Or.inr ⟨hopened, by simpa [free] using hfree, rfl, by simp [hopened]⟩
  | storeIdentity =>
    obtain ⟨rfl, rfl⟩ := Prod.mk.inj h
    exact ⟨Or.inl rfl, rfl⟩
  | dueToProbe => exact h.symm
  | _ =>
    obtain ⟨-, rfl⟩ := Prod.mk.inj h
    rfl

/-- The callers make their calls one after the other; before its call, the state changes as `before`
says. -/
def story (interval : Nat) (container : String) (calls : ι → Method × String)
    (check : ι → GuardState ι → (r : GuardRequest) → r.Answer Unit → Bool)
    (before : ι → GuardState ι → GuardState ι) : List ι → GuardState ι → Option (GuardState ι)
  | [], w => some w
  | i :: rest, w =>
    ((operation container (calls i).2 (calls i).1).run.evalGiven (honestGuard interval i)
      (fun w r x => free w r x && check i w r x) (before i w)).bind fun end' =>
        story interval container calls check before rest end'.2

theorem inTurn_of_story {calls : ι → Method × String}
    {check : ι → GuardState ι → (r : GuardRequest) → r.Answer Unit → Bool}
    {before : ι → GuardState ι → GuardState ι}
    (serve : ι → Prog.Server (GuardState ι) GuardRequest (GuardRequest.Answer Unit))
    (hserve : ∀ i w r x w', check i w r x = true → guards interval i w r x w' → serve i w r x w')
    (hbefore : ∀ i w, Relation.ReflTransGen Drift w (before i w)) {order : List ι}
    (h : story interval container calls check before order w = some w') :
    Crowd.InTurn serve Drift
      (fun i => (operation container (calls i).2 (calls i).1).run) order w w' := by
  induction order generalizing w with
  | nil =>
    cases h
    exact Crowd.InTurn.nil _
  | cons i rest ih =>
    obtain ⟨⟨x, w1⟩, hcall, hrest⟩ := Option.bind_eq_some_iff.mp h
    have hgiven : Prog.Run ((Prog.Server.ofFun (honestGuard interval i)).given fun w r x =>
        free w r x = true ∧ check i w r x = true) _ (before i w) x w1 :=
      Prog.run_of_evalGiven (honestGuard interval i) (fun _ _ _ => (Bool.and_eq_true _ _).mp)
        (fun _ _ => rfl) hcall
    refine Crowd.InTurn.cons (hbefore i w) (hgiven.mono ?_) (ih hrest)
    rintro w r x w' ⟨⟨hfree, hcheck⟩, hx⟩
    exact hserve i w r x w' hcheck (guards_honestGuard hfree hx)

/-- Time passes before each call, and a store is put in place. -/
def staged (waits : Fin 3 → Nat) (stores : Fin 3 → StoreIdentity) (i : Fin 3)
    (w : GuardState (Fin 3)) : GuardState (Fin 3) :=
  { w with
    now := w.now + waits i
    store := some (stores i)
    exchanges := w.exchanges + 1 }

theorem drift_staged (waits : Fin 3 → Nat) (stores : Fin 3 → StoreIdentity) (i : Fin 3)
    (w : GuardState (Fin 3)) : Relation.ReflTransGen Drift w (staged waits stores i w) :=
  (Relation.ReflTransGen.single (Drift.pass (waits i))).tail (Drift.exchange (some (stores i)))

def seconds (n : Nat) : Nat := n * 1000000000

def storeA : StoreIdentity := .distinguishing "store-a"

def storeB : StoreIdentity := .distinguishing "store-b"

/-- Three calls that store one object, under the shipped interval: the second is refused since the
store was replaced, and the third, a second later, is written into the replacement. -/
theorem refused_write_goes_through : ∃ c : Crowd (Fin 3) GuardRequest (GuardRequest.Answer Unit)
      (Except StoreError Unit) (GuardState (Fin 3)),
    Crowd.Steps (guards (seconds 5)) Drift
      (callers "/srv/vault" (fun _ => (.put, "a/b.bin")) (some storeA)) c ∧ ¬c.state.Kept := by
  have hend : (story (seconds 5) "/srv/vault" (fun _ => (.put, "a/b.bin")) (fun _ _ _ _ => true)
      (staged ![0, seconds 6, seconds 1] ![storeA, storeB, storeB]) [0, 1, 2]
      (GuardState.fresh (some storeA))).map (fun w => (w.log, w.openedAs)) = some
        ([.answered (.opening 0) (.ok (some storeA)) 1, .checked 0 (some (.opening 0)),
          .forwarded 0 .put (some storeA) 1, .checked 1 (some (.check 1)),
          .answered (.check 1) (.ok (some storeB)) 2, .refused 1 .replaced,
          .checked 2 (some (.check 1))] ++ .forwarded 2 .put (some storeB) 3 :: [],
        some (some storeA)) := by
    decide
  obtain ⟨w, hstory, hw⟩ := Option.map_eq_some_iff.mp hend
  obtain ⟨hlog, hopened⟩ := Prod.mk.inj hw
  obtain ⟨todo, hsteps⟩ := (inTurn_of_story (guards (seconds 5)) (fun _ _ _ _ _ _ h => h)
    (drift_staged _ _) hstory).steps (by decide) fun _ _ => rfl
  refine ⟨_, hsteps, ?_⟩
  intro hkept
  obtain ⟨opened, now, hopened', hstore, htoken⟩ :=
    hkept.stays _ 2 .put _ _ _ hlog rfl ⟨1, .replaced, by simp⟩
  rw [hopened] at hopened'
  cases hopened'
  cases hstore
  revert htoken
  decide

/-- The same with six seconds between the calls, and the store that was opened put back before the
third: it makes a probe of its own, and is written where it belongs. -/
theorem refusals_hold_restored : ∃ c : Crowd (Fin 3) GuardRequest (GuardRequest.Answer Unit)
      (Except StoreError Unit) (GuardState (Fin 3)),
    c.state.log = [.answered (.opening 0) (.ok (some storeA)) 1, .checked 0 (some (.opening 0)),
      .forwarded 0 .put (some storeA) 1, .checked 1 (some (.check 1)),
      .answered (.check 1) (.ok (some storeB)) 2, .refused 1 .replaced,
      .checked 2 (some (.check 2)), .answered (.check 2) (.ok (some storeA)) 3,
      .forwarded 2 .put (some storeA) 3] ∧ c.state.Kept := by
  have hend : (story (seconds 5) "/srv/vault" (fun _ => (.put, "a/b.bin")) heeding
      (staged ![0, seconds 6, seconds 6] ![storeA, storeB, storeA]) [0, 1, 2]
      (GuardState.fresh (some storeA))).map (·.log) = some
        [.answered (.opening 0) (.ok (some storeA)) 1, .checked 0 (some (.opening 0)),
          .forwarded 0 .put (some storeA) 1, .checked 1 (some (.check 1)),
          .answered (.check 1) (.ok (some storeB)) 2, .refused 1 .replaced,
          .checked 2 (some (.check 2)), .answered (.check 2) (.ok (some storeA)) 3,
          .forwarded 2 .put (some storeA) 3] := by
    decide
  obtain ⟨w, hstory, hlog⟩ := Option.map_eq_some_iff.mp hend
  obtain ⟨todo, hsteps⟩ := (inTurn_of_story (heeded (seconds 5))
    (fun i w r x w' hheeding h => ⟨heeds_of_heeding hheeding, h⟩)
    (drift_staged _ _) hstory).steps (by decide) fun _ _ => rfl
  exact ⟨⟨w, todo⟩, hlog, refusals_hold hsteps⟩

end Dctl.Store
