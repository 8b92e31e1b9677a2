import Mathlib.Computability.Language

/-! A matching machine: a program whose instructions consume one symbol that passes a test, fork,
jump or accept, run over every live instruction at once. -/

namespace Dctl.ProofKit

open List

inductive Inst (τ : Type) where
  | consume (test : τ)
  | split (first second : Nat)
  | jump (target : Nat)
  | accept
  deriving DecidableEq, Repr

variable {α τ : Type}

section Runs

variable (admits : τ → α → Bool) (p : List (Inst τ))

/-- From an instruction, the program accepts a word along some path. -/
inductive Runs : Nat → List α → Prop where
  | consume {pc t a w} : p[pc]? = some (.consume t) → admits t a = true → Runs (pc + 1) w →
      Runs pc (a :: w)
  | first {pc i j w} : p[pc]? = some (.split i j) → Runs i w → Runs pc w
  | second {pc i j w} : p[pc]? = some (.split i j) → Runs j w → Runs pc w
  | jump {pc i w} : p[pc]? = some (.jump i) → Runs i w → Runs pc w
  | accept {pc} : p[pc]? = some .accept → Runs pc []

variable {admits p} {pc i j : Nat} {t : τ} {w : List α}

theorem Runs.lt (h : Runs admits p pc w) : pc < p.length := by
  cases h with
  | consume h _ _ => exact (List.getElem?_eq_some_iff.mp h).1
  | first h _ => exact (List.getElem?_eq_some_iff.mp h).1
  | second h _ => exact (List.getElem?_eq_some_iff.mp h).1
  | jump h _ => exact (List.getElem?_eq_some_iff.mp h).1
  | accept h => exact (List.getElem?_eq_some_iff.mp h).1

theorem runs_consume (h : p[pc]? = some (.consume t)) :
    Runs admits p pc w ↔ ∃ a w', w = a :: w' ∧ admits t a = true ∧ Runs admits p (pc + 1) w' := by
  constructor
  · intro hr
    cases hr with
    | consume h' ha hr =>
      rw [h] at h'
      cases h'
      exact ⟨_, _, rfl, ha, hr⟩
    | first h' _ => rw [h] at h'; cases h'
    | second h' _ => rw [h] at h'; cases h'
    | jump h' _ => rw [h] at h'; cases h'
    | accept h' => rw [h] at h'; cases h'
  · rintro ⟨a, w', rfl, ha, hr⟩
    exact .consume h ha hr

theorem runs_split (h : p[pc]? = some (.split i j)) :
    Runs admits p pc w ↔ Runs admits p i w ∨ Runs admits p j w := by
  constructor
  · intro hr
    cases hr with
    | consume h' _ _ => rw [h] at h'; cases h'
    | first h' hr =>
      rw [h] at h'
      cases h'
      exact Or.inl hr
    | second h' hr =>
      rw [h] at h'
      cases h'
      exact Or.inr hr
    | jump h' _ => rw [h] at h'; cases h'
    | accept h' => rw [h] at h'; cases h'
  · rintro (hr | hr)
    · exact .first h hr
    · exact .second h hr

theorem runs_jump (h : p[pc]? = some (.jump i)) : Runs admits p pc w ↔ Runs admits p i w := by
  constructor
  · intro hr
    cases hr with
    | consume h' _ _ => rw [h] at h'; cases h'
    | first h' _ => rw [h] at h'; cases h'
    | second h' _ => rw [h] at h'; cases h'
    | jump h' hr =>
      rw [h] at h'
      cases h'
      exact hr
    | accept h' => rw [h] at h'; cases h'
  · exact .jump h

theorem runs_accept (h : p[pc]? = some .accept) : Runs admits p pc w ↔ w = [] := by
  constructor
  · intro hr
    cases hr with
    | consume h' _ _ => rw [h] at h'; cases h'
    | first h' _ => rw [h] at h'; cases h'
    | second h' _ => rw [h] at h'; cases h'
    | jump h' _ => rw [h] at h'; cases h'
    | accept _ => rfl
  · rintro rfl
    exact .accept h

/-- Between two instructions the program reads the words of a language. -/
def Reads (admits : τ → α → Bool) (p : List (Inst τ)) (i j : Nat) (l : Language α) : Prop :=
  ∀ w, Runs admits p i w ↔ ∃ u ∈ l, ∃ v, w = u ++ v ∧ Runs admits p j v

namespace Reads

variable {k : Nat} {l m : Language α}

theorem refl : Reads admits p i i 1 := by
  intro w
  simp [Language.mem_one]

theorem trans (h1 : Reads admits p i j l) (h2 : Reads admits p j k m) :
    Reads admits p i k (l * m) := by
  intro w
  rw [h1 w]
  constructor
  · rintro ⟨u, hu, v, rfl, hr⟩
    obtain ⟨u', hu', v', rfl, hr'⟩ := (h2 v).mp hr
    exact ⟨u ++ u', Language.mem_mul.mpr ⟨u, hu, u', hu', rfl⟩, v', by simp, hr'⟩
  · rintro ⟨x, hx, v', rfl, hr⟩
    obtain ⟨u, hu, u', hu', rfl⟩ := Language.mem_mul.mp hx
    exact ⟨u, hu, u' ++ v', by simp, (h2 _).mpr ⟨u', hu', v', rfl, hr⟩⟩

theorem one (h : p[i]? = some (.consume t)) :
    Reads admits p i (i + 1) ({w | ∃ a, w = [a] ∧ admits t a = true} : Set (List α)) := by
  intro w
  rw [runs_consume h]
  constructor
  · rintro ⟨a, w', rfl, ha, hr⟩
    exact ⟨[a], ⟨a, rfl, ha⟩, w', rfl, hr⟩
  · rintro ⟨u, ⟨a, rfl, ha⟩, v, rfl, hr⟩
    exact ⟨a, v, rfl, ha, hr⟩

theorem star (hs : p[i]? = some (.split (i + 1) (i + 3))) (hc : p[i + 1]? = some (.consume t))
    (hj : p[i + 2]? = some (.jump i)) :
    Reads admits p i (i + 3) ({w | ∀ a ∈ w, admits t a = true} : Set (List α)) := by
  have hloop : ∀ w, Runs admits p i w ↔
      (∃ a w', w = a :: w' ∧ admits t a = true ∧ Runs admits p i w') ∨ Runs admits p (i + 3) w := by
    intro w
    rw [runs_split hs, runs_consume hc]
    simp only [Nat.add_assoc, Nat.reduceAdd, runs_jump hj]
  intro w
  constructor
  · intro hr
    induction w with
    | nil =>
      rcases (hloop []).mp hr with ⟨a, w', h, -⟩ | hr
      · cases h
      · exact ⟨[], nofun, [], rfl, hr⟩
    | cons b rest ih =>
      rcases (hloop _).mp hr with ⟨a, w', h, ha, hr⟩ | hr
      · cases h
        obtain ⟨u, hu, v, rfl, hv⟩ := ih hr
        exact ⟨b :: u, forall_mem_cons.mpr ⟨ha, hu⟩, v, rfl, hv⟩
      · exact ⟨[], nofun, b :: rest, rfl, hr⟩
  · rintro ⟨u, hu, v, rfl, hv⟩
    induction u with
    | nil => exact (hloop _).mpr (Or.inr hv)
    | cons b rest ih =>
      obtain ⟨hb, hrest⟩ := forall_mem_cons.mp hu
      exact (hloop _).mpr (Or.inl ⟨b, rest ++ v, rfl, hb, ih hrest⟩)

theorem fork {e : Nat} (hs : p[i]? = some (.split (i + 1) j)) (h1 : Reads admits p (i + 1) e l)
    (he : p[e]? = some (.jump k)) (h2 : Reads admits p j k m) : Reads admits p i k (l + m) := by
  intro w
  rw [runs_split hs, h1 w, h2 w]
  simp only [runs_jump he, Language.mem_add, or_and_right, exists_or]

theorem accept (h : Reads admits p i j l) (hj : p[j]? = some .accept) :
    Runs admits p i w ↔ w ∈ l := by
  rw [h w]
  simp [runs_accept hj]

end Reads

end Runs

/-- Where an instruction goes without consuming. -/
def Inst.targets : Inst τ → List Nat
  | split first second => [first, second]
  | jump target => [target]
  | consume _ => []
  | accept => []

/-- Whether an instruction waits for a symbol or for the end. -/
def Inst.stops : Inst τ → Bool
  | consume _ => true
  | accept => true
  | split _ _ => false
  | jump _ => false

theorem count_false_set {seen : List Bool} {pc : Nat} (h : seen[pc]? = some false) :
    (seen.set pc true).count false + 1 = seen.count false := by
  obtain ⟨hlt, hpc⟩ := List.getElem?_eq_some_iff.mp h
  have hpos : 0 < seen.count false := count_pos_iff.mpr (hpc ▸ getElem_mem hlt)
  rw [count_set hlt, hpc]
  simp only [beq_self_eq_true, if_true, Bool.beq_eq_decide_eq, Bool.true_eq_false, decide_false,
    Bool.false_eq_true, if_false]
  omega

theorem Inst.length_targets (inst : Inst τ) : inst.targets.length ≤ 2 := by
  cases inst <;> simp [Inst.targets]

/-- Follow every step that consumes nothing from the pending instructions, collecting those that
stop.  Each instruction joins at most once. -/
def spawn (p : List (Inst τ)) (pending live : List Nat) (seen : List Bool) :
    List Nat × List Bool :=
  match pending with
  | [] => (live, seen)
  | pc :: pending =>
    if _h : seen[pc]? = some false then
      match p[pc]? with
      | some inst =>
        spawn p (inst.targets ++ pending) (if inst.stops then live ++ [pc] else live)
          (seen.set pc true)
      | none => spawn p pending live (seen.set pc true)
    else spawn p pending live seen
termination_by 3 * seen.count false + pending.length
decreasing_by
  · have := count_false_set _h
    have := inst.length_targets
    simp only [length_append, length_cons]
    omega
  · have := count_false_set _h
    simp only [length_cons]
    omega
  · simp only [length_cons]
    omega

section Spawn

variable {p : List (Inst τ)} {pending live : List Nat} {seen : List Bool} {pc : Nat}

theorem getElem?_set_true {i : Nat} (h : seen[pc]? = some false) :
    (seen.set pc true)[i]? = some true ↔ i = pc ∨ seen[i]? = some true := by
  obtain ⟨hlt, -⟩ := List.getElem?_eq_some_iff.mp h
  rw [List.getElem?_set]
  by_cases hi : pc = i
  · subst hi
    simp [hlt]
  · simp [hi, Ne.symm hi]

theorem spawn_keeps (hlen : seen.length = p.length) :
    (spawn p pending live seen).2.length = p.length ∧
    (∀ i ∈ live, i ∈ (spawn p pending live seen).1) ∧
    (∀ i : Nat, seen[i]? = some true ∨ (i ∈ pending ∧ i < p.length) →
      (spawn p pending live seen).2[i]? = some true) := by
  fun_induction spawn p pending live seen with
  | case1 live seen => simp [hlen]
  | case2 live seen pc pending h inst hpc ih =>
    obtain ⟨ih1, ih2, ih3⟩ := ih (by rw [length_set, hlen])
    refine ⟨ih1, ?_, ?_⟩
    · intro i hi
      apply ih2
      split <;> simp [hi]
    · intro i hi
      apply ih3
      rw [getElem?_set_true h]
      rcases hi with hi | ⟨hi, hlt⟩
      · exact Or.inl (Or.inr hi)
      · rcases mem_cons.mp hi with rfl | hi
        · exact Or.inl (Or.inl rfl)
        · exact Or.inr ⟨by simp [hi], hlt⟩
  | case3 live seen pc pending h hpc ih =>
    obtain ⟨ih1, ih2, ih3⟩ := ih (by rw [length_set, hlen])
    refine ⟨ih1, ih2, ?_⟩
    intro i hi
    apply ih3
    rw [getElem?_set_true h]
    rcases hi with hi | ⟨hi, hlt⟩
    · exact Or.inl (Or.inr hi)
    · rcases mem_cons.mp hi with rfl | hi
      · exact Or.inl (Or.inl rfl)
      · exact Or.inr ⟨hi, hlt⟩
  | case4 live seen pc pending h ih =>
    obtain ⟨ih1, ih2, ih3⟩ := ih hlen
    refine ⟨ih1, ih2, ?_⟩
    intro i hi
    apply ih3
    rcases hi with hi | ⟨hi, hlt⟩
    · exact Or.inl hi
    · rcases mem_cons.mp hi with rfl | hi
      · left
        rw [List.getElem?_eq_getElem (by omega)] at h ⊢
        simpa using h
      · exact Or.inr ⟨hi, hlt⟩

/-- What the search keeps: a marked instruction that stops is live, and the steps of a marked
instruction lead to marked or pending ones, or out of the program. -/
def Closed (p : List (Inst τ)) (pending live : List Nat) (seen : List Bool) : Prop :=
  ∀ (pc : Nat) inst, seen[pc]? = some true → p[pc]? = some inst →
    (inst.stops = true → pc ∈ live) ∧
    ∀ i ∈ inst.targets, seen[i]? = some true ∨ i ∈ pending ∨ p.length ≤ i

theorem Closed.visit {inst : Inst τ} (hc : Closed p (pc :: pending) live seen)
    (h : seen[pc]? = some false) (hpc : p[pc]? = some inst) :
    Closed p (inst.targets ++ pending) (if inst.stops then live ++ [pc] else live)
      (seen.set pc true) := by
  intro pc' inst' hm hpc'
  rw [getElem?_set_true h] at hm
  by_cases heq : pc' = pc
  · subst heq
    rw [hpc] at hpc'
    cases hpc'
    refine ⟨?_, ?_⟩
    · intro hs
      simp [hs]
    · intro i hi
      exact Or.inr (Or.inl (by simp [hi]))
  · obtain ⟨h1, h2⟩ := hc pc' inst' (hm.resolve_left heq) hpc'
    refine ⟨?_, ?_⟩
    · intro hs
      have := h1 hs
      split <;> simp [this]
    · intro i hi
      rw [getElem?_set_true h]
      rcases h2 i hi with h | h | h
      · exact Or.inl (Or.inr h)
      · rcases mem_cons.mp h with rfl | h
        · exact Or.inl (Or.inl rfl)
        · exact Or.inr (Or.inl (by simp [h]))
      · exact Or.inr (Or.inr h)

theorem Closed.skip (hc : Closed p (pc :: pending) live seen) (hlen : seen.length = p.length)
    (h : ¬seen[pc]? = some false) : Closed p pending live seen := by
  intro pc' inst' hm hpc'
  obtain ⟨h1, h2⟩ := hc pc' inst' hm hpc'
  refine ⟨h1, ?_⟩
  intro i hi
  rcases h2 i hi with hi' | hi' | hi'
  · exact Or.inl hi'
  · rcases mem_cons.mp hi' with rfl | hi'
    · rcases Nat.lt_or_ge i p.length with hlt | hge
      · left
        rw [List.getElem?_eq_getElem (by omega)] at h ⊢
        simpa using h
      · exact Or.inr (Or.inr hge)
    · exact Or.inr (Or.inl hi')
  · exact Or.inr (Or.inr hi')

theorem spawn_closed (hc : Closed p pending live seen) (hlen : seen.length = p.length) :
    Closed p [] (spawn p pending live seen).1 (spawn p pending live seen).2 := by
  fun_induction spawn p pending live seen with
  | case1 live seen => exact hc
  | case2 live seen pc pending h inst hpc ih =>
    exact ih (hc.visit h hpc) (by rw [length_set, hlen])
  | case3 live seen pc pending h hpc ih =>
    obtain ⟨hlt, -⟩ := List.getElem?_eq_some_iff.mp h
    rw [List.getElem?_eq_none_iff] at hpc
    omega
  | case4 live seen pc pending h ih => exact ih (hc.skip hlen h) hlen

variable {admits : τ → α → Bool} {w : List α}

theorem Runs.exists_live (hc : Closed p [] live seen)
    (hr : Runs admits p pc w) (hm : seen[pc]? = some true) : ∃ i ∈ live, Runs admits p i w := by
  induction hr with
  | consume hpc ha hr _ => exact ⟨_, (hc _ _ hm hpc).1 rfl, .consume hpc ha hr⟩
  | accept hpc => exact ⟨_, (hc _ _ hm hpc).1 rfl, .accept hpc⟩
  | first hpc hr ih =>
    rcases (hc _ _ hm hpc).2 _ (mem_cons_self ..) with h | h | h
    · exact ih h
    · cases h
    · exact absurd hr.lt (by omega)
  | second hpc hr ih =>
    rcases (hc _ _ hm hpc).2 _ (mem_cons_of_mem _ (mem_cons_self ..)) with h | h | h
    · exact ih h
    · cases h
    · exact absurd hr.lt (by omega)
  | jump hpc hr ih =>
    rcases (hc _ _ hm hpc).2 _ (mem_cons_self ..) with h | h | h
    · exact ih h
    · cases h
    · exact absurd hr.lt (by omega)

theorem Runs.back {inst : Inst τ} {i : Nat} (hpc : p[pc]? = some inst) (hi : i ∈ inst.targets)
    (hr : Runs admits p i w) : Runs admits p pc w := by
  cases inst with
  | consume t => cases hi
  | accept => cases hi
  | jump target =>
    rw [mem_singleton.mp hi] at hr
    exact .jump hpc hr
  | split first second =>
    rcases mem_cons.mp hi with rfl | hi
    · exact .first hpc hr
    · rw [mem_singleton.mp hi] at hr
      exact .second hpc hr

theorem mem_spawn {i : Nat} (hi : i ∈ (spawn p pending live seen).1) :
    i ∈ live ∨ ((∃ inst, p[i]? = some inst ∧ inst.stops = true) ∧
      ∀ w, Runs admits p i w → ∃ s ∈ pending, Runs admits p s w) := by
  fun_induction spawn p pending live seen with
  | case1 live seen => exact Or.inl hi
  | case2 live seen pc pending h inst hpc ih =>
    rcases ih hi with hlive | ⟨hstop, hback⟩
    · by_cases hs : inst.stops = true
      · rw [dif_pos hs] at hlive
        rcases mem_append.mp hlive with hlive | hlive
        · exact Or.inl hlive
        · rw [mem_singleton.mp hlive]
          exact Or.inr ⟨⟨inst, hpc, hs⟩, fun w hr => ⟨pc, by simp, hr⟩⟩
      · rw [dif_neg hs] at hlive
        exact Or.inl hlive
    · refine Or.inr ⟨hstop, ?_⟩
      intro w hr
      obtain ⟨s, hs, hr⟩ := hback w hr
      rcases mem_append.mp hs with hs | hs
      · exact ⟨pc, by simp, hr.back hpc hs⟩
      · exact ⟨s, by simp [hs], hr⟩
  | case3 live seen pc pending h hpc ih =>
    rcases ih hi with hlive | ⟨hstop, hback⟩
    · exact Or.inl hlive
    · refine Or.inr ⟨hstop, ?_⟩
      intro w hr
      obtain ⟨s, hs, hr⟩ := hback w hr
      exact ⟨s, by simp [hs], hr⟩
  | case4 live seen pc pending h ih =>
    rcases ih hi with hlive | ⟨hstop, hback⟩
    · exact Or.inl hlive
    · refine Or.inr ⟨hstop, ?_⟩
      intro w hr
      obtain ⟨s, hs, hr⟩ := hback w hr
      exact ⟨s, by simp [hs], hr⟩

end Spawn

section Machine

variable (admits : τ → α → Bool) (p : List (Inst τ))

/-- Where one live instruction goes on a symbol, added to those found so far. -/
def consumeOne (a : α) (state : List Nat × List Bool) (pc : Nat) : List Nat × List Bool :=
  match p[pc]? with
  | some (.consume t) => if admits t a then spawn p [pc + 1] state.1 state.2 else state
  | _ => state

def consume (live : List Nat) (a : α) : List Nat :=
  (live.foldl (consumeOne admits p a) ([], List.replicate p.length false)).1

def isAccept (pc : Nat) : Bool :=
  match p[pc]? with
  | some .accept => true
  | _ => false

def runLive (live : List Nat) : List α → Bool
  | [] => live.any (isAccept p)
  | a :: rest => if live.isEmpty then false else runLive (consume admits p live a) rest

def accepts (word : List α) : Bool :=
  runLive admits p (spawn p [0] [] (List.replicate p.length false)).1 word

variable {admits p} {live : List Nat} {a : α} {w : List α}

/-- Only instructions that stop are live. -/
def AllStop (p : List (Inst τ)) (live : List Nat) : Prop :=
  ∀ i ∈ live, ∃ inst, p[i]? = some inst ∧ inst.stops = true

/-- The state of one turn: the live instructions found so far and the marks. -/
structure Turn (admits : τ → α → Bool) (p : List (Inst τ)) (starts : List Nat)
    (state : List Nat × List Bool) : Prop where
  closed : Closed p [] state.1 state.2
  length : state.2.length = p.length
  stop : AllStop p state.1
  sound : ∀ i ∈ state.1, ∀ w, Runs admits p i w → ∃ s ∈ starts, Runs admits p s w
  marked : ∀ s ∈ starts, s < p.length → state.2[s]? = some true

theorem Turn.start : Turn admits p [] ([], List.replicate p.length false) where
  closed := by
    intro pc inst hm _
    rw [List.getElem?_replicate] at hm
    split at hm <;> cases hm
  length := length_replicate
  stop := nofun
  sound := nofun
  marked := nofun

section

variable {starts : List Nat} {state : List Nat × List Bool} (ht : Turn admits p starts state)
include ht

theorem Turn.spawn (s : Nat) : Turn admits p (starts ++ [s]) (spawn p [s] state.1 state.2) := by
  have hc : Closed p [s] state.1 state.2 := by
    intro pc inst hm hpc
    obtain ⟨h1, h2⟩ := ht.closed pc inst hm hpc
    refine ⟨h1, ?_⟩
    intro i hi
    rcases h2 i hi with h | h | h
    · exact Or.inl h
    · cases h
    · exact Or.inr (Or.inr h)
  obtain ⟨hlen, -, hmark⟩ : (ProofKit.spawn p [s] state.1 state.2).2.length = p.length ∧ _ ∧ _ :=
    spawn_keeps ht.length
  refine ⟨spawn_closed hc ht.length, hlen, ?_, ?_, ?_⟩
  · intro i hi
    rcases @mem_spawn _ _ _ _ _ _ admits _ hi with h | ⟨h, -⟩
    · exact ht.stop i h
    · exact h
  · intro i hi w hr
    rcases @mem_spawn _ _ _ _ _ _ admits _ hi with h | ⟨-, h⟩
    · obtain ⟨s', hs', hr⟩ := ht.sound i h w hr
      exact ⟨s', by simp [hs'], hr⟩
    · obtain ⟨s', hs', hr⟩ := h w hr
      exact ⟨s', by simp [mem_singleton.mp hs'], hr⟩
  · intro s' hs' hlt
    rcases mem_append.mp hs' with h | h
    · exact hmark s' (Or.inl (ht.marked s' h hlt))
    · exact hmark s' (Or.inr ⟨h, hlt⟩)

theorem Turn.runs_iff : (∃ i ∈ state.1, Runs admits p i w) ↔ ∃ s ∈ starts, Runs admits p s w := by
  constructor
  · rintro ⟨i, hi, hr⟩
    exact ht.sound i hi w hr
  · rintro ⟨s, hs, hr⟩
    exact hr.exists_live ht.closed (ht.marked s hs hr.lt)

theorem Turn.consumeOne {pc : Nat} (hpc : ∃ inst, p[pc]? = some inst ∧ inst.stops = true) (a : α) :
    ∃ next, Turn admits p (starts ++ next) (consumeOne admits p a state pc) ∧
      ∀ w, Runs admits p pc (a :: w) ↔ ∃ s ∈ next, Runs admits p s w := by
  obtain ⟨inst, hinst, hstop⟩ := hpc
  cases inst with
  | split i j => cases hstop
  | jump i => cases hstop
  | accept =>
    refine ⟨[], ?_, ?_⟩
    · rw [ProofKit.consumeOne, hinst, append_nil]
      exact ht
    · intro w
      simp [runs_accept hinst]
  | consume t =>
    by_cases ha : admits t a = true
    · refine ⟨[pc + 1], ?_, ?_⟩
      · rw [ProofKit.consumeOne, hinst]
        simp only [ha, if_true]
        exact ht.spawn (pc + 1)
      · intro w
        simp [runs_consume hinst, ha]
    · refine ⟨[], ?_, ?_⟩
      · rw [ProofKit.consumeOne, hinst, append_nil]
        simp only [ha, Bool.false_eq_true, if_false]
        exact ht
      · intro w
        simp [runs_consume hinst, ha]

theorem Turn.foldl (hlive : AllStop p live) (a : α) :
    ∃ next, Turn admits p (starts ++ next) (live.foldl (ProofKit.consumeOne admits p a) state) ∧
      ∀ w, (∃ pc ∈ live, Runs admits p pc (a :: w)) ↔ ∃ s ∈ next, Runs admits p s w := by
  induction live generalizing starts state with
  | nil => exact ⟨[], by simpa using ht, by simp⟩
  | cons pc rest ih =>
    obtain ⟨next, ht', hnext⟩ := ht.consumeOne (hlive pc (by simp)) a
    obtain ⟨more, ht'', hmore⟩ := ih ht' fun i hi => hlive i (by simp [hi])
    refine ⟨next ++ more, ?_, ?_⟩
    · rw [← append_assoc]
      exact ht''
    · intro w
      have hmem : (∃ s ∈ next ++ more, Runs admits p s w) ↔
          (∃ s ∈ next, Runs admits p s w) ∨ ∃ s ∈ more, Runs admits p s w := by
        simp only [mem_append, or_and_right, exists_or]
      rw [hmem, ← hnext, ← hmore]
      simp only [mem_cons, or_and_right, exists_or, exists_eq_left]

end

theorem consume_spec (hlive : AllStop p live) (a : α) : AllStop p (consume admits p live a) ∧
    ∀ w, (∃ i ∈ consume admits p live a, Runs admits p i w) ↔
      ∃ pc ∈ live, Runs admits p pc (a :: w) := by
  have hstart : Turn admits p [] ([], List.replicate p.length false) := Turn.start
  obtain ⟨next, ht, hnext⟩ := hstart.foldl hlive a
  refine ⟨ht.stop, ?_⟩
  intro w
  rw [hnext, consume, ht.runs_iff, nil_append]

/-- The machine accepts from its live instructions what the program accepts from one of them. -/
theorem runLive_iff (hlive : AllStop p live) :
    runLive admits p live w = true ↔ ∃ i ∈ live, Runs admits p i w := by
  induction w generalizing live with
  | nil =>
    rw [runLive, any_eq_true]
    constructor
    · rintro ⟨i, hi, ha⟩
      unfold isAccept at ha
      split at ha
      · rename_i hpc
        exact ⟨i, hi, .accept hpc⟩
      · cases ha
    · rintro ⟨i, hi, hr⟩
      refine ⟨i, hi, ?_⟩
      obtain ⟨inst, hinst, hstop⟩ := hlive i hi
      cases inst with
      | split _ _ => cases hstop
      | jump _ => cases hstop
      | accept => simp [isAccept, hinst]
      | consume t =>
        obtain ⟨_, _, h, -⟩ := (runs_consume hinst).mp hr
        cases h
  | cons a rest ih =>
    rw [runLive]
    by_cases hempty : live.isEmpty = true
    · rw [if_pos hempty]
      rw [List.isEmpty_iff] at hempty
      simp [hempty]
    · rw [if_neg hempty]
      obtain ⟨hstop, hruns⟩ : AllStop p (consume admits p live a) ∧ _ := consume_spec hlive a
      rw [ih hstop, hruns]

theorem accepts_iff : accepts admits p w = true ↔ Runs admits p 0 w := by
  have ht : Turn admits p [0] (ProofKit.spawn p [0] [] (List.replicate p.length false)) :=
    Turn.start.spawn 0
  rw [accepts, runLive_iff ht.stop, ht.runs_iff]
  simp

end Machine

end Dctl.ProofKit
