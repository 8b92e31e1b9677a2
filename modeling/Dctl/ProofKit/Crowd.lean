import Dctl.ProofKit.Prog
import Mathlib.Logic.Relation

/-! Callers of one shared object.  Each caller runs a program of its own, they take turns in any
order, and in between the object may change by itself.  What a caller relies on is a relation that
every step of the others keeps; a caller minds an invariant when each of its own steps keeps the
invariant and what the others rely on. -/

namespace Dctl.ProofKit

open List Function

variable {ι R α S : Type} {A : R → Type} [DecidableEq ι]

structure Crowd (ι R : Type) (A : R → Type) (α S : Type) where
  state : S
  todo : ι → Prog R A α

namespace Crowd

/-- One caller makes its next request, or the state drifts. -/
inductive Step (serve : ι → Prog.Server S R A) (drift : S → S → Prop) (c : Crowd ι R A α S) :
    Crowd ι R A α S → Prop
  | turn (i : ι) {r : R} {next : A r → Prog R A α} {x : A r} {s' : S} :
      c.todo i = .ask r next → serve i c.state r x s' →
      Step serve drift c ⟨s', update c.todo i (next x)⟩
  | drift {s' : S} : drift c.state s' → Step serve drift c ⟨s', c.todo⟩

/-- Some steps of the crowd. -/
def Steps (serve : ι → Prog.Server S R A) (drift : S → S → Prop) :
    Crowd ι R A α S → Crowd ι R A α S → Prop :=
  Relation.ReflTransGen (Step serve drift)

end Crowd

variable {serve : ι → Prog.Server S R A} {drift : S → S → Prop} {I : S → Prop}
  {rely : ι → S → S → Prop} {i : ι}

/-- Each step of the caller `i` keeps the invariant and what the others rely on, and its end is as
`post` says.  Between two of its steps the state changes as `i` can rely on. -/
def Prog.Minds {β : Type} (serve : ι → Prog.Server S R A) (I : S → Prop) (rely : ι → S → S → Prop)
    (i : ι) (post : β → S → Prop) : Prog R A β → S → Prop
  | .done b, s => post b s
  | .ask r next, s => ∀ s1, rely i s s1 → I s1 → ∀ x s', serve i s1 r x s' →
      I s' ∧ (∀ j, j ≠ i → rely j s1 s') ∧ (next x).Minds serve I rely i post s'

namespace Prog.Minds

variable {β γ ε : Type} {post : β → S → Prop} {post' : γ → S → Prop} {p : Prog R A β} {s s' : S}

omit [DecidableEq ι] in
theorem bind {f : β → Prog R A γ} (h : p.Minds serve I rely i post s)
    (hf : ∀ b s', post b s' → (f b).Minds serve I rely i post' s') :
    (p >>= f).Minds serve I rely i post' s := by
  induction p generalizing s with
  | done b => exact hf b s h
  | ask r next ih =>
    intro s1 hrely hI x s' hserve
    obtain ⟨hI', hothers, hnext⟩ := h s1 hrely hI x s' hserve
    exact ⟨hI', hothers, ih x hnext⟩

omit [DecidableEq ι] in
theorem fallible_bind {post : Except ε β → S → Prop} {post' : Except ε γ → S → Prop}
    {p : Prog.Fallible R A ε β} {f : β → Prog.Fallible R A ε γ}
    (h : p.run.Minds serve I rely i post s)
    (hok : ∀ b s', post (.ok b) s' → (f b).run.Minds serve I rely i post' s')
    (herror : ∀ e s', post (.error e) s' → post' (.error e) s') :
    (p >>= f).run.Minds serve I rely i post' s := by
  rw [ExceptT.run_bind]
  apply h.bind
  intro x s' hx
  cases x with
  | error e => exact herror e s' hx
  | ok b => exact hok b s' hx

omit [DecidableEq ι] in
theorem mono {post' : β → S → Prop} (h : p.Minds serve I rely i post s)
    (hpost : ∀ b s', post b s' → post' b s') : p.Minds serve I rely i post' s := by
  induction p generalizing s with
  | done b => exact hpost b s h
  | ask r next ih =>
    intro s1 hrely hI x s' hserve
    obtain ⟨hI', hothers, hnext⟩ := h s1 hrely hI x s' hserve
    exact ⟨hI', hothers, ih x hnext⟩

omit [DecidableEq ι] in
theorem after (htrans : ∀ s1 s2 s3, rely i s1 s2 → rely i s2 s3 → rely i s1 s3)
    (hpost : ∀ b s s', post b s → rely i s s' → post b s')
    (h : p.Minds serve I rely i post s) (hrely : rely i s s') :
    p.Minds serve I rely i post s' := by
  cases p with
  | done b => exact hpost b s s' h hrely
  | ask r next =>
    intro s1 hrely' hI x s2 hserve
    exact h s1 (htrans s s' s1 hrely hrely') hI x s2 hserve

omit [DecidableEq ι] in
theorem query_bind {post : Except ε β → S → Prop} {r : R} {f : A r → Prog.Fallible R A ε β}
    (h : ∀ s1, rely i s s1 → I s1 → ∀ x s', serve i s1 r x s' →
      I s' ∧ (∀ j, j ≠ i → rely j s1 s') ∧ (f x).run.Minds serve I rely i post s') :
    (Prog.query r >>= f).run.Minds serve I rely i post s := h

end Prog.Minds

namespace Crowd

variable {c c' : Crowd ι R A α S}

/-- Every caller minds the invariant, and the invariant holds. -/
structure Minded (serve : ι → Prog.Server S R A) (I : S → Prop) (rely : ι → S → S → Prop)
    (post : ι → α → S → Prop) (c : Crowd ι R A α S) : Prop where
  invariant : I c.state
  minds : ∀ i, (c.todo i).Minds serve I rely i (post i) c.state

variable {post : ι → α → S → Prop}

section

variable (h : c.Minded serve I rely post)
  (htrans : ∀ i s1 s2 s3, rely i s1 s2 → rely i s2 s3 → rely i s1 s3) (hrefl : ∀ i s, rely i s s)
  (hpost : ∀ i a s s', post i a s → rely i s s' → post i a s')
  (hdrift : ∀ s s', I s → drift s s' → I s' ∧ ∀ i, rely i s s')
include h htrans hrefl hpost hdrift

theorem Minded.step (hstep : Step serve drift c c') : c'.Minded serve I rely post := by
  cases hstep with
  | @turn i r next x s' htodo hserve =>
    have hi := h.minds i
    rw [htodo] at hi
    obtain ⟨hI, hothers, hnext⟩ := hi _ (hrefl i _) h.invariant x s' hserve
    refine ⟨hI, ?_⟩
    intro j
    by_cases hj : j = i
    · subst hj
      simp only [update_self]
      exact hnext
    · simp only [update_of_ne hj]
      exact (h.minds j).after (htrans j) (hpost j) (hothers j hj)
  | drift hd =>
    obtain ⟨hI, hrely⟩ := hdrift _ _ h.invariant hd
    exact ⟨hI, fun j => (h.minds j).after (htrans j) (hpost j) (hrely j)⟩

theorem Minded.steps (hsteps : Steps serve drift c c') : c'.Minded serve I rely post := by
  induction hsteps with
  | refl => exact h
  | tail _ hstep ih => exact ih.step htrans hrefl hpost hdrift hstep

end

theorem steps_whole {s' : S} {a : α} (hrun : Prog.Run (serve i) (c.todo i) c.state a s') :
    Steps serve drift c ⟨s', update c.todo i (.done a)⟩ := by
  obtain ⟨p, hp⟩ : ∃ p, p = c.todo i := ⟨_, rfl⟩
  obtain ⟨s, hs⟩ : ∃ s, s = c.state := ⟨_, rfl⟩
  rw [← hp, ← hs] at hrun
  induction hrun generalizing c with
  | done a s =>
    rw [hp, update_eq_self, hs]
    exact Relation.ReflTransGen.refl
  | @ask r next s s1 s2 x a hserve hnext ih =>
    rw [hs] at hserve
    refine Relation.ReflTransGen.head (Step.turn i hp.symm hserve) ?_
    have hrest := @ih ⟨s1, update c.todo i (next x)⟩ (by simp) rfl
    simp only [Function.update_idem] at hrest
    exact hrest

/-- The callers take turns in the order of the list, where each request has one answer.  A caller
that is through is passed over. -/
def play (answer : ι → S → (r : R) → A r × S) : List ι → Crowd ι R A α S → Crowd ι R A α S
  | [], c => c
  | i :: order, c =>
    match c.todo i with
    | .done _ => play answer order c
    | .ask r next =>
      play answer order
        ⟨(answer i c.state r).2, update c.todo i (next (answer i c.state r).1)⟩

/-- Each request of the turns passes the check. -/
def playable (answer : ι → S → (r : R) → A r × S) (check : ι → S → R → Bool) :
    List ι → Crowd ι R A α S → Bool
  | [], _ => true
  | i :: order, c =>
    match c.todo i with
    | .done _ => playable answer check order c
    | .ask r next =>
      check i c.state r && playable answer check order
        ⟨(answer i c.state r).2, update c.todo i (next (answer i c.state r).1)⟩

theorem steps_play {answer : ι → S → (r : R) → A r × S} {check : ι → S → R → Bool}
    (hcheck : ∀ i s r, check i s r = true → serve i s r (answer i s r).1 (answer i s r).2)
    {order : List ι} {c : Crowd ι R A α S} (h : playable answer check order c = true) :
    Steps serve drift c (play answer order c) := by
  induction order generalizing c with
  | nil => exact Relation.ReflTransGen.refl
  | cons i order ih =>
    cases htodo : c.todo i with
    | done a =>
      rw [playable, htodo] at h
      rw [play, htodo]
      exact ih h
    | ask r next =>
      rw [playable, htodo, Bool.and_eq_true] at h
      rw [play, htodo]
      exact Relation.ReflTransGen.head (Step.turn i htodo (hcheck i c.state r h.1)) (ih h.2)

/-- The callers of a list, one after the other, each after the state has drifted. -/
inductive InTurn (serve : ι → Prog.Server S R A) (drift : S → S → Prop) (todo : ι → Prog R A α) :
    List ι → S → S → Prop
  | nil (s : S) : InTurn serve drift todo [] s s
  | cons {i : ι} {rest : List ι} {s s1 s2 s3 : S} {a : α} :
      Relation.ReflTransGen drift s s1 → Prog.Run (serve i) (todo i) s1 a s2 →
      InTurn serve drift todo rest s2 s3 → InTurn serve drift todo (i :: rest) s s3

theorem InTurn.steps {todo todo' : ι → Prog R A α} {order : List ι} {s s' : S}
    (h : InTurn serve drift todo order s s') (hnodup : order.Nodup)
    (htodo : ∀ i ∈ order, todo' i = todo i) :
    ∃ left, Steps serve drift ⟨s, todo'⟩ ⟨s', left⟩ := by
  induction h generalizing todo' with
  | nil s => exact ⟨todo', Relation.ReflTransGen.refl⟩
  | @cons i rest s s1 s2 s3 a hdrift hrun _ ih =>
    have hfirst : Steps serve drift ⟨s, todo'⟩ ⟨s1, todo'⟩ :=
      hdrift.lift (fun s => (⟨s, todo'⟩ : Crowd ι R A α S)) fun _ _ hd => Step.drift hd
    rw [← htodo i mem_cons_self] at hrun
    obtain ⟨left, hsteps⟩ := @ih (update todo' i (.done a)) hnodup.of_cons (by
      intro j hj
      rw [update_of_ne (ne_of_mem_of_not_mem hj (nodup_cons.mp hnodup).1)]
      exact htodo j (mem_cons_of_mem i hj))
    exact ⟨left, hfirst.trans ((steps_whole hrun).trans hsteps)⟩

end Crowd

section Logs

variable {E : Type} {who : E → ι} {log log' log'' before after : List E} {e f : E}

omit [DecidableEq ι] in
theorem split_append_singleton (h : log ++ [e] = before ++ f :: after) :
    (log = before ∧ e = f) ∨ ∃ rest, log = before ++ f :: rest := by
  rcases eq_nil_or_concat after with rfl | ⟨rest, last, rfl⟩
  · obtain ⟨hlog, he⟩ := append_inj' h rfl
    exact Or.inl ⟨hlog, (List.cons.inj he).1⟩
  · right
    refine ⟨rest, ?_⟩
    rw [concat_eq_append, ← cons_append, ← append_assoc] at h
    exact (append_inj' h rfl).1

def AddedByOthers (who : E → ι) (i : ι) (log log' : List E) : Prop :=
  ∃ new, log' = log ++ new ∧ ∀ e ∈ new, who e ≠ i

namespace AddedByOthers

omit [DecidableEq ι] in
theorem refl (who : E → ι) (i : ι) (log : List E) : AddedByOthers who i log log :=
  ⟨[], by simp, by simp⟩

omit [DecidableEq ι] in
theorem single (he : who e ≠ i) : AddedByOthers who i log (log ++ [e]) :=
  ⟨[e], rfl, by simpa using he⟩

omit [DecidableEq ι] in
theorem trans (h : AddedByOthers who i log log') (h' : AddedByOthers who i log' log'') :
    AddedByOthers who i log log'' := by
  obtain ⟨new, rfl, hnew⟩ := h
  obtain ⟨new', rfl, hnew'⟩ := h'
  refine ⟨new ++ new', append_assoc .., ?_⟩
  intro e he
  rcases mem_append.mp he with he | he
  · exact hnew e he
  · exact hnew' e he

omit [DecidableEq ι] in
theorem mem (h : AddedByOthers who i log log') (he : e ∈ log) : e ∈ log' := by
  obtain ⟨new, rfl, -⟩ := h
  exact mem_append_left _ he

omit [DecidableEq ι] in
theorem mem_of_mem (h : AddedByOthers who i log log') (he : e ∈ log') (hwho : who e = i) :
    e ∈ log := by
  obtain ⟨new, rfl, hnew⟩ := h
  rcases mem_append.mp he with he | he
  · exact he
  · exact absurd hwho (hnew e he)

end AddedByOthers

end Logs

end Dctl.ProofKit
