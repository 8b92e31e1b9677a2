import Dctl.ProofKit.Checks

/-! Programs that talk to a server.  A program is the tree of the requests it makes, each followed
by what it does with the answer; a server is a relation that says which answers it may give in a
state and which state it is in afterwards.  The same program can then be run alone, against a server
that fails or lies, or beside other programs that take turns with it; its transcript is the requests
that it makes, each with the answer that it gets. -/

namespace Dctl.ProofKit

/-- A program that makes requests `r : R`, each answered by an `A r`, and ends with an `α`. -/
inductive Prog (R : Type) (A : R → Type) (α : Type) : Type where
  | done (a : α)
  | ask (r : R) (next : A r → Prog R A α)

namespace Prog

variable {R : Type} {A : R → Type} {S ε α β γ : Type}

def bind : Prog R A α → (α → Prog R A β) → Prog R A β
  | done a, f => f a
  | ask r next, f => ask r fun x => (next x).bind f

instance : Monad (Prog R A) where
  pure := done
  bind := bind

def call (r : R) : Prog R A (A r) := ask r done

@[simp] theorem done_bind (a : α) (f : α → Prog R A β) : (done a >>= f) = f a := rfl

@[simp] theorem pure_eq_done (a : α) : (pure a : Prog R A α) = done a := rfl

@[simp] theorem ask_bind (r : R) (next : A r → Prog R A α) (f : α → Prog R A β) :
    (ask r next >>= f) = ask r fun x => next x >>= f := rfl

theorem bind_done (p : Prog R A α) : (p >>= done) = p := by
  induction p with
  | done a => rfl
  | ask r next ih => rw [ask_bind, funext ih]

theorem bind_assoc (p : Prog R A α) (f : α → Prog R A β) (g : β → Prog R A γ) :
    (p >>= f >>= g) = p >>= fun a => f a >>= g := by
  induction p with
  | done a => rfl
  | ask r next ih => rw [ask_bind, ask_bind, ask_bind, funext ih]

instance : LawfulMonad (Prog R A) := LawfulMonad.mk' _ bind_done (fun _ _ => rfl) bind_assoc

/-- A program that ends with a value or an error. -/
abbrev Fallible (R : Type) (A : R → Type) (ε α : Type) := ExceptT ε (Prog R A) α

/-- One request of a program that may fail.  The answer is handed on as it is. -/
def query (r : R) : Fallible R A ε (A r) := ExceptT.lift (call r)

def ofExcept (x : Except ε α) : Fallible R A ε α := ExceptT.mk (done x)

/-- How a server answers: `serve s r x s'` says that in the state `s` it may answer `r` with `x` and
go to `s'`. -/
abbrev Server (S R : Type) (A : R → Type) := S → (r : R) → A r → S → Prop

def Server.ofFun (answer : S → (r : R) → A r × S) : Server S R A :=
  fun s r x s' => answer s r = (x, s')

/-- A program that runs from the state `s` may end with `a` in the state `s'`. -/
inductive Run (serve : Server S R A) : Prog R A α → S → α → S → Prop
  | done (a : α) (s : S) : Run serve (done a) s a s
  | ask {r : R} {next : A r → Prog R A α} {s s' s'' : S} {x : A r} {a : α} :
      serve s r x s' → Run serve (next x) s' a s'' → Run serve (ask r next) s a s''

variable {serve : Server S R A}

variable {s s' : S} {a : α}

@[simp] theorem run_done {b : α} : Run serve (done a) s b s' ↔ a = b ∧ s = s' := by
  constructor
  · intro h
    cases h
    exact ⟨rfl, rfl⟩
  · intro h
    obtain ⟨rfl, rfl⟩ := h
    exact Run.done a s

@[simp] theorem run_ask {r : R} {next : A r → Prog R A α} :
    Run serve (ask r next) s a s' ↔ ∃ x s1, serve s r x s1 ∧ Run serve (next x) s1 a s' := by
  constructor
  · intro h
    cases h with
    | ask hserve hrun => exact ⟨_, _, hserve, hrun⟩
  · intro h
    obtain ⟨x, s1, hserve, hrun⟩ := h
    exact Run.ask hserve hrun

variable {p : Prog R A α} {f : α → Prog R A β}

theorem run_bind {b : β} :
    Run serve (p >>= f) s b s' ↔ ∃ a s1, Run serve p s a s1 ∧ Run serve (f a) s1 b s' := by
  induction p generalizing s with
  | done a => simp
  | ask r next ih =>
    simp only [ask_bind, run_ask, ih]
    constructor
    · intro h
      obtain ⟨x, s1, hserve, a, s2, hnext, hf⟩ := h
      exact ⟨a, s2, ⟨x, s1, hserve, hnext⟩, hf⟩
    · intro h
      obtain ⟨a, s2, ⟨x, s1, hserve, hnext⟩, hf⟩ := h
      exact ⟨x, s1, hserve, a, s2, hnext, hf⟩

theorem Run.invariant {I : S → Prop} (hstep : ∀ s r x s', I s → serve s r x s' → I s')
    (h : Run serve p s a s') (hs : I s) : I s' := by
  induction h with
  | done => exact hs
  | ask hserve _ ih => exact ih (hstep _ _ _ _ hs hserve)

theorem Run.mono {serve' : Server S R A} (hsub : ∀ s r x s', serve s r x s' → serve' s r x s')
    (h : Run serve p s a s') : Run serve' p s a s' := by
  induction h with
  | done a s => exact Run.done a s
  | ask hserve _ ih => exact Run.ask (hsub _ _ _ _ hserve) ih

/-- What a program does with a server that has exactly one answer to every request. -/
def eval (answer : S → (r : R) → A r × S) : Prog R A α → S → α × S
  | done a, s => (a, s)
  | ask r next, s => (next (answer s r).1).eval answer (answer s r).2

variable {answer : S → (r : R) → A r × S}

@[simp] theorem eval_bind :
    (p >>= f).eval answer s = (f (p.eval answer s).1).eval answer (p.eval answer s).2 := by
  induction p generalizing s with
  | done a => rfl
  | ask r next ih =>
    rw [ask_bind, eval, eval]
    exact ih _

theorem run_ofFun : Run (Server.ofFun answer) p s a s' ↔ p.eval answer s = (a, s') := by
  induction p generalizing s with
  | done b => rw [run_done, eval, Prod.mk.injEq]
  | ask r next ih =>
    rw [run_ask, eval, ← ih]
    constructor
    · intro h
      obtain ⟨x, s1, hserve, hnext⟩ := h
      rw [Server.ofFun] at hserve
      rw [hserve]
      exact hnext
    · intro h
      exact ⟨_, _, rfl, h⟩

theorem run_eval (h : ∀ s r, serve s r (answer s r).1 (answer s r).2) (p : Prog R A α) (s : S) :
    Run serve p s (p.eval answer s).1 (p.eval answer s).2 := by
  have hrun : Run (Server.ofFun answer) p s _ _ := run_ofFun.mpr rfl
  apply hrun.mono
  intro s r x s' hx
  have hserve := h s r
  rw [Server.ofFun] at hx
  rwa [hx] at hserve

/-- What a program ends with when every request has one answer. -/
def answered (answer : (r : R) → A r) : Prog R A α → α
  | done a => a
  | ask r next => (next (answer r)).answered answer

@[simp] theorem answered_bind {answer : (r : R) → A r} :
    (p >>= f).answered answer = (f (p.answered answer)).answered answer := by
  induction p with
  | done a => rfl
  | ask r next ih =>
    rw [ask_bind, answered, answered]
    exact ih (answer r)

theorem eval_eq_answered {step : S → (r : R) → A r × S} {answer : (r : R) → A r} {I : S → Prop}
    (hanswer : ∀ s r, I s → (step s r).1 = answer r) (hkeep : ∀ s r, I s → I (step s r).2)
    (p : Prog R A α) (h : I s) : (p.eval step s).1 = p.answered answer ∧ I (p.eval step s).2 := by
  induction p generalizing s with
  | done a => exact ⟨rfl, h⟩
  | ask r next ih =>
    rw [eval, answered, hanswer s r h]
    exact ih (answer r) (hkeep s r h)

/-- The answers of a server that meet a condition on the state before them. -/
def Server.given (serve : Server S R A) (cond : S → (r : R) → A r → Prop) : Server S R A :=
  fun s r x s' => cond s r x ∧ serve s r x s'

def evalGiven (answer : S → (r : R) → A r × S) (check : S → (r : R) → A r → Bool) :
    Prog R A α → S → Option (α × S)
  | done a, s => some (a, s)
  | ask r next, s =>
    if check s r (answer s r).1 then (next (answer s r).1).evalGiven answer check (answer s r).2
    else none

theorem run_of_evalGiven {cond : S → (r : R) → A r → Prop} (answer : S → (r : R) → A r × S)
    {check : S → (r : R) → A r → Bool} (hcheck : ∀ s r x, check s r x = true → cond s r x)
    (hserve : ∀ s r, serve s r (answer s r).1 (answer s r).2)
    (h : p.evalGiven answer check s = some (a, s')) : Run (serve.given cond) p s a s' := by
  induction p generalizing s with
  | done b =>
    cases h
    exact Run.done _ _
  | ask r next ih =>
    rw [evalGiven] at h
    split at h
    · exact Run.ask ⟨hcheck _ _ _ (by assumption), hserve s r⟩ (ih _ h)
    · cases h

section Fallible

variable {p : Fallible R A ε α} {f : α → Fallible R A ε β} {s s' : S}

variable {b : Except ε β}

theorem run_fallible_bind :
    Run serve (p >>= f).run s b s' ↔
      (∃ e, Run serve p.run s (.error e) s' ∧ b = .error e) ∨
        ∃ a s1, Run serve p.run s (.ok a) s1 ∧ Run serve (f a).run s1 b s' := by
  rw [ExceptT.run_bind, run_bind]
  constructor
  · intro h
    obtain ⟨x, s1, hp, hf⟩ := h
    cases x with
    | error e =>
      obtain ⟨rfl, rfl⟩ := run_done.mp hf
      exact Or.inl ⟨e, hp, rfl⟩
    | ok a => exact Or.inr ⟨a, s1, hp, hf⟩
  · intro h
    rcases h with ⟨e, hp, rfl⟩ | ⟨a, s1, hp, hf⟩
    · exact ⟨_, _, hp, Run.done _ _⟩
    · exact ⟨_, _, hp, hf⟩

variable {r : R} {answer : S → (r : R) → A r × S} {a : α}

theorem eval_fallible_bind (h : p.run.eval answer s = (.ok a, s')) :
    (p >>= f).run.eval answer s = (f a).run.eval answer s' := by
  rw [ExceptT.run_bind, eval_bind, h]

variable {e : ε}

theorem eval_fallible_bind_error (h : p.run.eval answer s = (.error e, s')) :
    (p >>= f).run.eval answer s = (.error e, s') := by
  rw [ExceptT.run_bind, eval_bind, h]
  rfl

theorem eval_query_bind {f : A r → Fallible R A ε β} :
    (query r >>= f).run.eval answer s = (f (answer s r).1).run.eval answer (answer s r).2 := rfl

theorem eval_ofExcept_ok_bind :
    (ofExcept (.ok a) >>= f).run.eval answer s = (f a).run.eval answer s := rfl

theorem run_bind_ok {b : β} :
    Run serve (p >>= f).run s (.ok b) s' ↔
      ∃ a s1, Run serve p.run s (.ok a) s1 ∧ Run serve (f a).run s1 (.ok b) s' := by
  rw [run_fallible_bind]
  constructor
  · intro h
    rcases h with ⟨e, _, hb⟩ | h
    · cases hb
    · exact h
  · intro h
    exact Or.inr h

theorem run_bind_error (hf : ∀ a s1 e s2, ¬Run serve (f a).run s1 (.error e) s2) :
    Run serve (p >>= f).run s (.error e) s' ↔ Run serve p.run s (.error e) s' := by
  rw [run_fallible_bind]
  constructor
  · intro h
    rcases h with ⟨e', hp, he⟩ | ⟨a, s1, -, hrun⟩
    · cases he
      exact hp
    · exact absurd hrun (hf a s1 e s')
  · intro h
    exact Or.inl ⟨e, h, rfl⟩

variable {x : Except ε α}

@[simp] theorem run_pure :
    Run serve (pure a : Fallible R A ε α).run s x s' ↔ x = .ok a ∧ s = s' := by
  rw [ExceptT.run_pure, pure_eq_done, run_done, eq_comm]

theorem run_map {b : β} {x : Except ε β}
    (h : Run serve (p >>= fun _ => (pure b : Fallible R A ε β)).run s x s') :
    ∃ y, Run serve p.run s y s' ∧ x = y.map fun _ => b := by
  rcases run_fallible_bind.mp h with ⟨e, hp, hx⟩ | ⟨a, s1, hp, hpure⟩
  · exact ⟨.error e, hp, hx⟩
  · obtain ⟨hx, rfl⟩ := run_pure.mp hpure
    exact ⟨.ok a, hp, hx⟩

@[simp] theorem run_throw :
    Run serve (throw e : Fallible R A ε α).run s x s' ↔ x = .error e ∧ s = s' := by
  rw [ExceptT.run_throw, pure_eq_done, run_done, eq_comm]

@[simp] theorem run_ofExcept {y : Except ε α} :
    Run serve (ofExcept y : Fallible R A ε α).run s x s' ↔ y = x ∧ s = s' := by
  rw [ofExcept, ExceptT.run_mk, run_done]

@[simp] theorem run_query_bind {f : A r → Fallible R A ε β} :
    Run serve (query r >>= f).run s b s' ↔
      ∃ x s1, serve s r x s1 ∧ Run serve (f x).run s1 b s' := by
  rw [ExceptT.run_bind]
  exact run_ask

theorem run_ofExcept_bind {y : Except ε α} :
    Run serve (ofExcept y >>= f).run s b s' ↔
      (∃ e, y = .error e ∧ b = .error e ∧ s = s') ∨ ∃ a, y = .ok a ∧
        Run serve (f a).run s b s' := by
  rw [run_fallible_bind]
  constructor
  · intro h
    rcases h with ⟨e, hy, hb⟩ | ⟨a, s1, hy, hf⟩
    · obtain ⟨rfl, rfl⟩ := run_ofExcept.mp hy
      exact Or.inl ⟨e, rfl, hb, rfl⟩
    · obtain ⟨rfl, rfl⟩ := run_ofExcept.mp hy
      exact Or.inr ⟨a, rfl, hf⟩
  · intro h
    rcases h with ⟨e, rfl, hb, rfl⟩ | ⟨a, rfl, hf⟩
    · exact Or.inl ⟨e, run_ofExcept.mpr ⟨rfl, rfl⟩, hb⟩
    · exact Or.inr ⟨a, s, run_ofExcept.mpr ⟨rfl, rfl⟩, hf⟩

@[simp] theorem run_ofExcept_ok_bind :
    Run serve (ofExcept (.ok a) >>= f).run s b s' ↔ Run serve (f a).run s b s' := by
  rw [ExceptT.run_bind]
  exact Iff.rfl

theorem run_request_bind {check : A r → Except ε α} :
    Run serve ((query r >>= fun x => ofExcept (check x)) >>= f).run s b s' ↔
      ∃ x s1, serve s r x s1 ∧ ((∃ e, check x = .error e ∧ b = .error e ∧ s1 = s') ∨
        ∃ a, check x = .ok a ∧ Run serve (f a).run s1 b s') := by
  rw [LawfulMonad.bind_assoc, run_query_bind]
  simp only [run_ofExcept_bind]

theorem run_request_of {check : A r → Except ε α} {answer : A r} {s1 : S}
    (hserve : ∀ x s2, serve s r x s2 ↔ x = answer ∧ s2 = s1) (hcheck : check answer = .ok a) :
    Run serve ((query r >>= fun x => ofExcept (check x)) >>= f).run s b s' ↔
      Run serve (f a).run s1 b s' := by
  rw [run_request_bind]
  constructor
  · intro h
    obtain ⟨x, s2, hx, h⟩ := h
    obtain ⟨rfl, rfl⟩ := (hserve x s2).mp hx
    rcases h with ⟨e, he, -⟩ | ⟨y, hy, h⟩
    · rw [hcheck] at he
      cases he
    · rw [hcheck] at hy
      cases hy
      exact h
  · intro h
    exact ⟨answer, s1, (hserve answer s1).mpr ⟨rfl, rfl⟩, Or.inr ⟨a, hcheck, h⟩⟩

end Fallible

def Server.logged (serve : Server S R A) : Server (S × List R) R A := fun s r x s' =>
  serve s.1 r x s'.1 ∧ s'.2 = s.2 ++ [r]

theorem run_logged_query_of {r : R} {answer : A r} {f : A r → Fallible R A ε β} {s1 : S}
    {log : List R} {b : Except ε β} {t : S × List R}
    (hserve : ∀ x s2, serve s r x s2 ↔ x = answer ∧ s2 = s1) :
    Run serve.logged (query r >>= f).run (s, log) b t ↔
      Run serve.logged (f answer).run (s1, log ++ [r]) b t := by
  rw [run_query_bind]
  constructor
  · intro h
    obtain ⟨x, ⟨s2, log'⟩, ⟨hx, rfl⟩, hf⟩ := h
    obtain ⟨rfl, rfl⟩ := (hserve x s2).mp hx
    exact hf
  · intro h
    exact ⟨answer, (s1, log ++ [r]), ⟨(hserve answer s1).mpr ⟨rfl, rfl⟩, rfl⟩, h⟩

/-- A program that runs from the state `s` may be interrupted when the server is in the state
`s'`. -/
inductive Cut (serve : Server S R A) : Prog R A α → S → S → Prop
  | here (p : Prog R A α) (s : S) : Cut serve p s s
  | ask {r : R} {next : A r → Prog R A α} {s s' s'' : S} {x : A r} :
      serve s r x s' → Cut serve (next x) s' s'' → Cut serve (ask r next) s s''

/-- Whatever the server answers, its states meet `I` for as long as the program runs, and the
program ends as `post` says. -/
def Always (serve : Server S R A) (I : S → Prop) (post : α → S → Prop) : Prog R A α → S → Prop
  | done a, s => I s ∧ post a s
  | ask r next, s => I s ∧ ∀ x s', serve s r x s' → (next x).Always serve I post s'

section Always

variable {I J : S → Prop} {post post' : α → S → Prop}

variable {p : Prog R A α} {s : S}

theorem Always.here (h : p.Always serve I post s) : I s := by
  cases p <;> exact h.1

theorem Always.run {p : Prog R A α} {s s' : S} {a : α} (h : p.Always serve I post s)
    (hrun : Run serve p s a s') : I s' ∧ post a s' := by
  induction hrun with
  | done => exact h
  | ask hserve _ ih => exact ih (h.2 _ _ hserve)

theorem Always.cut {s' : S} (h : p.Always serve I post s) (hcut : Cut serve p s s') : I s' := by
  induction hcut with
  | here => exact h.here
  | ask hserve _ ih => exact ih (h.2 _ _ hserve)

theorem Always.mono (h : p.Always serve I post s) (hI : ∀ s, I s → J s)
    (hpost : ∀ a s, I s → post a s → post' a s) : p.Always serve J post' s := by
  induction p generalizing s with
  | done a => exact ⟨hI s h.1, hpost a s h.1 h.2⟩
  | ask r next ih => exact ⟨hI s h.1, fun x s' hserve => ih x (h.2 x s' hserve)⟩

theorem Always.bind {p : Prog R A α} {f : α → Prog R A β} {post : β → S → Prop} {s : S}
    (h : p.Always serve I (fun a s' => (f a).Always serve I post s') s) :
    (p >>= f).Always serve I post s := by
  induction p generalizing s with
  | done a => exact h.2
  | ask r next ih => exact ⟨h.1, fun x s' hserve => ih x (h.2 x s' hserve)⟩

theorem Always.fallible_bind {p : Fallible R A ε α} {f : α → Fallible R A ε β}
    {post : Except ε β → S → Prop} {s : S}
    (h : p.run.Always serve I (fun x s' => match x with
      | .error e => post (.error e) s'
      | .ok a => (f a).run.Always serve I post s') s) :
    (p >>= f).run.Always serve I post s := by
  rw [ExceptT.run_bind]
  apply Always.bind
  apply h.mono fun _ hI => hI
  intro x s' hI hx
  cases x with
  | error e => exact ⟨hI, hx⟩
  | ok a => exact hx

theorem always_request {r : R} {check : A r → Except ε α} {post : Except ε α → S → Prop} (hI : I s)
    (h : ∀ x s', serve s r x s' → I s' ∧ post (check x) s') :
    (query r >>= fun x => ofExcept (check x)).run.Always serve I post s :=
  ⟨hI, h⟩

end Always

/-- Every request that the program can come to make is allowed. -/
def Asks (allowed : R → Prop) : Prog R A α → Prop
  | done _ => True
  | ask r next => allowed r ∧ ∀ x, (next x).Asks allowed

section Asks

variable {allowed : R → Prop}

theorem Asks.bind {p : Prog R A α} {f : α → Prog R A β} (hp : p.Asks allowed)
    (hf : ∀ a, (f a).Asks allowed) : (p >>= f).Asks allowed := by
  induction p with
  | done a => exact hf a
  | ask r next ih => exact ⟨hp.1, fun x => ih x (hp.2 x)⟩

variable {p : Prog R A α}

theorem Asks.mono {allowed' : R → Prop} (hsub : ∀ r, allowed r → allowed' r) (hp : p.Asks allowed) :
    p.Asks allowed' := by
  induction p with
  | done a => trivial
  | ask r next ih => exact ⟨hsub r hp.1, fun x => ih x (hp.2 x)⟩

theorem Run.invariant_of_asks {I : S → Prop}
    (hstep : ∀ s r x s', allowed r → I s → serve s r x s' → I s') {s s' : S} {a : α}
    (hp : p.Asks allowed) (h : Run serve p s a s') (hs : I s) : I s' := by
  induction h with
  | done => exact hs
  | ask hserve _ ih => exact ih (hp.2 _) (hstep _ _ _ _ hp.1 hs hserve)

theorem Asks.always {I : S → Prop} (hstep : ∀ s r x s', allowed r → I s → serve s r x s' → I s')
    {s : S} (hp : p.Asks allowed) (hs : I s) : p.Always serve I (fun _ => I) s := by
  induction p generalizing s with
  | done a => exact ⟨hs, hs⟩
  | ask r next ih => exact ⟨hs, fun x s' h => ih x (hp.2 x) (hstep s r x s' hp.1 hs h)⟩

theorem Asks.eval_eq {step : S → (r : R) → A r × S} {answer : (r : R) → A r}
    (hstep : ∀ s r, allowed r → step s r = (answer r, s)) (hp : p.Asks allowed) (s : S) :
    p.eval step s = (p.answered answer, s) := by
  induction p with
  | done a => rfl
  | ask r next ih =>
    rw [eval, answered, hstep s r hp.1]
    exact ih (answer r) (hp.2 (answer r))

theorem Asks.answered_congr {answer answer' : (r : R) → A r} (hp : p.Asks allowed)
    (h : ∀ r, allowed r → answer r = answer' r) : p.answered answer = p.answered answer' := by
  induction p with
  | done a => rfl
  | ask r next ih =>
    rw [answered, answered, h r hp.1]
    exact ih (answer' r) (hp.2 (answer' r))

theorem asks_bind {p : Fallible R A ε α} {f : α → Fallible R A ε β} (hp : p.run.Asks allowed)
    (hf : ∀ a, (f a).run.Asks allowed) : (p >>= f).run.Asks allowed := by
  rw [ExceptT.run_bind]
  apply hp.bind
  intro x
  cases x with
  | error e => trivial
  | ok a => exact hf a

@[simp] theorem asks_pure (a : α) : (pure a : Fallible R A ε α).run.Asks allowed := trivial

@[simp] theorem asks_throw (e : ε) : (throw e : Fallible R A ε α).run.Asks allowed := trivial

@[simp] theorem asks_ofExcept (x : Except ε α) :
    (ofExcept x : Fallible R A ε α).run.Asks allowed := trivial

theorem asks_query {r : R} (h : allowed r) : (query r : Fallible R A ε (A r)).run.Asks allowed :=
  ⟨h, fun _ => trivial⟩

end Asks

end Prog

end Dctl.ProofKit

namespace Dctl.ProofKit.Prog

variable {R : Type} {A : R → Type} {ε α β : Type}

abbrev Exchange (A : R → Type) : Type := (r : R) × A r

/-- A program makes the requests of a transcript, gets its answers, and ends with `a`. -/
inductive Plays : Prog R A α → List (Exchange A) → α → Prop
  | done (a : α) : Plays (done a) [] a
  | ask {r : R} {next : A r → Prog R A α} {x : A r} {l : List (Exchange A)} {a : α} :
      Plays (next x) l a → Plays (ask r next) (⟨r, x⟩ :: l) a

variable {l : List (Exchange A)}

variable {a : α}

@[simp] theorem plays_done {b : α} : Plays (done a : Prog R A α) l b ↔ l = [] ∧ a = b := by
  constructor
  · intro h
    cases h
    exact ⟨rfl, rfl⟩
  · rintro ⟨rfl, rfl⟩
    exact Plays.done a

variable {r : R}

@[simp] theorem plays_ask {next : A r → Prog R A α} :
    Plays (ask r next) l a ↔ ∃ x l', l = ⟨r, x⟩ :: l' ∧ Plays (next x) l' a := by
  constructor
  · intro h
    cases h with
    | ask h => exact ⟨_, _, rfl, h⟩
  · rintro ⟨x, l', rfl, h⟩
    exact Plays.ask h

variable {b : β}

theorem plays_call_bind {f : A r → Prog R A β} :
    Plays (call r >>= f) l b ↔ ∃ x l', l = ⟨r, x⟩ :: l' ∧ Plays (f x) l' b := plays_ask

variable {p : Prog R A α}

theorem plays_bind {f : α → Prog R A β} :
    Plays (p >>= f) l b ↔ ∃ a l₁ l₂, l = l₁ ++ l₂ ∧ Plays p l₁ a ∧ Plays (f a) l₂ b := by
  induction p generalizing l with
  | done a => simp
  | ask r next ih =>
    simp only [ask_bind, plays_ask, ih]
    constructor
    · rintro ⟨x, l', rfl, a, l₁, l₂, rfl, hnext, hf⟩
      exact ⟨a, ⟨r, x⟩ :: l₁, l₂, rfl, ⟨x, l₁, rfl, hnext⟩, hf⟩
    · rintro ⟨a, l₁, l₂, rfl, ⟨x, l', rfl, hnext⟩, hf⟩
      exact ⟨x, l' ++ l₂, rfl, a, l', l₂, rfl, hnext, hf⟩

theorem plays_bind_ok {p : Fallible R A ε α} {f : α → Fallible R A ε β} :
    Plays (p >>= f).run l (.ok b) ↔
      ∃ a l₁ l₂, l = l₁ ++ l₂ ∧ Plays p.run l₁ (.ok a) ∧ Plays (f a).run l₂ (.ok b) := by
  rw [ExceptT.run_bind, plays_bind]
  constructor
  · rintro ⟨x, l₁, l₂, rfl, hp, hf⟩
    cases x with
    | error e =>
      obtain ⟨-, h⟩ := plays_done.mp hf
      cases h
    | ok a => exact ⟨a, l₁, l₂, rfl, hp, hf⟩
  · rintro ⟨a, l₁, l₂, rfl, hp, hf⟩
    exact ⟨_, l₁, l₂, rfl, hp, hf⟩

variable {x : Except ε α}

@[simp] theorem plays_pure : Plays (pure a : Fallible R A ε α).run l x ↔ l = [] ∧ x = .ok a := by
  rw [ExceptT.run_pure, pure_eq_done, plays_done, eq_comm (a := x)]

theorem plays_map_ok {p : Fallible R A ε α} {f : α → β} :
    Plays (p >>= fun a => pure (f a) : Fallible R A ε β).run l (.ok b) ↔
      ∃ a, Plays p.run l (.ok a) ∧ f a = b := by
  rw [plays_bind_ok]
  constructor
  · rintro ⟨a, l₁, l₂, rfl, hp, hpure⟩
    obtain ⟨rfl, hb⟩ := plays_pure.mp hpure
    cases hb
    rw [List.append_nil]
    exact ⟨a, hp, rfl⟩
  · rintro ⟨a, hp, rfl⟩
    exact ⟨a, l, [], (List.append_nil l).symm, hp, plays_pure.mpr ⟨rfl, rfl⟩⟩

theorem plays_fallible_bind {p : Fallible R A ε α} {f : α → Fallible R A ε β} {x : Except ε β} :
    Plays (p >>= f).run l x ↔ (∃ e, x = .error e ∧ Plays p.run l (.error e)) ∨
      ∃ a l₁ l₂, l = l₁ ++ l₂ ∧ Plays p.run l₁ (.ok a) ∧ Plays (f a).run l₂ x := by
  rw [ExceptT.run_bind, plays_bind]
  constructor
  · rintro ⟨y, l₁, l₂, rfl, hp, hf⟩
    cases y with
    | error e =>
      obtain ⟨rfl, rfl⟩ := plays_done.mp hf
      exact .inl ⟨e, rfl, (List.append_nil l₁).symm ▸ hp⟩
    | ok a => exact .inr ⟨a, l₁, l₂, rfl, hp, hf⟩
  · rintro (⟨e, rfl, hp⟩ | ⟨a, l₁, l₂, rfl, hp, hf⟩)
    · exact ⟨.error e, l, [], (List.append_nil l).symm, hp, plays_done.mpr ⟨rfl, rfl⟩⟩
    · exact ⟨.ok a, l₁, l₂, rfl, hp, hf⟩

theorem plays_tryCatch {p : Fallible R A ε α} {handler : ε → Fallible R A ε α} :
    Plays (tryCatch p handler).run l x ↔ (∃ a, x = .ok a ∧ Plays p.run l (.ok a)) ∨
      ∃ e l₁ l₂, l = l₁ ++ l₂ ∧ Plays p.run l₁ (.error e) ∧ Plays (handler e).run l₂ x := by
  change Plays (p.run >>= fun y => match y with
    | .ok a => done (.ok a)
    | .error e => (handler e).run) l x ↔ _
  rw [plays_bind]
  constructor
  · rintro ⟨y, l₁, l₂, rfl, hp, hf⟩
    cases y with
    | error e => exact .inr ⟨e, l₁, l₂, rfl, hp, hf⟩
    | ok a =>
      obtain ⟨rfl, rfl⟩ := plays_done.mp hf
      exact .inl ⟨a, rfl, (List.append_nil l₁).symm ▸ hp⟩
  · rintro (⟨a, rfl, hp⟩ | ⟨e, l₁, l₂, rfl, hp, hf⟩)
    · exact ⟨.ok a, l, [], (List.append_nil l).symm, hp, plays_done.mpr ⟨rfl, rfl⟩⟩
    · exact ⟨.error e, l₁, l₂, rfl, hp, hf⟩

@[simp] theorem plays_throw {e : ε} :
    Plays (throw e : Fallible R A ε α).run l x ↔ l = [] ∧ x = .error e := by
  rw [ExceptT.run_throw, pure_eq_done, plays_done, eq_comm (a := x)]

@[simp] theorem plays_ofExcept {y : Except ε α} :
    Plays (ofExcept x : Fallible R A ε α).run l y ↔ l = [] ∧ x = y := plays_done

theorem plays_query {x : Except ε (A r)} :
    Plays (query r : Fallible R A ε (A r)).run l x ↔ ∃ y, l = [⟨r, y⟩] ∧ x = .ok y := by
  change Plays (ask r fun y => done (.ok y)) l x ↔ _
  simp only [plays_ask, plays_done]
  constructor
  · rintro ⟨y, _, rfl, rfl, rfl⟩
    exact ⟨y, rfl, rfl⟩
  · rintro ⟨y, rfl, rfl⟩
    exact ⟨y, [], rfl, rfl, rfl⟩

theorem plays_request {check : A r → Except ε α} :
    Plays (query r >>= fun y => ofExcept (check y) : Fallible R A ε α).run l x ↔
      ∃ y, l = [⟨r, y⟩] ∧ check y = x := by
  change Plays (ask r fun y => done (check y)) l x ↔ _
  simp only [plays_ask, plays_done]
  constructor
  · rintro ⟨y, _, rfl, rfl, rfl⟩
    exact ⟨y, rfl, rfl⟩
  · rintro ⟨y, rfl, rfl⟩
    exact ⟨y, [], rfl, rfl, rfl⟩

theorem plays_lift : Plays (ExceptT.lift p : Fallible R A ε α).run l (.ok a) ↔ Plays p l a := by
  rw [ExceptT.run_lift, map_eq_pure_bind, plays_bind]
  constructor
  · rintro ⟨b, l₁, l₂, rfl, hp, hpure⟩
    obtain ⟨rfl, hb⟩ := plays_done.mp hpure
    cases hb
    rwa [List.append_nil]
  · intro h
    exact ⟨a, l, [], (List.append_nil l).symm, h, plays_done.mpr ⟨rfl, rfl⟩⟩

theorem not_plays_lift_error {e : ε} :
    ¬Plays (ExceptT.lift p : Fallible R A ε α).run l (.error e) := by
  rw [ExceptT.run_lift, map_eq_pure_bind, plays_bind]
  rintro ⟨b, l₁, l₂, -, -, hpure⟩
  cases (plays_done.mp hpure).2

theorem Asks.plays {allowed : R → Prop} (hp : p.Asks allowed) (h : Plays p l a) :
    ∀ e ∈ l, allowed e.1 := by
  induction h with
  | done => exact fun e he => absurd he List.not_mem_nil
  | ask _ ih =>
    intro e he
    rcases List.mem_cons.mp he with rfl | he
    · exact hp.1
    · exact ih (hp.2 _) e he

def transcript (answer : (r : R) → A r) : Prog R A α → List (Exchange A)
  | done _ => []
  | ask r next => ⟨r, answer r⟩ :: (next (answer r)).transcript answer

theorem plays_transcript (answer : (r : R) → A r) (p : Prog R A α) :
    Plays p (p.transcript answer) (p.answered answer) := by
  induction p with
  | done a => exact Plays.done a
  | ask r next ih => exact Plays.ask (ih (answer r))

/-- A run through states with these labels. -/
def Path {S L : Type} (step : S → L → S → Prop) : S → List L → S → Prop
  | s, [], s' => s = s'
  | s, x :: l, s' => ∃ s₁, step s x s₁ ∧ Path step s₁ l s'

theorem path_append {S L : Type} {step : S → L → S → Prop} {s s' : S} {l l' : List L} :
    Path step s (l ++ l') s' ↔ ∃ s₁, Path step s l s₁ ∧ Path step s₁ l' s' := by
  induction l generalizing s with
  | nil =>
    constructor
    · exact fun h => ⟨s, rfl, h⟩
    · rintro ⟨_, rfl, h⟩
      exact h
  | cons x l ih =>
    constructor
    · rintro ⟨s₁, hstep, hpath⟩
      obtain ⟨s₂, hl, hl'⟩ := ih.mp hpath
      exact ⟨s₂, ⟨s₁, hstep, hl⟩, hl'⟩
    · rintro ⟨s₂, ⟨s₁, hstep, hl⟩, hl'⟩
      exact ⟨s₁, hstep, ih.mpr ⟨s₂, hl, hl'⟩⟩

theorem Path.forall_mem {S L : Type} {step : S → L → S → Prop} {P Q : L → Prop}
    (hstep : ∀ s x s', P x → step s x s' → Q x) {l : List L} (hall : ∀ x ∈ l, P x) {s s' : S}
    (h : Path step s l s') : ∀ x ∈ l, Q x := by
  induction l generalizing s with
  | nil => exact fun _ hx => absurd hx List.not_mem_nil
  | cons x l ih =>
    obtain ⟨s₁, hx, hrest⟩ := h
    obtain ⟨hfirst, hmore⟩ := List.forall_mem_cons.mp hall
    exact List.forall_mem_cons.mpr ⟨hstep s x s₁ hfirst hx, ih hmore hrest⟩

end Dctl.ProofKit.Prog
