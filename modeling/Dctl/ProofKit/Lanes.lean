import Dctl.ProofKit.Prog
import Mathlib.Algebra.BigOperators.Group.List.Basic
import Mathlib.Algebra.Order.Group.Multiset
import Mathlib.Tactic.Abel

/-! Programs side by side.  A script makes requests as a program does, and can hand a list of tasks
to a number of lanes and go on when they are through.  Every order of the tasks' requests is a run
of it. What a run may do is said with tokens: each task and the script itself own some, an invariant
relates the state of the server to the tokens that are owned together, and no request of one task
touches the tokens of another. -/

namespace Dctl.ProofKit

open List

inductive Task (R : Type) (A : R → Type) (ε : Type) : Type where
  | waiting (p : Prog R A (Except ε Unit))
  | running (p : Prog R A (Except ε Unit))
  | finished (x : Except ε Unit)

def failure {ε : Type} : Except ε Unit → Option ε
  | .ok () => none
  | .error e => some e

/-- A program that can run tasks side by side.  `failed` is the failure that was collected first. -/
inductive Script (R : Type) (A : R → Type) (ε α : Type) : Type where
  | done (a : α)
  | ask (r : R) (next : A r → Script R A ε α)
  | lanes (tasks : List (Task R A ε)) (failed : Option ε) (next : Option ε → Script R A ε α)

variable {R : Type} {A : R → Type} {S Q ε α β : Type}

namespace Task

def prog : Task R A ε → Prog R A (Except ε Unit)
  | waiting p => p
  | running p => p
  | finished x => .done x

def isWaiting : Task R A ε → Bool
  | waiting _ => true
  | _ => false

def isRunning : Task R A ε → Bool
  | running _ => true
  | _ => false

end Task

namespace Script

def bind : Script R A ε α → (α → Script R A ε β) → Script R A ε β
  | done a, f => f a
  | ask r next, f => ask r fun x => (next x).bind f
  | lanes tasks failed next, f => lanes tasks failed fun failed' => (next failed').bind f

instance : Monad (Script R A ε) where
  pure := done
  bind := bind

@[simp] theorem ask_bind (r : R) (next : A r → Script R A ε α) (f : α → Script R A ε β) :
    (ask r next >>= f) = ask r fun x => next x >>= f := rfl

@[simp] theorem lanes_bind (tasks : List (Task R A ε)) (failed : Option ε)
    (next : Option ε → Script R A ε α) (f : α → Script R A ε β) :
    (lanes tasks failed next >>= f) = lanes tasks failed fun failed' => next failed' >>= f := rfl

theorem bind_assoc {γ : Type} (p : Script R A ε α) (f : α → Script R A ε β)
    (g : β → Script R A ε γ) : (p >>= f >>= g) = p >>= fun a => f a >>= g := by
  induction p with
  | done a => rfl
  | ask r next ih => rw [ask_bind, ask_bind, ask_bind, funext ih]
  | lanes tasks failed next ih => rw [lanes_bind, lanes_bind, lanes_bind, funext ih]

theorem bind_done (p : Script R A ε α) : (p >>= done) = p := by
  induction p with
  | done a => rfl
  | ask r next ih => rw [ask_bind, funext ih]
  | lanes tasks failed next ih => rw [lanes_bind, funext ih]

instance : LawfulMonad (Script R A ε) := LawfulMonad.mk' _ bind_done (fun _ _ => rfl) bind_assoc

def ofProg : Prog R A α → Script R A ε α
  | .done a => done a
  | .ask r next => ask r fun x => ofProg (next x)

/-- Run the tasks, and end with the failure that was collected first. -/
def inLanes (programs : List (Prog R A (Except ε Unit))) : Script R A ε (Except ε Unit) :=
  lanes (programs.map .waiting) none fun
    | some e => done (.error e)
    | none => done (.ok ())

/-- One step with `n` lanes.  Tasks are started in order, and none once a failure was collected;
the tasks that are running go on. -/
inductive Step (serve : Prog.Server S R A) (n : Nat) :
    Script R A ε α → S → Script R A ε α → S → Prop
  | ask {r : R} {next : A r → Script R A ε α} {x : A r} {s s' : S} :
      serve s r x s' → Step serve n (.ask r next) s (next x) s'
  | start {before after : List (Task R A ε)} {p : Prog R A (Except ε Unit)}
      {next : Option ε → Script R A ε α} {s : S} :
      (∀ t ∈ before, t.isWaiting = false) → (before ++ after).countP Task.isRunning < n →
      Step serve n (.lanes (before ++ .waiting p :: after) none next) s
        (.lanes (before ++ .running p :: after) none next) s
  | turn {before after : List (Task R A ε)} {r : R} {k : A r → Prog R A (Except ε Unit)}
      {failed : Option ε} {next : Option ε → Script R A ε α} {x : A r} {s s' : S} :
      serve s r x s' →
      Step serve n (.lanes (before ++ .running (.ask r k) :: after) failed next) s
        (.lanes (before ++ .running (k x) :: after) failed next) s'
  | collect {before after : List (Task R A ε)} {x : Except ε Unit} {failed : Option ε}
      {next : Option ε → Script R A ε α} {s : S} :
      Step serve n (.lanes (before ++ .running (.done x) :: after) failed next) s
        (.lanes (before ++ .finished x :: after) (failed.or (failure x)) next) s
  | join {tasks : List (Task R A ε)} {failed : Option ε} {next : Option ε →
    Script R A ε α} {s : S} :
      (∀ t ∈ tasks, t.isRunning = false) →
      (failed = none → ∀ t ∈ tasks, t.isWaiting = false) →
      Step serve n (.lanes tasks failed next) s (next failed) s

/-- Some steps of the script, with at most `n` lanes running. -/
def Reaches (serve : Prog.Server S R A) (n : Nat) (p : Script R A ε α) (s : S) (p' : Script R A ε α)
    (s' : S) : Prop :=
  Relation.ReflTransGen (fun c c' : Script R A ε α × S => Step serve n c.1 c.2 c'.1 c'.2)
    (p, s) (p', s')

end Script

theorem forall₂_left {τ κ : Type} {P : τ → Prop} {l : List τ} {owners : List κ}
    (h : List.Forall₂ (fun t _ => P t) l owners) : ∀ t ∈ l, P t := by
  induction h with
  | nil => simp
  | cons ht _ ih =>
    rw [forall_mem_cons]
    exact ⟨ht, ih⟩

variable (serve : Prog.Server S R A) (I : S → Multiset Q → Prop)

/-- With the tokens `own`, the program keeps the invariant at each of its requests, whatever the
tokens of the others are, and ends with tokens as `post` says. -/
def Prog.Upholds (post : α → Multiset Q → Prop) : Prog R A α → Multiset Q → Prop
  | .done a, own => post a own
  | .ask r next, own => ∀ s others x s', I s (own + others) → serve s r x s' →
      ∃ own', I s' (own' + others) ∧ (next x).Upholds post own'

/-- The tokens of a task: what it owns, what it owns whenever it is not running, and what it ends
with when it does not fail. -/
structure Share (Q : Type) where
  own : Multiset Q
  idle : Multiset Q → Prop
  ends : Multiset Q → Prop

def Share.Left (o : Share Q) (failed : Option ε) (own : Multiset Q) : Prop :=
  o.idle own ∧ (failed = none → o.ends own)

def Script.Upholds (post : α → Multiset Q → Prop) : Script R A ε α → Multiset Q → Prop
  | .done a, own => post a own
  | .ask r next, own => ∀ s others x s', I s (own + others) → serve s r x s' →
      ∃ own', I s' (own' + others) ∧ (next x).Upholds post own'
  | .lanes tasks failed next, own =>
      ∃ (main : Multiset Q) (shares : List (Share Q)),
        own = main + (shares.map Share.own).sum ∧
        List.Forall₂ (fun t o =>
          t.prog.Upholds serve I (fun x own => o.Left (failure x) own) o.own ∧
            (t.isWaiting = true → o.idle o.own)) tasks shares ∧
        (failed = none → ∀ x, .finished x ∈ tasks → failure x = none) ∧
        ∀ failed' owns, List.Forall₂ (fun own o => o.Left failed' own) owns shares →
          (next failed').Upholds post (main + owns.sum)

section Rules

variable {serve I}

theorem Prog.Upholds.mono {post post' : α → Multiset Q → Prop} {p : Prog R A α} {own : Multiset Q}
    (h : p.Upholds serve I post own) (hpost : ∀ a own, post a own → post' a own) :
    p.Upholds serve I post' own := by
  induction p generalizing own with
  | done a => exact hpost a own h
  | ask r next ih =>
    intro s others x s' hI hserve
    obtain ⟨own', hI', hnext⟩ := h s others x s' hI hserve
    exact ⟨own', hI', ih x hnext⟩

variable {post : α → Multiset Q → Prop}

theorem Prog.Upholds.bind {post' : β → Multiset Q → Prop} {p : Prog R A α} {f : α → Prog R A β}
    {own : Multiset Q} (h : p.Upholds serve I post own)
    (hf : ∀ a own, post a own → (f a).Upholds serve I post' own) :
    (p >>= f).Upholds serve I post' own := by
  induction p generalizing own with
  | done a => exact hf a own h
  | ask r next ih =>
    intro s others x s' hI hserve
    obtain ⟨own', hI', hnext⟩ := h s others x s' hI hserve
    exact ⟨own', hI', ih x hnext⟩

theorem Prog.Asks.upholds {allowed : R → Prop} {p : Prog R A α} (hp : p.Asks allowed)
    {own : Multiset Q} (hkeep : ∀ r, allowed r → ∀ s tokens x s', I s tokens → serve s r x s' →
      I s' tokens) : p.Upholds serve I (fun _ own' => own' = own) own := by
  induction p with
  | done a => rfl
  | ask r next ih =>
    intro s others x s' hI hserve
    exact ⟨own, hkeep r hp.1 s _ x s' hI hserve, ih x (hp.2 x)⟩

theorem Prog.upholds_forM {l : List β} {g : β → Prog.Fallible R A ε PUnit} {ends : β → Prop}
    {own : Multiset Q}
    (h : ∀ b ∈ l, (g b).run.Upholds serve I
      (fun x own' => own' = own ∧ ∀ u, x = .ok u → ends b) own) :
    (l.forM g).run.Upholds serve I (fun x own' => own' = own ∧ ∀ u, x = .ok u → ∀ b ∈ l, ends b)
      own := by
  induction l with
  | nil => exact ⟨rfl, fun _ _ => nofun⟩
  | cons b l ih =>
    show (g b >>= fun _ => l.forM g).run.Upholds serve I _ own
    rw [ExceptT.run_bind]
    apply (h b mem_cons_self).bind
    rintro x own' ⟨rfl, hx⟩
    cases x with
    | error e => exact ⟨rfl, nofun⟩
    | ok u =>
      apply (ih fun b' hb => h b' (mem_cons_of_mem b hb)).mono
      rintro y own'' ⟨rfl, hy⟩
      refine ⟨rfl, ?_⟩
      intro v hv b' hb
      rcases mem_cons.mp hb with rfl | hb
      · exact hx u rfl
      · exact hy v hv b' hb

namespace Script

theorem Upholds.bind {post' : β → Multiset Q → Prop} {p : Script R A ε α} {f : α → Script R A ε β}
    {own : Multiset Q} (h : p.Upholds serve I post own)
    (hf : ∀ a own, post a own → (f a).Upholds serve I post' own) :
    (p >>= f).Upholds serve I post' own := by
  induction p generalizing own with
  | done a => exact hf a own h
  | ask r next ih =>
    intro s others x s' hI hserve
    obtain ⟨own', hI', hnext⟩ := h s others x s' hI hserve
    exact ⟨own', hI', ih x hnext⟩
  | lanes tasks failed next ih =>
    obtain ⟨main, owners, hown, htasks, hok, hnext⟩ := h
    exact ⟨main, owners, hown, htasks, hok, fun failed' owns ho =>
      ih failed' (hnext failed' owns ho)⟩

theorem upholds_ofProg {p : Prog R A α} {own : Multiset Q} (h : p.Upholds serve I post own) :
    (ofProg p : Script R A ε α).Upholds serve I post own := by
  induction p generalizing own with
  | done a => exact h
  | ask r next ih =>
    intro s others x s' hI hserve
    obtain ⟨own', hI', hnext⟩ := h s others x s' hI hserve
    exact ⟨own', hI', ih x hnext⟩

theorem upholds_inShares {shares : List (Share Q)} {post : Except ε Unit → Multiset Q → Prop}
    {programs : List (Prog R A (Except ε Unit))} {main : Multiset Q}
    (h : List.Forall₂ (fun p o =>
      p.Upholds serve I (fun x own => o.Left (failure x) own) o.own ∧ o.idle o.own) programs shares)
    (hend : ∀ x owns, List.Forall₂ (fun own o => o.Left (failure x) own) owns shares →
      post x (main + owns.sum)) :
    (inLanes programs).Upholds serve I post (main + (shares.map Share.own).sum) := by
  refine ⟨main, shares, rfl, ?_, ?_, ?_⟩
  · rw [List.forall₂_map_left_iff]
    exact h.imp fun p o ho => ⟨ho.1, fun _ => ho.2⟩
  · intro _ x hx
    obtain ⟨p, -, hp⟩ := mem_map.mp hx
    cases hp
  · intro failed owns ho
    cases failed with
    | none => exact hend (.ok ()) owns ho
    | some e => exact hend (.error e) owns ho

theorem upholds_inLanes (ends : List (Multiset Q → Prop)) {post : Except ε Unit → Multiset Q → Prop}
    {programs : List (Prog R A (Except ε Unit))} {own : Multiset Q}
    (h : List.Forall₂ (fun p e => p.Upholds serve I (fun x own => failure x = none → e own) 0)
      programs ends)
    (hok : ∀ owns, List.Forall₂ (fun own e => e own) owns ends → post (.ok ()) (own + owns.sum))
    (herror : ∀ e tokens, post (.error e) tokens) :
    (inLanes programs).Upholds serve I post own := by
  have hsum : ((ends.map fun e => (⟨0, fun _ => True, e⟩ : Share Q)).map Share.own).sum = 0 := by
    apply sum_eq_zero
    simp
  rw [← add_zero own, ← hsum]
  apply upholds_inShares
  · rw [List.forall₂_map_right_iff]
    exact h.imp fun p e hp => ⟨hp.mono fun x own hx => ⟨trivial, hx⟩, trivial⟩
  · intro x owns ho
    rw [List.forall₂_map_right_iff] at ho
    cases x with
    | ok u => exact hok owns (ho.imp fun own e he => he.2 rfl)
    | error e => exact herror e _

end Script

section Quiet

variable (serve I) in
/-- A program that starts and ends without tokens. -/
def Prog.Quiet (p : Prog R A α) : Prop := p.Upholds serve I (fun _ own => own = 0) 0

variable (serve I) in
/-- A script that starts without tokens, and ends without tokens when it does not fail. -/
def Script.Quiet (p : Script R A ε (Except ε α)) : Prop :=
  p.Upholds serve I (fun x own => ∀ a, x = .ok a → own = 0) 0

theorem Prog.quiet_done (a : α) : (Prog.done a : Prog R A α).Quiet serve I := rfl

theorem Prog.Quiet.bind {p : Prog R A α} {f : α → Prog R A β} (hp : p.Quiet serve I)
    (hf : ∀ a, (f a).Quiet serve I) : (p >>= f).Quiet serve I := by
  apply Prog.Upholds.bind hp
  rintro a own rfl
  exact hf a

namespace Prog

variable {p : Fallible R A ε α} {f : α → Fallible R A ε β}

theorem quiet_bind (hp : p.run.Quiet serve I) (hf : ∀ a, (f a).run.Quiet serve I) :
    (p >>= f).run.Quiet serve I := by
  rw [ExceptT.run_bind]
  apply hp.bind
  intro x
  cases x with
  | error e => exact quiet_done _
  | ok a => exact hf a

theorem quiet_pure (a : α) : (pure a : Fallible R A ε α).run.Quiet serve I := quiet_done _

theorem quiet_throw (e : ε) : (throw e : Fallible R A ε α).run.Quiet serve I := quiet_done _

theorem quiet_ofExcept (x : Except ε α) : (ofExcept x : Fallible R A ε α).run.Quiet serve I :=
  quiet_done _

theorem quiet_query {r : R} (h : ∀ s tokens x s', I s tokens → serve s r x s' → I s' tokens) :
    (query r : Fallible R A ε (A r)).run.Quiet serve I := by
  intro s others x s' hI hserve
  exact ⟨0, h s _ x s' hI hserve, rfl⟩

theorem quiet_lift {p : Prog R A α} (h : p.Quiet serve I) :
    (ExceptT.lift p : Fallible R A ε α).run.Quiet serve I :=
  h.bind fun a => quiet_done (Except.ok a)

theorem quiet_forM {l : List β} {g : β → Fallible R A ε PUnit}
    (h : ∀ b ∈ l, (g b).run.Quiet serve I) : (l.forM g).run.Quiet serve I := by
  induction l with
  | nil => exact quiet_pure _
  | cons b l ih =>
    show (g b >>= fun _ => l.forM g).run.Quiet serve I
    apply quiet_bind (h b mem_cons_self)
    intro _
    apply ih
    intro b' hb
    exact h b' (mem_cons_of_mem b hb)

end Prog

namespace Script

theorem quiet_ofProg {p : Prog.Fallible R A ε α} (h : p.run.Quiet serve I) :
    (ofProg p.run : Script R A ε (Except ε α)).Quiet serve I :=
  upholds_ofProg (h.mono fun _ _ hown _ _ => hown)

theorem quiet_bind {p : ExceptT ε (Script R A ε) α} {f : α → ExceptT ε (Script R A ε) β}
    (hp : p.run.Quiet serve I) (hf : ∀ a, (f a).run.Quiet serve I) :
    (p >>= f).run.Quiet serve I := by
  apply Upholds.bind hp
  intro x own hown
  cases x with
  | error e => exact nofun
  | ok a =>
    rw [hown a rfl]
    exact hf a

theorem quiet_inLanes {programs : List (Prog R A (Except ε Unit))}
    (h : ∀ p ∈ programs, p.Quiet serve I) : (inLanes programs).Quiet serve I := by
  apply upholds_inLanes (programs.map fun _ own => own = 0)
  · rw [List.forall₂_map_right_iff, List.forall₂_same]
    intro p hp
    exact (h p hp).mono fun _ _ hown _ => hown
  · intro owns howns a _
    rw [zero_add]
    apply sum_eq_zero
    rw [List.forall₂_map_right_iff] at howns
    exact forall₂_left howns
  · exact nofun

end Script

end Quiet

namespace Script

theorem forall₂_middle {τ κ : Type} {rel : τ → κ → Prop} {before after : List τ} {t : τ}
    {owners : List κ} (h : List.Forall₂ rel (before ++ t :: after) owners) :
    ∃ first o last, owners = first ++ o :: last ∧ rel t o ∧
      ∀ t' o', rel t' o' → List.Forall₂ rel (before ++ t' :: after) (first ++ o' :: last) := by
  induction before generalizing owners with
  | nil =>
    obtain ⟨o, last, ht, hlast, rfl⟩ := List.forall₂_cons_left_iff.mp h
    exact ⟨[], o, last, rfl, ht, fun t' o' h' => List.Forall₂.cons h' hlast⟩
  | cons b before ih =>
    obtain ⟨o, rest, hb, hrest, rfl⟩ := List.forall₂_cons_left_iff.mp h
    obtain ⟨first, o', last, rfl, ht, hset⟩ := ih hrest
    exact ⟨o :: first, o', last, rfl, ht, fun t' o'' h' => List.Forall₂.cons hb (hset t' o'' h')⟩

/-- One step keeps the invariant and what the script upholds. -/
theorem Upholds.step {post : α → Multiset Q → Prop} {p p' : Script R A ε α} {s s' : S} {n : Nat}
    {own : Multiset Q} (h : p.Upholds serve I post own) (hI : I s own)
    (hstep : Step serve n p s p' s') :
    ∃ own', I s' own' ∧ p'.Upholds serve I post own' := by
  cases hstep with
  | ask hserve =>
    obtain ⟨own', hI', hnext⟩ := h s 0 _ s' (by rwa [add_zero]) hserve
    exact ⟨own', by rwa [add_zero] at hI', hnext⟩
  | start _ _ =>
    obtain ⟨main, shares, rfl, htasks, hok, hnext⟩ := h
    obtain ⟨first, o, last, rfl, ht, hset⟩ := forall₂_middle htasks
    refine ⟨_, hI, main, _, rfl, hset _ o ⟨ht.1, nofun⟩, ?_, hnext⟩
    intro hf x hx
    apply hok hf x
    simpa using hx
  | turn hserve =>
    obtain ⟨main, shares, rfl, htasks, hok, hnext⟩ := h
    obtain ⟨first, o, last, rfl, ht, hset⟩ := forall₂_middle htasks
    obtain ⟨own', hI', ht'⟩ := ht.1 s
      (main + (first.map Share.own).sum + (last.map Share.own).sum) _ s'
      (by
        convert hI using 1
        simp only [map_append, map_cons, sum_append, sum_cons]
        abel) hserve
    refine ⟨_, hI', main, first ++ ⟨own', o.idle, o.ends⟩ :: last, ?_,
      hset _ ⟨own', o.idle, o.ends⟩ ⟨ht', nofun⟩, ?_, ?_⟩
    · simp only [map_append, map_cons, sum_append, sum_cons]
      abel
    · intro hf x hx
      apply hok hf x
      simpa using hx
    · intro failed' owns ho
      apply hnext failed' owns
      obtain ⟨a, w, b, rfl, hw, howns⟩ := forall₂_middle ho.flip
      exact (howns o w hw).flip
  | collect =>
    obtain ⟨main, shares, rfl, htasks, hok, hnext⟩ := h
    obtain ⟨first, o, last, rfl, ht, hset⟩ := forall₂_middle htasks
    refine ⟨_, hI, main, _, rfl, hset _ o ⟨ht.1, nofun⟩, ?_, hnext⟩
    intro hf y hy
    rw [Option.or_eq_none_iff] at hf
    rcases mem_append.mp hy with hy | hy
    · exact hok hf.1 y (mem_append_left _ hy)
    · rcases mem_cons.mp hy with hy | hy
      · cases hy
        exact hf.2
      · exact hok hf.1 y (mem_append_right _ (mem_cons_of_mem _ hy))
  | @join tasks failed _ _ hrun hwait =>
    obtain ⟨main, shares, rfl, htasks, hok, hnext⟩ := h
    refine ⟨_, hI, hnext _ _ ?_⟩
    rw [List.forall₂_map_left_iff, List.forall₂_same]
    refine forall₂_left (((List.forall₂_and_left _ _).mpr ⟨fun t ht => ht, htasks⟩).imp ?_).flip
    rintro t o ⟨hmem, ht, hidle⟩
    -- A task that is not running owns what it owned at the start or what it ended with.
    cases t with
    | waiting p => exact ⟨hidle rfl, fun hf => absurd (hwait hf _ hmem) Bool.false_ne_true.symm⟩
    | running p => exact absurd (hrun _ hmem) Bool.false_ne_true.symm
    | finished x =>
      have hleft : o.Left (failure x) o.own := ht
      exact ⟨hleft.1, fun hf => hleft.2 (hok hf x hmem)⟩

theorem Upholds.reaches {post : α → Multiset Q → Prop} {p p' : Script R A ε α} {s s' : S} {n : Nat}
    {own : Multiset Q} (h : p.Upholds serve I post own) (hI : I s own)
    (hreach : Reaches serve n p s p' s') :
    ∃ own', I s' own' ∧ p'.Upholds serve I post own' := by
  obtain ⟨c, hc⟩ : ∃ c, c = (p', s') := ⟨_, rfl⟩
  rw [Reaches, ← hc] at hreach
  suffices ∃ own', I c.2 own' ∧ c.1.Upholds serve I post own' by simpa [hc] using this
  clear hc
  induction hreach with
  | refl => exact ⟨own, hI, h⟩
  | tail _ hstep ih =>
    obtain ⟨own', hI', h'⟩ := ih
    exact h'.step hI' hstep

/-- The programs of the tasks that were not started. -/
def unstarted (tasks : List (Task R A ε)) : List (Prog R A (Except ε Unit)) :=
  (tasks.filter Task.isWaiting).map Task.prog

theorem unstarted_append {tasks tasks' : List (Task R A ε)} :
    unstarted (tasks ++ tasks') = unstarted tasks ++ unstarted tasks' := by
  simp [unstarted]

def EndsOnFailure : Script R A ε (Except ε α) → Prop
  | .done _ => True
  | .ask _ next => ∀ x, (next x).EndsOnFailure
  | .lanes _ _ next => (∀ e, next (some e) = .done (.error e)) ∧ ∃ x, next none = .done x

theorem endsOnFailure_inLanes (programs : List (Prog R A (Except ε Unit))) :
    (inLanes programs).EndsOnFailure := ⟨fun _ => rfl, _, rfl⟩

theorem endsOnFailure_ofProg_bind {p : Prog R A β} {f : β → Script R A ε (Except ε α)}
    (h : ∀ b, (f b).EndsOnFailure) : (ofProg p >>= f).EndsOnFailure := by
  induction p with
  | done b => exact h b
  | ask r next ih => exact ih

theorem EndsOnFailure.step {n : Nat} {p p' : Script R A ε (Except ε α)} {s s' : S}
    (h : p.EndsOnFailure) (hstep : Step serve n p s p' s') : p'.EndsOnFailure := by
  cases hstep with
  | ask _ => exact h _
  | start _ _ | turn _ | collect => exact h
  | @join _ failed _ _ _ _ =>
    obtain ⟨herror, x, hx⟩ := h
    cases failed with
    | none =>
      rw [hx]
      trivial
    | some e =>
      rw [herror]
      trivial

theorem EndsOnFailure.reaches {n : Nat} {p p' : Script R A ε (Except ε α)} {s s' : S}
    (h : p.EndsOnFailure) (hreach : Reaches serve n p s p' s') : p'.EndsOnFailure := by
  obtain ⟨c, hc⟩ : ∃ c, c = (p', s') := ⟨_, rfl⟩
  rw [Reaches, ← hc] at hreach
  suffices c.1.EndsOnFailure by simpa [hc] using this
  clear hc
  induction hreach with
  | refl => exact h
  | tail _ hstep ih => exact ih.step hstep

theorem reaches_after_failure {n : Nat} {tasks : List (Task R A ε)} {e : ε}
    {next : Option ε → Script R A ε (Except ε α)} {p' : Script R A ε (Except ε α)} {s s' : S}
    (hends : (Script.lanes tasks (some e) next).EndsOnFailure)
    (hreach : Reaches serve n (.lanes tasks (some e) next) s p' s') :
    (∃ tasks', p' = .lanes tasks' (some e) next ∧ unstarted tasks' = unstarted tasks) ∨
      p' = .done (.error e) := by
  obtain ⟨c, hc⟩ : ∃ c, c = (p', s') := ⟨_, rfl⟩
  rw [Reaches, ← hc] at hreach
  suffices (∃ tasks', c.1 = .lanes tasks' (some e) next ∧ unstarted tasks' = unstarted tasks) ∨
      c.1 = .done (.error e) by simpa [hc] using this
  clear hc
  induction hreach with
  | refl => exact Or.inl ⟨tasks, rfl, rfl⟩
  | @tail c c' _ hstep ih =>
    obtain ⟨p, s⟩ := c
    obtain ⟨p', s'⟩ := c'
    rcases ih with ⟨tasks', rfl, hsame⟩ | rfl
    · cases hstep with
      | turn _ =>
        refine Or.inl ⟨_, rfl, ?_⟩
        rw [← hsame, unstarted_append, unstarted_append]
        rfl
      | collect =>
        refine Or.inl ⟨_, rfl, ?_⟩
        rw [← hsame, unstarted_append, unstarted_append]
        rfl
      | join _ _ => exact Or.inr (hends.1 e)
    · cases hstep

/-- No lane of the script is running. -/
def Idle : Script R A ε α → Prop
  | .done _ => True
  | .ask _ _ => False
  | .lanes tasks _ _ => ∀ t ∈ tasks, t.isRunning = false

theorem Upholds.idle [Nonempty ε] {post : Except ε α → Multiset Q → Prop}
    {p : Script R A ε (Except ε α)} {own : Multiset Q} (h : p.Upholds serve I post own)
    (hends : p.EndsOnFailure) (hidle : p.Idle) : ∃ x, post x own := by
  cases p with
  | done x => exact ⟨x, h⟩
  | ask r next => exact hidle.elim
  | lanes tasks failed next =>
    obtain ⟨main, shares, rfl, htasks, -, hnext⟩ := h
    obtain ⟨e⟩ := ‹Nonempty ε›
    have hleft : List.Forall₂ (fun own o => o.Left (some e) own) (shares.map Share.own) shares := by
      rw [List.forall₂_map_left_iff, List.forall₂_same]
      refine forall₂_left (((List.forall₂_and_left _ _).mpr ⟨fun t ht => ht, htasks⟩).imp ?_).flip
      rintro t o ⟨hmem, ht, hwaits⟩
      refine ⟨?_, nofun⟩
      cases t with
      | waiting p => exact hwaits rfl
      | running p => exact absurd (hidle _ hmem) Bool.false_ne_true.symm
      | finished x =>
        have hdone : o.Left (failure x) o.own := ht
        exact hdone.1
    have hend := hnext (some e) _ hleft
    rw [hends.1 e] at hend
    exact ⟨_, hend⟩

/-- Tasks that own nothing between their starts and their ends: while none runs, nothing is owned.
-/
theorem idle_inLanes [Nonempty ε] {programs : List (Prog R A (Except ε Unit))} {s s' : S} {n : Nat}
    {p : Script R A ε (Except ε Unit)} (h : ∀ q ∈ programs, q.Quiet serve I) (hI : I s 0)
    (hreach : Reaches serve n (inLanes programs) s p s') (hidle : p.Idle) : I s' 0 := by
  have hup : (inLanes programs).Upholds serve I (fun _ own => own = 0)
      (0 + ((programs.map fun _ => (⟨0, (· = 0), fun _ => True⟩ : Share Q)).map
        Share.own).sum) := by
    apply upholds_inShares
    · rw [List.forall₂_map_right_iff, List.forall₂_same]
      intro q hq
      exact ⟨(h q hq).mono fun _ _ hown => ⟨hown, fun _ => trivial⟩, rfl⟩
    · intro _ owns howns
      rw [zero_add]
      apply sum_eq_zero
      rw [List.forall₂_map_right_iff] at howns
      exact forall₂_left (howns.imp fun own e he => he.1)
  have hshares : ((programs.map fun _ => (⟨0, (· = 0), fun _ => True⟩ : Share Q)).map Share.own).sum
      = 0 := by
    apply sum_eq_zero
    simp
  rw [zero_add, hshares] at hup
  obtain ⟨own, hown, hp⟩ := hup.reaches hI hreach
  obtain ⟨x, hzero⟩ := hp.idle ((endsOnFailure_inLanes programs).reaches hreach) hidle
  rwa [hzero] at hown

/-- The tasks run one after the other, and none fails. -/
inductive InOrder (serve : Prog.Server S R A) : List (Prog R A (Except ε Unit)) → S → S → Prop
  | nil (s : S) : InOrder serve [] s s
  | cons {p : Prog R A (Except ε Unit)} {programs : List (Prog R A (Except ε Unit))} {s s' s'' : S}
      {x : Except ε Unit} :
      Prog.Run serve p s x s' → failure x = none → InOrder serve programs s' s'' →
      InOrder serve (p :: programs) s s''

variable {n : Nat}

theorem Reaches.trans {p p' p'' : Script R A ε α} {s s' s'' : S} (h : Reaches serve n p s p' s')
    (h' : Reaches serve n p' s' p'' s'') : Reaches serve n p s p'' s'' :=
  Relation.ReflTransGen.trans h h'

theorem Step.reaches {p p' : Script R A ε α} {s s' : S} (h : Step serve n p s p' s') :
    Reaches serve n p s p' s' :=
  Relation.ReflTransGen.single h

theorem reaches_ofProg {p : Prog R A α} {f : α → Script R A ε β} {s s' : S} {a : α}
    (h : Prog.Run serve p s a s') : Reaches serve n (ofProg p >>= f) s (f a) s' := by
  induction h with
  | done a s => exact Relation.ReflTransGen.refl
  | ask hserve _ ih => exact (Step.ask hserve).reaches.trans ih

theorem reaches_running {before after : List (Task R A ε)} {p : Prog R A (Except ε Unit)}
    {failed : Option ε} {next : Option ε → Script R A ε α} {s s' : S} {x : Except ε Unit}
    (h : Prog.Run serve p s x s') :
    Reaches serve n (.lanes (before ++ .running p :: after) failed next) s
      (.lanes (before ++ .finished x :: after) (failed.or (failure x)) next) s' := by
  induction h with
  | done x s => exact Step.collect.reaches
  | ask hserve _ ih => exact (Step.turn hserve).reaches.trans ih

section

variable {programs : List (Prog R A (Except ε Unit))} {s s' : S} (hn : 0 < n)
  (h : InOrder serve programs s s')
include hn h

theorem InOrder.reaches {ended : List (Task R A ε)}
    (hended : ∀ t ∈ ended, t.isWaiting = false ∧ t.isRunning = false)
    (next : Option ε → Script R A ε α) :
    Reaches serve n (.lanes (ended ++ programs.map .waiting) none next) s (next none) s' := by
  induction h generalizing ended with
  | nil s =>
    rw [map_nil, append_nil]
    exact (Step.join (fun t ht => (hended t ht).2) fun _ t ht => (hended t ht).1).reaches
  | @cons p programs s s1 s2 x hrun hx _ ih =>
    have hcount : (ended ++ programs.map Task.waiting).countP Task.isRunning = 0 := by
      rw [countP_eq_zero]
      intro t ht
      rcases mem_append.mp ht with ht | ht
      · rw [(hended t ht).2]
        decide
      · obtain ⟨q, -, rfl⟩ := mem_map.mp ht
        exact Bool.false_ne_true
    have hstart : Step serve n (.lanes (ended ++ .waiting p :: programs.map .waiting) none next) s
        (.lanes (ended ++ .running p :: programs.map .waiting) none next) s :=
      Step.start (fun t ht => (hended t ht).1) (hcount ▸ hn)
    have hend := hstart.reaches.trans (reaches_running hrun)
    rw [Option.none_or, hx] at hend
    refine hend.trans ?_
    rw [append_cons]
    apply ih
    intro t ht
    rcases mem_append.mp ht with ht | ht
    · exact hended t ht
    · rw [mem_singleton.mp ht]
      exact ⟨rfl, rfl⟩

theorem InOrder.reaches_inLanes {f : Except ε Unit → Script R A ε α} :
    Reaches serve n (inLanes programs >>= f) s (f (.ok ())) s' :=
  @InOrder.reaches _ _ _ _ _ _ _ _ _ _ hn h [] (by simp) _

end

end Script

end Rules

end Dctl.ProofKit
