import Dctl.Transfer.Billing
import Mathlib.Algebra.Order.BigOperators.Group.Multiset
import Mathlib.Algebra.Order.Group.Nat

/-! What a run moves under `--max-transfer`.  A file claims its planned size once, and every attempt
that reaches the upload stage settles that claim again: the ceiling holds as long as each upload
uses a claim of its own and moves no more than it. -/

namespace Dctl.Transfer

open Cli ProofKit

def Event.moved : Event → Nat
  | ⟨.upload _ _, .ok n⟩ => n
  | _ => 0

def Event.claims (e : Planned) : Event → Bool
  | ⟨.afford e', .ok _⟩ => e' = e
  | _ => false

/-- The event is an upload of a file that went through. -/
def Event.uploads (e : Planned) : Event → Bool
  | ⟨.upload _ e', .ok _⟩ => e' = e
  | _ => false

/-- The bytes that the uploads of a run report, over all attempts. -/
def movedBytes (log : List Event) : Nat := (log.map Event.moved).sum

/-- An upload uses a claim that its file took and that no upload of the file used, and moves no more
than that claim; a claim that is granted does not overflow the counter. -/
def Covered (w : World) : (r : Request) → Answer r → Prop
  | .upload _ e, .ok n => n ≤ e.size ∧ w.log.countP (Event.uploads e) <
    w.log.countP (Event.claims e)
  | .afford e, .ok _ => w.budget.spent + e.size ≤ u64Max
  | _, _ => True

instance decidableCovered (w : World) : (r : Request) → (x : Answer r) → Decidable (Covered w r x)
  | .upload _ _, .ok _ => inferInstanceAs (Decidable (_ ∧ _))
  | .afford _, .ok _ => inferInstanceAs (Decidable (_ ≤ _))
  | .upload _ _, .error _ | .afford _, .error _ | .deadline _, _ | .settle .., _ | .read .., _
  | .encrypt .., _ | .verify .., _ | .commit .., _ | .createDir _, _ | .takePlaintextHash _, _
  | .remove .., _ | .append _, _ | .fileDone _, _ | .recordFailure .., _ => .isTrue trivial

/-- What is claimed, moved and held together keeps within the ceiling. -/
structure Ledger (limit : Nat) (w : World) (tokens : Multiset (Planned × Nat))
    (held : Multiset Planned) (settled : Nat) : Prop where
  claims : ∀ e, w.log.countP (Event.claims e) = w.log.countP (Event.uploads e) + held.count e
  moved : movedBytes w.log = settled + (tokens.map Prod.snd).sum
  within : ∀ t ∈ tokens, t.2 ≤ t.1.size
  paid : settled + (held.map Planned.size).sum + (tokens.map fun t => t.1.size).sum ≤ w.budget.spent
  ceiling : w.budget.limit = some limit
  spent : w.budget.spent ≤ limit
  range : w.budget.spent ≤ u64Max

/-- The ceiling is kept. -/
def Kept (limit : Nat) (w : World) (tokens : Multiset (Planned × Nat)) : Prop :=
  ∃ held settled, Ledger limit w tokens held settled

section Steps

variable {display : Nat → String} {limit : Nat} {w w' : World}
  {tokens : Multiset (Planned × Nat)} {held : Multiset Planned} {settled : Nat} {e : Planned}
  {n attempt : Nat}

theorem movedBytes_append (log : List Event) (ev : Event) :
    movedBytes (log ++ [ev]) = movedBytes log + ev.moved := by
  simp [movedBytes]

theorem countP_append_singleton (p : Event → Bool) (log : List Event) (ev : Event) :
    (log ++ [ev]).countP p = log.countP p + if p ev then 1 else 0 := by
  simp [List.countP_append, List.countP_singleton]

theorem Budget.afford_granted {b b' : Budget} {size : Nat} {subject : String}
    {x : Except CliError Unit} (hceiling : b.limit = some limit)
    (hanswer : (x, b') = b.afford display size subject)
    (hroom : ∀ u, x = .ok u → b.spent + size ≤ u64Max) :
    x = .ok () ∧ b' = { b with spent := b.spent + size } ∨ (∃ error, x = .error error) ∧ b' = b := by
  rcases Budget.afford_cases hceiling with ⟨hok, hspent⟩ | ⟨error, -, herror⟩
  · obtain ⟨hx, rfl⟩ := Prod.mk.inj (hanswer.trans (Prod.eta _).symm)
    rw [hok] at hx
    refine Or.inl ⟨hx, ?_⟩
    rcases hspent with ⟨rfl, hs⟩ | ⟨-, hs⟩
    · rw [hs, Nat.add_zero]
    · rw [hs, saturatingAdd, Nat.min_eq_left (hroom () hx)]
  · rw [herror] at hanswer
    obtain ⟨rfl, rfl⟩ := Prod.mk.inj hanswer
    exact Or.inr ⟨⟨error, rfl⟩, rfl⟩

theorem Budget.settle_spent {b : Budget} {size : Nat} (hceiling : b.limit = some limit)
    (hroom : b.spent - size + n ≤ u64Max) : (b.settle size n).spent = b.spent - size + n := by
  rw [Budget.settle]
  simp only [hceiling, Option.isSome_some, if_true]
  exact Nat.min_eq_left hroom

/-- The claims of the file that no upload has used are held. -/
abbrev Holds (w : World) (held : Multiset Planned) (e : Planned) : Prop :=
  w.log.countP (Event.claims e) = w.log.countP (Event.uploads e) + held.count e

theorem Holds.pass {ev : Event} (h : Holds w held e) (hlog : w'.log = w.log ++ [ev])
    (hclaims : ev.claims e = false) (huploads : ev.uploads e = false) : Holds w' held e := by
  rw [Holds, hlog, countP_append_singleton, countP_append_singleton, hclaims, huploads, h]
  rfl

theorem Holds.afford {e' : Planned} (h : Holds w held e')
    (hlog : w'.log = w.log ++ [⟨.afford e, .ok ()⟩]) : Holds w' (e ::ₘ held) e' := by
  rw [Holds, hlog, countP_append_singleton, countP_append_singleton, h, Multiset.count_cons]
  simp only [Event.claims, Event.uploads, decide_eq_true_eq, eq_comm (a := e)]
  simp
  omega

theorem Holds.upload {e' : Planned} {rest : Multiset Planned} (h : Holds w held e')
    (hheld : held.count e' = rest.count e' + if e' = e then 1 else 0)
    (hlog : w'.log = w.log ++ [⟨.upload attempt e, .ok n⟩]) : Holds w' rest e' := by
  rw [Holds, hlog, countP_append_singleton, countP_append_singleton, h, hheld]
  simp only [Event.claims, Event.uploads, decide_eq_true_eq, eq_comm (a := e)]
  simp
  omega

theorem moved_upload (h : movedBytes w.log = settled + (tokens.map Prod.snd).sum)
    (hlog : w'.log = w.log ++ [⟨.upload attempt e, .ok n⟩]) :
    movedBytes w'.log = settled + (((e, n) ::ₘ tokens).map Prod.snd).sum := by
  rw [hlog, movedBytes_append, h, Multiset.map_cons, Multiset.sum_cons]
  simp only [Event.moved]
  omega

theorem moved_settle (h : movedBytes w.log = settled + (((e, n) ::ₘ tokens).map Prod.snd).sum)
    (hlog : w'.log = w.log ++ [⟨.settle e n, ()⟩]) :
    movedBytes w'.log = settled + n + (tokens.map Prod.snd).sum := by
  rw [Multiset.map_cons, Multiset.sum_cons] at h
  rw [hlog, movedBytes_append, h]
  simp only [Event.moved]
  omega

section

variable (h : Ledger limit w tokens held settled)
include h

theorem Ledger.moved_le : movedBytes w.log ≤ limit := by
  have htokens : (tokens.map Prod.snd).sum ≤ (tokens.map fun t => t.1.size).sum :=
    Multiset.sum_map_le_sum_map _ _ h.within
  have := h.moved
  have := h.paid
  have := h.spent
  omega

theorem Ledger.pass {ev : Event} (hlog : w'.log = w.log ++ [ev]) (hbudget : w'.budget = w.budget)
    (hmoved : ev.moved = 0) (hclaims : ∀ e, ev.claims e = false)
    (huploads : ∀ e, ev.uploads e = false) :
    Ledger limit w' tokens held settled where
  claims e := Holds.pass (h.claims e) hlog (hclaims e) (huploads e)
  moved := by rw [hlog, movedBytes_append, hmoved, h.moved]; rfl
  within := h.within
  paid := by rw [hbudget]; exact h.paid
  ceiling := by rw [hbudget]; exact h.ceiling
  spent := by rw [hbudget]; exact h.spent
  range := by rw [hbudget]; exact h.range

theorem Ledger.afford {x : Except CliError Unit} (hlog : w'.log = w.log ++ [⟨.afford e, x⟩])
    (hanswer : (x, w'.budget) = w.budget.afford display e.size e.entry.dest)
    (hcovered : Covered w (.afford e) x) : Kept limit w' tokens := by
  rcases Budget.afford_granted h.ceiling hanswer (by rintro _ rfl; exact hcovered) with
    ⟨rfl, hb⟩ | ⟨⟨error, rfl⟩, hb⟩
  · refine ⟨e ::ₘ held, settled, fun e' => Holds.afford (h.claims e') hlog, ?_, h.within,
      ?_, ?_, ?_, ?_⟩
    · rw [hlog, movedBytes_append, h.moved]
      rfl
    · have := h.paid
      rw [Multiset.map_cons, Multiset.sum_cons, hb]
      simp only
      omega
    · rw [hb]
      exact h.ceiling
    · rw [show w'.budget = _ from congrArg Prod.snd hanswer]
      exact Budget.afford_spent_le h.ceiling h.spent
    · rw [hb]
      exact hcovered
  · exact ⟨held, settled, h.pass hlog hb rfl (fun _ => rfl) fun _ => rfl⟩

theorem Ledger.upload (hlog : w'.log = w.log ++ [⟨.upload attempt e, .ok n⟩])
    (hbudget : w'.budget = w.budget) (hcovered : Covered w (.upload attempt e) (.ok n)) :
    Kept limit w' ((e, n) ::ₘ tokens) := by
  obtain ⟨hn, hcount⟩ : n ≤ e.size ∧ _ := hcovered
  have hmem : e ∈ held := by
    rw [← Multiset.one_le_count_iff_mem]
    have := h.claims e
    omega
  obtain ⟨rest, rfl⟩ := Multiset.exists_cons_of_mem hmem
  refine ⟨rest, settled, fun e' => Holds.upload (h.claims e') (Multiset.count_cons ..) hlog,
    moved_upload h.moved hlog, ?_, ?_, ?_, ?_, ?_⟩
  · intro t ht
    rcases Multiset.mem_cons.mp ht with rfl | ht
    · exact hn
    · exact h.within t ht
  · have := h.paid
    rw [Multiset.map_cons, Multiset.sum_cons] at this
    rw [hbudget, Multiset.map_cons, Multiset.sum_cons]
    simp only
    omega
  · rw [hbudget]
    exact h.ceiling
  · rw [hbudget]
    exact h.spent
  · rw [hbudget]
    exact h.range

end

theorem Ledger.settle (h : Ledger limit w ((e, n) ::ₘ tokens) held settled)
    (hlog : w'.log = w.log ++ [⟨.settle e n, ()⟩])
      (hbudget : w'.budget = w.budget.settle e.size n) :
    Ledger limit w' tokens held (settled + n) := by
  have hn : n ≤ e.size := h.within _ (Multiset.mem_cons_self _ _)
  have hpaid := h.paid
  rw [Multiset.map_cons, Multiset.sum_cons] at hpaid
  simp only at hpaid
  have hlimit := h.spent
  have hrange := h.range
  have hspent : w'.budget.spent = w.budget.spent - e.size + n := by
    rw [hbudget]
    exact Budget.settle_spent h.ceiling (by omega)
  refine ⟨fun e' => Holds.pass (h.claims e') hlog rfl rfl, moved_settle h.moved hlog,
    fun t ht => h.within t (Multiset.mem_cons_of_mem ht), ?_, ?_, ?_, ?_⟩
  · rw [hspent]
    omega
  · rw [hbudget]
    exact h.ceiling
  · rw [hspent]
    omega
  · rw [hspent]
    omega

end Steps

section Programs

variable {display : Nat → String} {admits : (r : Request) → Answer r → Prop} {limit : Nat}

theorem Kept.pass {w w' : World} {tokens : Multiset (Planned × Nat)} {r : Request} {x : Answer r}
    (h : Kept limit w tokens) (hserve : (serves display admits).given Covered w r x w')
    (hr : r.passes = true) : Kept limit w' tokens := by
  obtain ⟨held, settled, h⟩ := h
  obtain ⟨hcovered, hlog, hanswer⟩ := hserve
  cases r
  case upload attempt e => cases hr
  case settle e n => cases hr
  case afford e => exact h.afford hlog hanswer hcovered
  all_goals exact ⟨held, settled, h.pass hlog hanswer.2 rfl (fun _ => rfl) fun _ => rfl⟩

theorem kept_billing : Billing ((serves display admits).given Covered) (Kept limit) where
  pass hr h hserve := h.pass hserve hr
  refused h hserve := by
    obtain ⟨held, settled, h⟩ := h
    obtain ⟨-, hlog, -, hbudget⟩ := hserve
    exact ⟨held, settled, h.pass hlog hbudget rfl (fun _ => rfl) fun _ => rfl⟩
  upload h hserve := by
    obtain ⟨held, settled, h⟩ := h
    obtain ⟨hcovered, hlog, -, hbudget⟩ := hserve
    exact h.upload hlog hbudget hcovered
  settle h hserve := by
    obtain ⟨held, settled, h⟩ := h
    obtain ⟨-, hlog, hbudget⟩ := hserve
    exact ⟨held, _, h.settle hlog hbudget⟩

variable (display admits limit) in
abbrev Balanced (p : Execution Unit) : Prop :=
  p.run.Quiet ((serves display admits).given Covered) (Kept limit)

theorem balanced_run {ctx : Ctx} {plan : Plan} (verb : Verb) :
    Balanced display admits limit (verb.run ctx plan) := kept_billing.run verb

end Programs

theorem kept_start (limit : Nat) : Kept limit (World.start (some limit)) 0 :=
  ⟨0, 0, ⟨fun _ => rfl, rfl, fun _ h => absurd h (Multiset.notMem_zero _), by simp [World.start],
    rfl, by simp [World.start, Budget.new], by simp [World.start, Budget.new]⟩⟩

/-- A run of any command, with any driver, any number of lanes and any order of their steps, moves
no more than the ceiling, as long as every upload is covered. -/
theorem moved_le_limit {display : Nat → String} {limit : Nat} {ctx : Ctx} {plan : Plan}
    {verb : Verb} {p : Script Request Answer CliError (Except CliError Unit)} {w : World}
    (h : Script.Reaches ((serves display fun _ _ => True).given Covered) ctx.lanes
      (verb.run ctx plan).run (World.start (some limit)) p w) :
    movedBytes w.log ≤ limit := by
  obtain ⟨tokens, ⟨held, settled, hledger⟩, -⟩ := (balanced_run verb).reaches (kept_start limit) h
  exact hledger.moved_le

def tenByteFile : Planned := ⟨0, ⟨.copy, "a", "a", some 10, planReasonMissing, none⟩⟩

def tenByteCopy : Plan := ⟨[tenByteFile.entry]⟩

def fourLanes : Ctx where
  retries := 3
  transfers := 4
  recording := true
  auditPath := "audit.log"
  verifyMode := .checksum
  direction := .into
  remote := "archive"
  reaperRemote _ := "archive"

/-- A driver that moves what was planned, and whose first `failing` attempts do not pass the
verification. -/
def planDriver (failing : Nat) : (r : Request) → Answer r
  | .deadline _ => none
  | .upload _ e => .ok e.size
  | .verify attempt _ _ =>
    if attempt < failing then .error ⟨.checksumMismatch, "the stored bytes differ", none⟩
    else .ok ()
  | .takePlaintextHash _ => ""
  | .settle .. | .fileDone _ | .recordFailure .. => ()
  | .afford _ | .read .. | .encrypt .. | .commit .. | .createDir _ | .remove .. | .append _ =>
    .ok ()

def tenByteEnd (failing : Nat) : World :=
  ((performed (transferFile fourLanes "copy") tenByteFile).run.eval
    (answers toString (planDriver failing)) (World.start (some 10))).2

theorem tenByteEnd_reached {serve : Prog.Server World Request Answer} {failing : Nat}
    (h : Prog.Run serve (performed (transferFile fourLanes "copy") tenByteFile).run
      (World.start (some 10)) (.ok ()) (tenByteEnd failing)) :
    Script.Reaches serve fourLanes.lanes (Verb.copy.run fourLanes tenByteCopy).run
      (World.start (some 10)) (.done (.ok ())) (tenByteEnd failing) := by
  rw [Verb.run, ← Script.bind_done (transfers fourLanes "copy" tenByteCopy).run]
  exact reaches_transfers (Prog.Run.done _ _) (.cons h rfl (.nil _))

/-- A copy whose only attempt is covered reaches the ceiling and does not pass it. -/
theorem moved_le_limit_ten :
    movedBytes (tenByteEnd 0).log = 10 ∧ movedBytes (tenByteEnd 0).log ≤ 10 := by
  have hrun : Prog.Run ((serves toString fun _ _ => True).given Covered)
      (performed (transferFile fourLanes "copy") tenByteFile).run (World.start (some 10)) (.ok ())
      (tenByteEnd 0) :=
    Prog.run_of_evalGiven (answers toString (planDriver 0)) (fun _ _ _ h => of_decide_eq_true h)
      (serves_answers _ fun _ => trivial) rfl
  exact ⟨by decide, moved_le_limit (tenByteEnd_reached hrun)⟩

/-- The second attempt of a file moves its bytes again, and the claim does not cover them. -/
theorem retry_passes_ceiling :
    ¬∀ p w, Script.Reaches (serves toString fun _ _ => True) fourLanes.lanes
    (Verb.copy.run fourLanes tenByteCopy).run (World.start (some 10)) p w →
    movedBytes w.log ≤ 10 := by
  intro h
  have hrun : Prog.Run (serves toString fun _ _ => True)
      (performed (transferFile fourLanes "copy") tenByteFile).run (World.start (some 10)) (.ok ())
      (tenByteEnd 1) := run_driven (planDriver 1) (fun _ => trivial) _ _
  have hmoved := h _ _ (tenByteEnd_reached hrun)
  revert hmoved
  decide

end Dctl.Transfer
