import Dctl.Transfer.Ceiling

/-! What the counter of `--max-transfer` says between two files.  It adds reservations and
measurements, and agrees with what the uploads measured exactly when every reservation was replaced.
-/

namespace Dctl.Transfer

open Cli ProofKit

inductive Call where
  | transferFile (ctx : Ctx) (op : String) (e : Planned)
  | moveFile (ctx : Ctx) (op : String) (e : Planned)

def Call.job : Call → Job Unit
  | transferFile ctx op e => Transfer.transferFile ctx op e
  | moveFile ctx op e => Transfer.moveFile ctx op e

/-- The file as a task.  Whether the others go on after it failed is not decided here. -/
def Call.task (call : Call) : Prog Request Answer (Except CliError Unit) :=
  call.job.run >>= fun _ => .done (.ok ())

/-- An upload of a file with a planned size uses a claim that no upload of the file used, and the
counter does not overflow. -/
def Claimed (w : World) : (r : Request) → Answer r → Prop
  | .upload _ e, .ok _ => e.size = 0 ∨ w.log.countP (Event.uploads e) <
    w.log.countP (Event.claims e)
  | .afford e, .ok _ => w.budget.spent + e.size ≤ u64Max
  | .settle e actual, _ => w.budget.spent - e.size + actual ≤ u64Max
  | _, _ => True

instance decidableClaimed (w : World) : (r : Request) → (x : Answer r) → Decidable (Claimed w r x)
  | .upload _ _, .ok _ => inferInstanceAs (Decidable (_ ∨ _))
  | .afford _, .ok _ | .settle .., _ => inferInstanceAs (Decidable (_ ≤ _))
  | .upload _ _, .error _ | .afford _, .error _ | .deadline _, _ | .read .., _ | .encrypt .., _
  | .verify .., _ | .commit .., _ | .createDir _, _ | .takePlaintextHash _, _ | .remove .., _
  | .append _, _ | .fileDone _, _ | .recordFailure .., _ => .isTrue trivial

structure Account (limit : Nat) (w : World) (tokens : Multiset (Planned × Nat))
    (held : Multiset Planned) (settled : Nat) : Prop where
  claims : ∀ e, 0 < e.size →
    w.log.countP (Event.claims e) = w.log.countP (Event.uploads e) + held.count e
  moved : movedBytes w.log = settled + (tokens.map Prod.snd).sum
  spent : w.budget.spent =
    settled + (held.map Planned.size).sum + (tokens.map fun t => t.1.size).sum
  ceiling : w.budget.limit = some limit

def Booked (limit : Nat) (w : World) (tokens : Multiset (Planned × Nat)) : Prop :=
  ∃ held settled, Account limit w tokens held settled

section Steps

variable {display : Nat → String} {limit : Nat} {w w' : World}
  {tokens : Multiset (Planned × Nat)} {held : Multiset Planned} {settled : Nat} {e : Planned}
  {n attempt : Nat}

section

variable (h : Account limit w tokens held settled)
include h

theorem Account.pass {ev : Event} (hlog : w'.log = w.log ++ [ev]) (hbudget : w'.budget = w.budget)
    (hmoved : ev.moved = 0) (hclaims : ∀ e, ev.claims e = false)
    (huploads : ∀ e, ev.uploads e = false) :
    Account limit w' tokens held settled where
  claims e he := Holds.pass (h.claims e he) hlog (hclaims e) (huploads e)
  moved := by
    rw [hlog, movedBytes_append, hmoved, h.moved]
    rfl
  spent := by
    rw [hbudget]
    exact h.spent
  ceiling := by
    rw [hbudget]
    exact h.ceiling

theorem Account.afford {x : Except CliError Unit} (hlog : w'.log = w.log ++ [⟨.afford e, x⟩])
    (hanswer : (x, w'.budget) = w.budget.afford display e.size e.entry.dest)
    (hclaimed : Claimed w (.afford e) x) : Booked limit w' tokens := by
  rcases Budget.afford_granted h.ceiling hanswer (by rintro _ rfl; exact hclaimed) with
    ⟨rfl, hb⟩ | ⟨⟨error, rfl⟩, hb⟩
  · refine ⟨e ::ₘ held, settled, fun e' he' => Holds.afford (h.claims e' he') hlog, ?_, ?_, ?_⟩
    · rw [hlog, movedBytes_append, h.moved]
      rfl
    · rw [hb, h.spent, Multiset.map_cons, Multiset.sum_cons]
      simp only
      omega
    · rw [hb]
      exact h.ceiling
  · exact ⟨held, settled, h.pass hlog hb rfl (fun _ => rfl) fun _ => rfl⟩

theorem Account.exists_claim (hclaimed : Claimed w (.upload attempt e) (.ok n)) :
    ∃ rest : Multiset Planned, (held.map Planned.size).sum = (rest.map Planned.size).sum + e.size ∧
      ∀ e', 0 < e'.size → held.count e' = rest.count e' + if e' = e then 1 else 0 := by
  by_cases hzero : e.size = 0
  · refine ⟨held, by rw [hzero, Nat.add_zero], ?_⟩
    intro e' he'
    have hne : e' ≠ e := by
      rintro rfl
      omega
    rw [if_neg hne, Nat.add_zero]
  · have hcount := hclaimed.resolve_left hzero
    have hmem : e ∈ held := by
      rw [← Multiset.one_le_count_iff_mem]
      have := h.claims e (Nat.pos_of_ne_zero hzero)
      omega
    obtain ⟨rest, rfl⟩ := Multiset.exists_cons_of_mem hmem
    exact ⟨rest, by rw [Multiset.map_cons, Multiset.sum_cons, Nat.add_comm],
      fun e' _ => Multiset.count_cons ..⟩

theorem Account.upload (hlog : w'.log = w.log ++ [⟨.upload attempt e, .ok n⟩])
    (hbudget : w'.budget = w.budget) (hclaimed : Claimed w (.upload attempt e) (.ok n)) :
    Booked limit w' ((e, n) ::ₘ tokens) := by
  obtain ⟨rest, hsum, hcount⟩ := h.exists_claim hclaimed
  refine ⟨rest, settled, fun e' he' => Holds.upload (h.claims e' he') (hcount e' he') hlog,
    moved_upload h.moved hlog, ?_, ?_⟩
  · rw [hbudget, h.spent, hsum, Multiset.map_cons, Multiset.sum_cons]
    simp only
    omega
  · rw [hbudget]
    exact h.ceiling

end

theorem Account.settle (h : Account limit w ((e, n) ::ₘ tokens) held settled)
    (hlog : w'.log = w.log ++ [⟨.settle e n, ()⟩])
    (hbudget : w'.budget = w.budget.settle e.size n) (hclaimed : Claimed w (.settle e n) ()) :
    Account limit w' tokens held (settled + n) := by
  have hspent := h.spent
  rw [Multiset.map_cons, Multiset.sum_cons] at hspent
  refine ⟨fun e' he' => Holds.pass (h.claims e' he') hlog rfl rfl, moved_settle h.moved hlog,
    ?_, ?_⟩
  · rw [hbudget, Budget.settle_spent h.ceiling hclaimed, hspent]
    simp only
    omega
  · rw [hbudget]
    exact h.ceiling

theorem Account.spent_eq_iff (h : Account limit w 0 held settled) :
    w.budget.spent = movedBytes w.log ↔
      ∀ e, 0 < e.size → w.log.countP (Event.uploads e) = w.log.countP (Event.claims e) := by
  have hspent := h.spent
  have hmoved := h.moved
  rw [Multiset.map_zero, Multiset.sum_zero] at hspent hmoved
  constructor
  · intro heq e he
    have hsum : (held.map Planned.size).sum = 0 := by omega
    have hcount : held.count e = 0 := by
      rw [Multiset.count_eq_zero]
      intro hmem
      have := Multiset.sum_eq_zero_iff.mp hsum e.size (Multiset.mem_map_of_mem _ hmem)
      omega
    have := h.claims e he
    omega
  · intro hall
    have hsum : (held.map Planned.size).sum = 0 := by
      apply Multiset.sum_eq_zero_iff.mpr
      intro size hsize
      obtain ⟨e, hmem, rfl⟩ := Multiset.mem_map.mp hsize
      by_contra hne
      have hpos : 0 < e.size := Nat.pos_of_ne_zero hne
      have := h.claims e hpos
      have := hall e hpos
      have := Multiset.one_le_count_iff_mem.mpr hmem
      omega
    omega

end Steps

section Runs

variable {display : Nat → String} {admits : (r : Request) → Answer r → Prop} {limit : Nat}

theorem Booked.pass {w w' : World} {tokens : Multiset (Planned × Nat)} {r : Request} {x : Answer r}
    (h : Booked limit w tokens) (hserve : (serves display admits).given Claimed w r x w')
    (hr : r.passes = true) : Booked limit w' tokens := by
  obtain ⟨held, settled, h⟩ := h
  obtain ⟨hclaimed, hlog, hanswer⟩ := hserve
  cases r
  case upload attempt e => cases hr
  case settle e n => cases hr
  case afford e => exact h.afford hlog hanswer hclaimed
  all_goals exact ⟨held, settled, h.pass hlog hanswer.2 rfl (fun _ => rfl) fun _ => rfl⟩

theorem booked_billing : Billing ((serves display admits).given Claimed) (Booked limit) where
  pass hr h hserve := h.pass hserve hr
  refused h hserve := by
    obtain ⟨held, settled, h⟩ := h
    obtain ⟨-, hlog, -, hbudget⟩ := hserve
    exact ⟨held, settled, h.pass hlog hbudget rfl (fun _ => rfl) fun _ => rfl⟩
  upload h hserve := by
    obtain ⟨held, settled, h⟩ := h
    obtain ⟨hclaimed, hlog, -, hbudget⟩ := hserve
    exact h.upload hlog hbudget hclaimed
  settle h hserve := by
    obtain ⟨held, settled, h⟩ := h
    obtain ⟨hclaimed, hlog, hbudget⟩ := hserve
    exact ⟨held, _, h.settle hlog hbudget hclaimed⟩

theorem booked_start (limit : Nat) : Booked limit (World.start (some limit)) 0 :=
  ⟨0, 0, ⟨fun _ _ => rfl, rfl, rfl, rfl⟩⟩

theorem Billing.task {S : Type} {serve : Prog.Server S Request Answer}
    {I : S → Multiset (Planned × Nat) → Prop} (h : Billing serve I) (call : Call) :
    call.task.Quiet serve I := by
  cases call with
  | transferFile ctx op e => exact h.transferFile.bind fun _ => Prog.quiet_done _
  | moveFile ctx op e => exact h.moveFile.bind fun _ => Prog.quiet_done _

instance nonempty_cliError : Nonempty CliError := ⟨⟨.fatalError, "", none⟩⟩

theorem booked_of_idle {calls : List Call} {n : Nat}
    {p : Script Request Answer CliError (Except CliError Unit)} {w : World}
    (h : Script.Reaches ((serves display admits).given Claimed) n
      (Script.inLanes (calls.map Call.task)) (World.start (some limit)) p w) (hidle : p.Idle) :
    Booked limit w 0 := by
  apply Script.idle_inLanes _ (booked_start limit) h hidle
  intro q hq
  obtain ⟨call, -, rfl⟩ := List.mem_map.mp hq
  exact booked_billing.task call

end Runs

/-- Files side by side, in any number of lanes and any order of their steps, with any driver: as
long as no upload uses a claim twice, the counter agrees with what the uploads measured, at every
moment without a file in flight, exactly when every file that was claimed for had its upload. -/
theorem spent_eq_moved_iff {display : Nat → String} {limit n : Nat} {calls : List Call}
    {p : Script Request Answer CliError (Except CliError Unit)} {w : World}
    (h : Script.Reaches ((serves display fun _ _ => True).given Claimed) n
      (Script.inLanes (calls.map Call.task)) (World.start (some limit)) p w) (hidle : p.Idle) :
    w.budget.spent = movedBytes w.log ↔
      ∀ e, 0 < e.size → w.log.countP (Event.uploads e) = w.log.countP (Event.claims e) := by
  obtain ⟨held, settled, hbooks⟩ := booked_of_idle h hidle
  exact hbooks.spent_eq_iff

def tenByteCall : Call := .transferFile fourLanes "copy" tenByteFile

/-- The end of the file alone, when the first `failing` attempts do not pass the verification. -/
def callEnd (failing : Nat) : World :=
  (tenByteCall.task.eval (answers toString (planDriver failing)) (World.start (some 10))).2

theorem callEnd_reached {serve : Prog.Server World Request Answer} {failing : Nat}
    (h : Prog.Run serve tenByteCall.task (World.start (some 10)) (.ok ()) (callEnd failing)) :
    Script.Reaches serve 1 (Script.inLanes ([tenByteCall].map Call.task)) (World.start (some 10))
      (.done (.ok ())) (callEnd failing) := by
  have hreach : Script.Reaches serve 1
      (Script.inLanes ([tenByteCall].map Call.task) >>= Script.done) (World.start (some 10))
      (.done (.ok ())) (callEnd failing) :=
    Script.InOrder.reaches_inLanes Nat.one_pos (.cons h rfl (.nil _))
  rwa [Script.bind_done] at hreach

/-- A file that is verified at its first attempt is charged what it moved. -/
theorem spent_eq_moved_iff_ten :
    (callEnd 0).budget.spent = 10 ∧ movedBytes (callEnd 0).log = 10 ∧
      ((callEnd 0).budget.spent = movedBytes (callEnd 0).log ↔
        ∀ e, 0 < e.size → (callEnd 0).log.countP (Event.uploads e) =
          (callEnd 0).log.countP (Event.claims e)) := by
  have hrun : Prog.Run ((serves toString fun _ _ => True).given Claimed) tenByteCall.task
      (World.start (some 10)) (.ok ()) (callEnd 0) :=
    Prog.run_of_evalGiven (answers toString (planDriver 0)) (fun _ _ _ h => of_decide_eq_true h)
      (serves_answers _ fun _ => trivial) rfl
  exact ⟨by decide, by decide, spent_eq_moved_iff (callEnd_reached hrun) trivial⟩

/-- A file whose first attempt is not verified is uploaded twice and charged once. -/
theorem retry_uncharged : ¬∀ (calls : List Call) p w,
    Script.Reaches (serves toString fun _ _ => True) 1 (Script.inLanes (calls.map Call.task))
      (World.start (some 10)) p w → p.Idle → w.budget.spent = movedBytes w.log := by
  intro h
  have hrun : Prog.Run (serves toString fun _ _ => True) tenByteCall.task (World.start (some 10))
      (.ok ()) (callEnd 1) := run_driven (planDriver 1) (fun _ => trivial) _ _
  have hspent := h _ _ _ (callEnd_reached hrun) trivial
  revert hspent
  decide

end Dctl.Transfer
