import Dctl.Store.Handover

/-! A backend that makes any calls of its end of the pipe: what it is handed, and when it gets the
permission to commit. -/

namespace Dctl.Store.Incoming

open ProofKit

inductive Call where
  | window
  | fill (want : Nat)
  | sealed
  | agreed
  deriving DecidableEq

inductive Outcome where
  | window (x : Except StoreError (Option Bytes))
  | fill (want : Nat) (x : Except StoreError Bytes)
  | sealed (x : Except StoreError ContentHash)
  | agreed (x : Except StoreError ContentHash)

namespace Outcome

def bytes : Outcome → Bytes
  | .window (.ok (some b)) => b
  | .fill _ (.ok d) => d
  | _ => []

def failed : Outcome → Bool
  | .window (.error _) | .fill _ (.error _) => true
  | _ => false

def isSealed : Outcome → Bool
  | .sealed _ => true
  | _ => false

end Outcome

variable {X : Type} {B : X → Type}

def Call.make (digest : HashAlgo → Bytes → Bytes) (s : ObjectStream) :
    Call → Receiver Window B (Outcome × ObjectStream)
  | .window => s.window >>= fun end' => .done (.window end'.1, end'.2)
  | .fill want => s.fill want >>= fun end' => .done (.fill want end'.1, end'.2)
  | .sealed => s.sealed digest >>= fun end' => .done (.sealed end'.1, end'.2)
  | .agreed => .done (.agreed (s.agreed digest).1, (s.agreed digest).2)

/-- A backend that makes the given calls, whatever they give. -/
def consume (digest : HashAlgo → Bytes → Bytes) :
    List Call → ObjectStream → Receiver Window B (List Outcome)
  | [], _ => .done []
  | c :: calls, s => c.make digest s >>= fun end' =>
    consume digest calls end'.2 >>= fun outs => .done (end'.1 :: outs)

/-- What a call may give when `handed` was handed out before it. -/
def Right (o : Carried) (handed : Bytes) : Outcome → Prop
  | .window (.ok (some b)) => b ≠ [] ∧ handed ++ b <+: o.all
  | .window (.ok none) => o.finished ∧ handed = o.all
  | .fill want (.ok d) => d.length ≤ want ∧ handed ++ d <+: o.all ∧
      (d.length < want → o.finished ∧ handed ++ d = o.all)
  | .sealed (.ok hash) | .agreed (.ok hash) => o.finished ∧ o.all.length = o.len ∧
      handed = o.all ∧ hash = ⟨o.algo, o.digest o.algo o.all⟩
  | _ => True

/-- Every call gives what it may give. -/
def Faithful (o : Carried) : Bytes → List Outcome → Prop
  | _, [] => True
  | handed, x :: outs => Right o handed x ∧ Faithful o (handed ++ x.bytes) outs

/-- A call of `sealed` that another call follows comes when every byte that the producer sends has
been handed out, or when the stream has failed. -/
def SealsLate (sent : Bytes) : Bytes → Bool → List Outcome → Prop
  | _, _, [] => True
  | handed, failed, x :: outs =>
    (x.isSealed = true → outs ≠ [] → handed = sent ∨ failed = true) ∧
      SealsLate sent (handed ++ x.bytes) (failed || x.failed) outs

def delivered (outs : List Outcome) : Bytes := outs.flatMap Outcome.bytes

theorem Right.prefix_all {o : Carried} {handed : Bytes} {x : Outcome} (h : Right o handed x)
    (hhanded : handed <+: o.all) : handed ++ x.bytes <+: o.all := by
  cases x with
  | window y =>
    match y, h with
    | .ok (some b), h => exact h.2
    | .ok none, _ => simpa [Outcome.bytes] using hhanded
    | .error e, _ => simpa [Outcome.bytes] using hhanded
  | fill want y =>
    cases y with
    | ok d => exact h.2.1
    | error e => simpa [Outcome.bytes] using hhanded
  | «sealed» y => simpa [Outcome.bytes] using hhanded
  | agreed y => simpa [Outcome.bytes] using hhanded

theorem Faithful.delivered {o : Carried} {handed : Bytes} {outs : List Outcome}
    (h : Faithful o handed outs) (hhanded : handed <+: o.all) :
    handed ++ delivered outs <+: o.all := by
  induction outs generalizing handed with
  | nil => simpa [Incoming.delivered] using hhanded
  | cons x outs ih =>
    have := ih h.2 (h.1.prefix_all hhanded)
    rwa [List.append_assoc] at this

section Runs

variable {o : Carried} {s : ObjectStream} {handed : Bytes} {failed : Bool} {left : List Window}
  {T : Type} {others : Prog.Server T X B} {t : T}

abbrev Whatever (T : Type) : T → Prop := fun _ => True

theorem Lost.nextMessage_gives (h : Lost o s left) :
    Gives others (Whatever T) t left s.nextMessage fun x s' left' =>
      (∃ e, x = .error e) ∧ Lost o s' left' := by
  rw [ObjectStream.nextMessage, h.ended]
  refine ⟨trivial, ?_⟩
  intro message st hread
  cases message with
  | none =>
    obtain ⟨-, rfl⟩ := hread
    exact ⟨trivial, rfl, ⟨_, rfl⟩, h⟩
  | some m =>
    obtain ⟨rest, hleft, -⟩ := hread
    rw [h.left] at hleft
    cases hleft

theorem Lost.window_gives (h : Lost o s left) :
    Gives others (Whatever T) t left s.window fun x s' left' =>
      (∃ e, x = .error e) ∧ Lost o s' left' := by
  rw [ObjectStream.window, if_pos h.pending]
  apply h.nextMessage_gives.bind
  rintro _ s' left' - ⟨⟨e, rfl⟩, hlost⟩
  exact gives_done trivial ⟨⟨e, rfl⟩, hlost⟩

theorem Lost.fill_gives {want : Nat} (h : Lost o s left) :
    Gives others (Whatever T) t left (s.fill want) fun x s' left' =>
      ((∃ e, x = .error e) ∨ want = 0 ∧ x = .ok []) ∧ Lost o s' left' := by
  rw [ObjectStream.fill, ObjectStream.fillFrom]
  split
  next =>
    rw [ObjectStream.topUp, dif_pos h.pending]
    apply h.nextMessage_gives.bind
    rintro _ s' left' - ⟨⟨e, rfl⟩, hlost⟩
    exact gives_done trivial ⟨.inl ⟨e, rfl⟩, hlost⟩
  next hwant => exact gives_done trivial ⟨.inr ⟨Nat.eq_zero_of_not_pos hwant, rfl⟩, h⟩

/-- Where the stream is between two calls. -/
def Kept (o : Carried) (s : ObjectStream) (handed : Bytes) (failed : Bool) (left : List Window) :
    Prop :=
  Tracks o s handed left ∧ failed = false ∨ Lost o s left ∧ handed <+: o.all

/-- One call gives what it may give, and a call of `sealed` that finds more bytes is the last. -/
def Keeps (o : Carried) (handed : Bytes) (failed : Bool) (x : Outcome) (s : ObjectStream)
    (left : List Window) : Prop :=
  Right o handed x ∧ ((x.isSealed = true → handed = o.sent ∨ failed = true) →
    Kept o s (handed ++ x.bytes) (failed || x.failed) left)

theorem Gives.make {α : Type} {p : Receiver Window B (Streamed α)}
    {f : Except StoreError α → Outcome}
    {post : Except StoreError α → ObjectStream → List Window → Prop}
    (h : Gives others (Whatever T) t left p post)
    (hpost : ∀ x s left, post x s left → Keeps o handed failed (f x) s left) :
    (p >>= fun end' => .done (f end'.1, end'.2)).Always (Pipe.reader others) (fun _ => True)
      (fun end' st => Keeps o handed failed end'.1 end'.2 st.1) (left, t) := by
  apply Prog.Always.bind
  apply h.mono fun _ _ => trivial
  rintro ⟨x, s⟩ st - ⟨-, hx⟩
  exact ⟨trivial, hpost x s st.1 hx⟩

theorem Tracks.keeps (h : Tracks o s handed left) (hall : o.all.length < 2 ^ 64) (c : Call) :
    (c.make o.digest s).Always (Pipe.reader others) (fun _ => True)
      (fun end' st => Keeps o handed false end'.1 end'.2 st.1) (left, t) := by
  cases c with
  | window =>
    apply (window_gives trivial h).make
    rintro x s' left' hx
    match x, hx with
    | .ok (some b), hx => exact ⟨⟨hx.1, hx.2.prefix_all⟩, fun _ => .inl ⟨hx.2, rfl⟩⟩
    | .ok none, hx =>
      refine ⟨⟨(hx.1.ended hx.2).2.2.1, (hx.1.ended hx.2).2.2.2.1⟩, fun _ => .inl ⟨?_, rfl⟩⟩
      simpa [Outcome.bytes] using hx.1
    | .error e, hx =>
      exact ⟨trivial, fun _ => .inr ⟨hx, by simpa [Outcome.bytes] using h.prefix_all⟩⟩
  | fill want =>
    apply (fill_gives trivial h).make
    rintro x s' left' hx
    cases x with
    | ok d =>
      obtain ⟨hlen, htracks, hshort⟩ := hx
      refine ⟨⟨hlen, htracks.prefix_all, fun hless => ?_⟩, fun _ => .inl ⟨htracks, rfl⟩⟩
      exact ⟨(htracks.ended (hshort hless)).2.2.1, (htracks.ended (hshort hless)).2.2.2.1⟩
    | error e => exact ⟨trivial, fun _ => .inr ⟨hx, by simpa [Outcome.bytes] using h.prefix_all⟩⟩
  | «sealed» =>
    apply (sealed_gives trivial h hall).make
    rintro x s' left' hx
    cases x with
    | ok hash =>
      refine ⟨hx.2, fun _ => .inl ⟨?_, rfl⟩⟩
      simpa [Outcome.bytes] using hx.1
    | error e =>
      refine ⟨trivial, fun hlate => ?_⟩
      have hsent := (hlate rfl).resolve_right Bool.false_ne_true
      simp only [Outcome.bytes, List.append_nil]
      exact (hx hsent).elim (fun htracks => .inl ⟨htracks, rfl⟩) fun hlost =>
        .inr ⟨hlost, h.prefix_all⟩
  | agreed =>
    obtain ⟨htracks, hok⟩ := h.agreed hall
    refine ⟨trivial, ?_, fun _ => .inl ⟨by simpa [Outcome.bytes] using htracks, rfl⟩⟩
    show Right o handed (.agreed (s.agreed o.digest).1)
    cases hagreed : (s.agreed o.digest).1 with
    | error e => trivial
    | ok hash => exact hok hash hagreed

theorem Lost.keeps (h : Lost o s left) (hhanded : handed <+: o.all) (c : Call) :
    (c.make o.digest s).Always (Pipe.reader others) (fun _ => True)
      (fun end' st => Keeps o handed failed end'.1 end'.2 st.1) (left, t) := by
  have hnothing : ∀ s' left', Lost o s' left' → ∀ failed', Kept o s' (handed ++ []) failed' left' :=
    fun s' left' hlost failed' => .inr ⟨hlost, by rwa [List.append_nil]⟩
  cases c with
  | window =>
    apply h.window_gives.make
    rintro _ s' left' ⟨⟨e, rfl⟩, hlost⟩
    exact ⟨trivial, fun _ => hnothing s' left' hlost _⟩
  | fill want =>
    apply h.fill_gives.make
    rintro _ s' left' ⟨⟨e, rfl⟩ | ⟨rfl, rfl⟩, hlost⟩
    · exact ⟨trivial, fun _ => hnothing s' left' hlost _⟩
    · exact ⟨⟨Nat.le_refl 0, by rwa [List.append_nil], nofun⟩, fun _ => hnothing s' left' hlost _⟩
  | «sealed» =>
    have hsealed : Gives others (Whatever T) t left (s.sealed o.digest) fun x s' left' =>
        (∃ e, x = .error e) ∧ Lost o s' left' := by
      apply h.window_gives.bind
      rintro _ s' left' - ⟨⟨e, rfl⟩, hlost⟩
      exact gives_done trivial ⟨⟨e, rfl⟩, hlost⟩
    apply hsealed.make
    rintro _ s' left' ⟨⟨e, rfl⟩, hlost⟩
    exact ⟨trivial, fun _ => hnothing s' left' hlost _⟩
  | agreed =>
    have hagreed : s.agreed o.digest = (.error (.backend ("this object's digest was asked for " ++
        "before all of its bytes had been read, so nothing about it has been established")),
          s) := by
      rw [ObjectStream.agreed, if_pos (by simp [h.ended])]
      rfl
    rw [Call.make, hagreed]
    exact ⟨trivial, trivial, fun _ => hnothing s left h _⟩

theorem Kept.keeps (h : Kept o s handed failed left) (hall : o.all.length < 2 ^ 64) (c : Call) :
    (c.make o.digest s).Always (Pipe.reader others) (fun _ => True)
      (fun end' st => Keeps o handed failed end'.1 end'.2 st.1) (left, t) := by
  rcases h with ⟨htracks, rfl⟩ | ⟨hlost, hhanded⟩
  · exact htracks.keeps hall c
  · exact hlost.keeps hhanded c

theorem always_anything {β : Type} (p : Receiver Window B β) (st : List Window × T) :
    p.Always (Pipe.reader others) (fun _ => True) (fun _ _ => True) st := by
  induction p generalizing st with
  | done b => exact ⟨trivial, trivial⟩
  | ask r next ih => exact ⟨trivial, fun x st' _ => ih x st'⟩

theorem consume_ne_nil {digest : HashAlgo → Bytes → Bytes} {calls : List Call} (hcalls : calls ≠ [])
    (st : List Window × T) :
    (consume digest calls s).Always (Pipe.reader others) (fun _ => True)
      (fun outs _ => outs ≠ []) st := by
  cases calls with
  | nil => exact absurd rfl hcalls
  | cons c calls =>
    apply Prog.Always.bind
    apply (always_anything _ st).mono fun _ _ => trivial
    intro end' st' _ _
    apply Prog.Always.bind
    apply (always_anything _ st').mono fun _ _ => trivial
    exact fun outs st'' _ _ => ⟨trivial, List.cons_ne_nil _ _⟩

theorem Kept.consume (h : Kept o s handed failed left) (hall : o.all.length < 2 ^ 64)
    (calls : List Call) :
    (consume o.digest calls s).Always (Pipe.reader others) (fun _ => True)
      (fun outs _ => SealsLate o.sent handed failed outs → Faithful o handed outs) (left, t) := by
  induction calls generalizing s handed failed left t with
  | nil => exact ⟨trivial, fun _ => trivial⟩
  | cons c calls ih =>
    apply Prog.Always.bind
    apply (h.keeps hall c).mono fun _ _ => trivial
    rintro ⟨x, s'⟩ ⟨left', t'⟩ - ⟨hright, hkept⟩
    apply Prog.Always.bind
    by_cases hlate : x.isSealed = true → handed = o.sent ∨ failed = true
    · apply (ih (hkept hlate)).mono fun _ _ => trivial
      exact fun outs _ _ houts => ⟨trivial, fun hseals => ⟨hright, houts hseals.2⟩⟩
    · -- The stream lost a window: this was the last call, or the calls are not as they should be.
      cases calls with
      | nil => exact ⟨trivial, trivial, fun _ => ⟨hright, trivial⟩⟩
      | cons c' calls =>
        apply (consume_ne_nil (List.cons_ne_nil c' calls) _).mono fun _ _ => trivial
        intro outs _ _ houts
        exact ⟨trivial, fun hseals => absurd (fun hsealed => hseals.1 hsealed houts) hlate⟩

end Runs

section Whole

variable (digest : HashAlgo → Bytes → Bytes) (algo : HashAlgo) (ops : List WriterOp)
  (ending : Ending)
  (len : Nat)

def carried : Carried where
  digest := digest
  algo := algo
  len := len
  all := written ops (ObjectWriter.new algo)
  sent := windowBytes (produce digest ops ending (ObjectWriter.new algo)).sends
  finished := ending = .finish

theorem tracks_new :
    Tracks (carried digest algo ops ending len) (ObjectStream.new len algo) []
      (produce digest ops ending (ObjectWriter.new algo)).sends where
  going _ := ⟨@honest_produce digest algo (ObjectWriter.new algo) [] ops ending rfl rfl, rfl⟩
  ended := nofun
  hasher := by
    rintro _ ⟨⟩
    rfl
  consumed := rfl
  algo := rfl
  len := rfl

abbrev nobody : Prog.Server Unit Empty (fun _ => Empty) := fun _ x => nomatch x

/-- A run of both ends, from their start, in which the backend's calls gave `outs`. -/
def RunGives (calls : List Call) (outs : List Outcome) : Prop :=
  ∃ p, Pipe.Steps windowsInFlight nobody ⟨[], produce digest ops ending (ObjectWriter.new algo),
    consume digest calls (ObjectStream.new len algo), ()⟩ p ∧ p.receiver = .done outs

variable {digest algo ops ending len}

theorem RunGives.faithful {calls : List Call} {outs : List Outcome}
    (h : RunGives digest algo ops ending len calls outs)
    (hall : (written ops (ObjectWriter.new algo)).length < 2 ^ 64)
    (hlate : SealsLate (carried digest algo ops ending len).sent [] false outs) :
    Faithful (carried digest algo ops ending len) [] outs := by
  obtain ⟨p, hsteps, hdone⟩ := h
  have hkept : Kept (carried digest algo ops ending len) (ObjectStream.new len algo) [] false
      (produce digest ops ending (ObjectWriter.new algo)).sends :=
    .inl ⟨tracks_new digest algo ops ending len, rfl⟩
  obtain ⟨left, hpost⟩ := (Pipe.steps_always (hkept.consume hall calls) hsteps).2 outs hdone
  exact hpost hlate

end Whole

end Dctl.Store.Incoming
