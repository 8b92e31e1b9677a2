import Dctl.ProofKit.Prog
import Mathlib.Logic.Relation

/-! A bounded channel between one sender and one receiver.  The sender waits while the channel is
full, the receiver while it is empty; an end that is through with its program is dropped.  What the
receiver does is what it does with the list of all messages that the sender has to send: the order
in which the two take their turns does not matter. -/

namespace Dctl.ProofKit

/-- What a receiver asks for: the next message, or something of others. -/
inductive Receive (X : Type) where
  | recv
  | other (x : X)

/-- The next message is missing when the sender was dropped. -/
@[reducible] def Receive.Answer {X : Type} (M : Type) (B : X → Type) : Receive X → Type
  | .recv => Option M
  | .other x => B x

abbrev Sender (M α : Type) := Prog M (fun _ => Bool) α

abbrev Receiver (M : Type) {X : Type} (B : X → Type) (β : Type) :=
  Prog (Receive X) (Receive.Answer M B) β

variable {M X T α β : Type} {B : X → Type}

def Prog.sends : Sender M α → List M
  | .done _ => []
  | .ask m next => m :: (next true).sends

/-- A channel with its two ends, and the state of what the receiver asks others for. -/
structure Pipe (M : Type) {X : Type} (B : X → Type) (T α β : Type) where
  queue : List M
  sender : Sender M α
  receiver : Receiver M B β
  state : T

namespace Pipe

/-- One step of one end. -/
inductive Step (capacity : Nat) (others : Prog.Server T X B) (p : Pipe M B T α β) :
    Pipe M B T α β → Prop
  | send {m : M} {next : Bool → Sender M α} :
      p.sender = .ask m next → (∀ b, p.receiver ≠ .done b) → p.queue.length < capacity →
      Step capacity others p { p with queue := p.queue ++ [m], sender := next true }
  | refused {m : M} {next : Bool → Sender M α} {b : β} :
      p.sender = .ask m next → p.receiver = .done b →
      Step capacity others p { p with sender := next false }
  | recv {m : M} {rest : List M} {next : Option M → Receiver M B β} :
      p.receiver = .ask .recv next → p.queue = m :: rest →
      Step capacity others p { p with queue := rest, receiver := next (some m) }
  | closed {a : α} {next : Option M → Receiver M B β} :
      p.receiver = .ask .recv next → p.queue = [] → p.sender = .done a →
      Step capacity others p { p with receiver := next none }
  | other {x : X} {next : B x → Receiver M B β} {y : B x} {t : T} :
      p.receiver = .ask (.other x) next → others p.state x y t →
      Step capacity others p { p with receiver := next y, state := t }

/-- Some steps of the two ends. -/
def Steps (capacity : Nat) (others : Prog.Server T X B) :
    Pipe M B T α β → Pipe M B T α β → Prop :=
  Relation.ReflTransGen (Step capacity others)

def reader (others : Prog.Server T X B) :
    Prog.Server (List M × T) (Receive X) (Receive.Answer M B) :=
  fun s r x s' => match r, x with
    | .recv, none => s.1 = [] ∧ s' = s
    | .recv, some m => ∃ rest, s.1 = m :: rest ∧ s' = (rest, s.2)
    | .other a, y => others s.2 a y s'.2 ∧ s'.1 = s.1

variable {capacity : Nat} {others : Prog.Server T X B} {p p' : Pipe M B T α β}
  {I : List M × T → Prop} {post : β → List M × T → Prop}

/-- Whatever comes, the receiver keeps `I` and ends in `post`, and what it has still to take is what
is queued and what the sender has still to send. -/
def Reads (others : Prog.Server T X B) (I : List M × T → Prop) (post : β → List M × T → Prop)
    (p : Pipe M B T α β) : Prop :=
  ∃ left, p.receiver.Always (reader others) I post (left, p.state) ∧
    ((∀ b, p.receiver ≠ .done b) → left = p.queue ++ p.sender.sends)

theorem Reads.step (h : p.Reads others I post) (hstep : Step capacity others p p') :
    p'.Reads others I post := by
  obtain ⟨left, halways, hleft⟩ := h
  cases hstep with
  | @send m next hsender hreceiver _ =>
    refine ⟨left, halways, fun _ => ?_⟩
    rw [hleft hreceiver, hsender, List.append_assoc]
    rfl
  | refused _ hreceiver => exact ⟨left, halways, fun hgoing => absurd hreceiver (hgoing _)⟩
  | @recv m rest next hreceiver hqueue =>
    have hgoing : ∀ b, p.receiver ≠ .done b := by
      rw [hreceiver]
      exact fun b => nofun
    have hall := hleft hgoing
    rw [hqueue] at hall
    rw [hreceiver] at halways
    exact ⟨rest ++ p.sender.sends, halways.2 (some m) _ ⟨_, hall, rfl⟩, fun _ => rfl⟩
  | @closed a next hreceiver hqueue hsender =>
    have hgoing : ∀ b, p.receiver ≠ .done b := by
      rw [hreceiver]
      exact fun b => nofun
    have hall := hleft hgoing
    rw [hqueue, hsender] at hall
    rw [hreceiver] at halways
    refine ⟨left, halways.2 none _ ⟨hall, rfl⟩, fun _ => ?_⟩
    rw [hall, hqueue, hsender]
  | @other x next y t hreceiver hserve =>
    have hgoing : ∀ b, p.receiver ≠ .done b := by
      rw [hreceiver]
      exact fun b => nofun
    rw [hreceiver] at halways
    exact ⟨left, halways.2 y (left, t) ⟨hserve, rfl⟩, fun _ => hleft hgoing⟩

theorem steps_always {s : Sender M α} {r : Receiver M B β} {t : T}
    (h : r.Always (reader others) I post (s.sends, t))
    (hsteps : Steps capacity others ⟨[], s, r, t⟩ p) :
    (∃ left, I (left, p.state)) ∧ ∀ b, p.receiver = .done b → ∃ left, post b (left, p.state) := by
  have hreads : p.Reads others I post := by
    induction hsteps with
    | refl => exact ⟨s.sends, h, fun _ => rfl⟩
    | tail _ hstep ih => exact ih.step hstep
  obtain ⟨left, halways, -⟩ := hreads
  refine ⟨⟨left, halways.here⟩, ?_⟩
  intro b hb
  rw [hb] at halways
  exact ⟨left, halways.2⟩

end Pipe

end Dctl.ProofKit
