import Dctl.Store.Incoming

/-! What the two ends of a pipe do to an object: the messages that the producer sends for what was
written, and what each operation of the backend's end does with the messages that are left. -/

namespace Dctl.Store.Incoming

open ProofKit List

variable {digest : HashAlgo → Bytes → Bytes} {algo : HashAlgo}

/-- A call of the producer that does not end the object. -/
inductive WriterOp where
  | write (data : Bytes)
  | flush

/-- How the producer ends: it declares the object complete, names a failure, or is dropped. -/
inductive Ending where
  | finish
  | fail (why : String)
  | vanish
  deriving DecidableEq

/-- A producer that makes the given calls, whatever they give. -/
def produce (digest : HashAlgo → Bytes → Bytes) :
    List WriterOp → Ending → ObjectWriter → Sender Window Unit
  | [], .finish, w => w.finish digest >>= fun _ => .done ()
  | [], .fail why, _ => ObjectWriter.fail why
  | [], .vanish, _ => .done ()
  | .write data :: ops, e, w => w.write data >>= fun end' => produce digest ops e end'.2
  | .flush :: ops, e, w => w.flush >>= fun end' => produce digest ops e end'.2

/-- The bytes that the calls of the producer take, while the backend is there. -/
def written : List WriterOp → ObjectWriter → Bytes
  | [], _ => []
  | .write data :: ops, w =>
    let end' := (w.write data).answered fun _ => true
    data.take (match end'.1 with
      | .ok n => n
      | .error _ => 0) ++ written ops end'.2
  | .flush :: ops, w => written ops (w.flush.answered fun _ => true).2

def windowBytes (messages : List Window) : Bytes :=
  messages.flatMap fun
    | .bytes b _ => b
    | _ => []

@[simp] theorem windowBytes_cons (m : Window) (messages : List Window) :
    windowBytes (m :: messages) = (match m with
      | .bytes b _ => b
      | _ => []) ++ windowBytes messages := by
  rw [windowBytes, flatMap_cons]
  rfl

@[simp] theorem windowBytes_nil : windowBytes [] = [] := rfl

/-- Messages that follow the bytes `sofar` of an object whose bytes are `all`: they go on with it,
and end with its digest if it is finished, and with a failure or in silence if it is not. -/
def Honest (digest : HashAlgo → Bytes → Bytes) (algo : HashAlgo) (all : Bytes) (finished : Prop) :
    Bytes → List Window → Prop
  | sofar, [] => ¬finished ∧ sofar <+: all
  | sofar, .bytes b _ :: rest => Honest digest algo all finished (sofar ++ b) rest
  | sofar, .done d :: rest => rest = [] ∧ finished ∧ sofar = all ∧ d = ⟨algo, digest algo all⟩
  | sofar, .failed _ :: rest => rest = [] ∧ ¬finished ∧ sofar <+: all

theorem Honest.prefix_all {all sofar : Bytes} {finished : Prop} {messages : List Window}
    (h : Honest digest algo all finished sofar messages) : sofar <+: all := by
  induction messages generalizing sofar with
  | nil => exact h.2
  | cons m rest ih =>
    cases m with
    | bytes b _ => exact (prefix_append sofar b).trans (ih h)
    | done d =>
      obtain ⟨-, -, rfl, -⟩ := h
      exact prefix_refl sofar
    | failed why => exact h.2.2

section Writer

variable {w : ObjectWriter} {sofar : Bytes} {finished : Prop} {β : Type}

theorem honest_sendWindow {f : Written Unit → Sender Window β} {all : Bytes}
    (h :
      Honest digest algo all finished (sofar ++ w.buf) (f (.ok (), { w with buf := [] })).sends) :
    Honest digest algo all finished sofar (w.sendWindow >>= f).sends := by
  rw [ObjectWriter.sendWindow]
  split
  next hempty =>
    rw [hempty, append_nil] at h
    have hw : ({ w with buf := [] } : ObjectWriter) = w := by
      rw [← hempty]
    rw [hw] at h
    exact h
  next => exact h

theorem answered_sendWindow :
    w.sendWindow.answered (fun _ => true) = (.ok (), { w with buf := [] }) := by
  rw [ObjectWriter.sendWindow]
  split
  next hempty =>
    rw [Prog.answered, ← hempty]
  next => rfl

theorem honest_produce {ops : List WriterOp} {e : Ending} (hhasher : w.hasher = sofar ++ w.buf)
    (halgo : w.algo = algo) :
    Honest digest algo (w.hasher ++ written ops w) (e = .finish) sofar
      (produce digest ops e w).sends := by
  induction ops generalizing w sofar with
  | nil =>
    rw [written, append_nil]
    cases e with
    | finish =>
      rw [produce, ObjectWriter.finish, bind_assoc]
      apply honest_sendWindow
      refine ⟨rfl, rfl, hhasher.symm, ?_⟩
      show (⟨w.algo, digest w.algo w.hasher⟩ : ContentHash) = _
      rw [halgo]
    | fail why =>
      refine ⟨rfl, nofun, ?_⟩
      rw [hhasher]
      exact prefix_append _ _
    | vanish =>
      refine ⟨nofun, ?_⟩
      rw [hhasher]
      exact prefix_append _ _
  | cons op ops ih =>
    cases op with
    | flush =>
      rw [produce, written, ObjectWriter.flush, answered_sendWindow]
      apply honest_sendWindow
      exact @ih { w with buf := [] } (sofar ++ w.buf) (by simp [hhasher]) halgo
    | write data =>
      rw [produce, written, ObjectWriter.write]
      by_cases hdata : data = []
      · simp only [hdata, if_pos]
        exact ih hhasher halgo
      · simp only [if_neg hdata]
        generalize min (windowLen - w.buf.length) data.length = n
        have hw' : (w.taken (data.take n)).hasher = sofar ++ (w.taken (data.take n)).buf := by
          simp [ObjectWriter.taken, hhasher]
        have hall : ∀ rest, w.hasher ++ (data.take n ++ rest) =
            (w.taken (data.take n)).hasher ++ rest := by
          intro rest
          rw [ObjectWriter.taken, append_assoc]
        by_cases hfull : windowLen ≤ (w.taken (data.take n)).buf.length
        · simp only [if_pos hfull]
          rw [bind_assoc, Prog.answered_bind, answered_sendWindow]
          apply honest_sendWindow
          simp only [Prog.answered, Except.map]
          rw [hall]
          exact @ih { w.taken (data.take n) with buf := [] } (sofar ++ (w.taken (data.take n)).buf)
            (by simp [hw']) halgo
        · simp only [if_neg hfull, Prog.answered]
          rw [hall]
          exact ih hw' halgo

end Writer

section Stream

variable {len : Nat} {all sent handed : Bytes} {finished : Prop} {s : ObjectStream}
  {left : List Window} {X T : Type} {B : X → Type} {others : Prog.Server T X B}
    {J : T → Prop} {t : T}

/-- The object that a stream carries: its declared length, all the bytes of the producer, those that
it sends, and whether it finishes. -/
structure Carried where
  digest : HashAlgo → Bytes → Bytes
  algo : HashAlgo
  len : Nat
  all : Bytes
  sent : Bytes
  finished : Prop

variable {o : Carried}

/-- The stream has handed out `handed` and `left` are the messages to come. -/
structure Tracks (o : Carried) (s : ObjectStream) (handed : Bytes) (left : List Window) : Prop where
  going : s.ended = false →
    Honest o.digest o.algo o.all o.finished (handed ++ s.pending) left ∧
      handed ++ s.pending ++ windowBytes left = o.sent
  ended : s.ended = true → s.pending = [] ∧ left = [] ∧ o.finished ∧ handed = o.all ∧
    handed = o.sent ∧ s.declared = some ⟨o.algo, o.digest o.algo o.all⟩
  hasher : ∀ folded, s.hasher = some folded → folded = handed
  consumed : s.consumed = handed.length % 2 ^ 64
  algo : s.algo = o.algo
  len : s.len = o.len

/-- The producer is gone without having finished. -/
structure Lost (o : Carried) (s : ObjectStream) (left : List Window) : Prop where
  pending : s.pending = []
  ended : s.ended = false
  left : left = []
  unfinished : ¬o.finished

theorem Tracks.prefix_all (h : Tracks o s handed left) : handed <+: o.all := by
  cases hended : s.ended with
  | false => exact (prefix_append _ _).trans (h.going hended).1.prefix_all
  | true =>
    have hwhole : handed = o.all := (h.ended hended).2.2.2.1
    exact hwhole ▸ prefix_refl handed

theorem Tracks.prefix_sent (h : Tracks o s handed left) : handed <+: o.sent := by
  cases hended : s.ended with
  | false =>
    rw [← (h.going hended).2, append_assoc]
    exact prefix_append _ _
  | true =>
    have hwhole : handed = o.sent := (h.ended hended).2.2.2.2.1
    exact hwhole ▸ prefix_refl handed

theorem Tracks.take {x y : Bytes} (h : Tracks o { s with pending := x ++ y } handed left)
    (hx : x ≠ []) :
    Tracks o (({ s with pending := y } : ObjectStream).take x) (handed ++ x) left where
  going := by
    intro hended
    have := h.going hended
    simp only [← append_assoc] at this
    exact this
  ended := by
    intro hended
    have hnil := (h.ended hended).1
    simp only [append_eq_nil_iff] at hnil
    exact absurd hnil.1 hx
  hasher := by
    intro folded hfolded
    obtain ⟨f, hf, rfl⟩ := Option.map_eq_some_iff.mp hfolded
    rw [h.hasher f hf]
  consumed := by
    have := h.consumed
    simp only at this
    simp only [ObjectStream.take, this, length_append, Nat.mod_add_mod]
  algo := h.algo
  len := h.len

/-- A program of the stream, from the messages that are left, ends as `post` says and leaves the
others' state alone. -/
def Gives (others : Prog.Server T X B) (J : T → Prop) (t : T) (left : List Window) {α : Type}
    (p : Receiver Window B (Streamed α)) (post : Except StoreError α → ObjectStream →
      List Window → Prop) :
    Prop :=
  p.Always (Pipe.reader others) (fun st => J st.2)
    (fun end' st => st.2 = t ∧ post end'.1 end'.2 st.1) (left, t)

theorem gives_done (hJ : J t) {α : Type} {x : Except StoreError α}
    {post : Except StoreError α → ObjectStream → List Window → Prop} (h : post x s left) :
    Gives others J t left (Prog.done (x, s)) post := ⟨hJ, rfl, h⟩

section

variable {α β : Type} {p : Receiver Window B (Streamed α)}
  {post : Except StoreError α → ObjectStream → List Window → Prop}
  (h : Gives others J t left p post)
include h

theorem Gives.followed {f : Streamed α → Receiver Window B β} {post' : β → List Window × T → Prop}
    (hf : ∀ x s left, J t → post x s left →
      (f (x, s)).Always (Pipe.reader others) (fun st => J st.2) post' (left, t)) :
    (p >>= f).Always (Pipe.reader others) (fun st => J st.2) post' (left, t) := by
  apply Prog.Always.bind
  apply Prog.Always.mono h fun _ hJ => hJ
  rintro ⟨x, s⟩ ⟨left', t'⟩ hJ ⟨ht, hpost⟩
  simp only at ht
  subst ht
  exact hf x s left' hJ hpost

theorem Gives.bind {f : Streamed α → Receiver Window B (Streamed β)}
    {post' : Except StoreError β → ObjectStream → List Window → Prop}
    (hf : ∀ x s left, J t → post x s left → Gives others J t left (f (x, s)) post') :
    Gives others J t left (p >>= f) post' :=
  h.followed hf

end

section

variable (hJ : J t) (h : Tracks o s handed left)
include hJ h

theorem nextMessage_gives (hpending : s.pending = []) :
    Gives others J t left s.nextMessage fun x s' left' => match x with
      | .ok (some b) => s'.pending = [] ∧ Tracks o { s' with pending := b.1 } handed left'
      | .ok none => Tracks o s' handed left' ∧ s'.ended = true
      | .error _ => Lost o s' left' := by
  rw [ObjectStream.nextMessage]
  cases hended : s.ended with
  | true => exact gives_done hJ ⟨h, hended⟩
  | false =>
    refine ⟨hJ, ?_⟩
    obtain ⟨hhonest, hsent⟩ := h.going hended
    rw [hpending, append_nil] at hhonest hsent
    intro message st hread
    cases message with
    | none =>
      obtain ⟨hleft, rfl⟩ := hread
      simp only at hleft
      rw [hleft] at hhonest
      exact ⟨hJ, rfl, hpending, hended, hleft, hhonest.1⟩
    | some m =>
      obtain ⟨rest, hleft, rfl⟩ := hread
      simp only at hleft
      rw [hleft] at hhonest hsent
      cases m with
      | bytes b hb =>
        refine ⟨hJ, rfl, hpending, fun _ => ⟨hhonest, ?_⟩, ?_, h.hasher, h.consumed, h.algo, h.len⟩
        · rw [← hsent, windowBytes_cons]
          simp
        · intro hend
          rw [hended] at hend
          cases hend
      | done d =>
        obtain ⟨rfl, hfinished, hall, rfl⟩ := hhonest
        refine ⟨hJ, rfl, ⟨nofun, fun _ => ⟨hpending, rfl, hfinished, hall, ?_, rfl⟩, h.hasher,
          h.consumed, h.algo, h.len⟩, rfl⟩
        simpa using hsent
      | failed why =>
        obtain ⟨rfl, hunfinished, -⟩ := hhonest
        exact ⟨hJ, rfl, hpending, hended, rfl, hunfinished⟩

theorem topUp_gives :
    Gives others J t left s.topUp fun x s' left' => match x with
      | .ok (some b) => Tracks o { s' with pending := b.1 } handed left'
      | .ok none => Tracks o s' handed left' ∧ s'.ended = true
      | .error _ => Lost o s' left' := by
  rw [ObjectStream.topUp]
  split
  next hpending =>
    apply (nextMessage_gives hJ h hpending).mono fun _ hJ => hJ
    rintro ⟨x, s'⟩ st _ ⟨ht, hx⟩
    refine ⟨ht, ?_⟩
    match x, hx with
    | .ok (some b), hx => exact hx.2
    | .ok none, hx => exact hx
    | .error e, hx => exact hx
  next => exact gives_done hJ h

theorem window_gives :
    Gives others J t left s.window fun x s' left' => match x with
      | .ok (some b) => b ≠ [] ∧ Tracks o s' (handed ++ b) left'
      | .ok none => Tracks o s' handed left' ∧ s'.ended = true
      | .error _ => Lost o s' left' := by
  rw [ObjectStream.window]
  split
  next hpending =>
    apply (nextMessage_gives hJ h hpending).bind
    rintro x s' left' hJ hx
    match x, hx with
    | .ok (some b), hx =>
      obtain ⟨hempty, htracks⟩ := hx
      refine gives_done hJ ⟨b.2, ?_⟩
      have hs : ({ s' with pending := [] } : ObjectStream) = s' := by
        rw [← hempty]
      have htake := Tracks.take (x := b.1) (y := []) (by simpa using htracks) b.2
      rw [hs] at htake
      exact htake
    | .ok none, hx => exact gives_done hJ hx
    | .error e, hx => exact gives_done hJ hx
  next hpending =>
    exact gives_done hJ ⟨hpending, Tracks.take (y := []) (by simpa using h) hpending⟩

end

theorem fillFrom_gives {want : Nat} {filled : Bytes} (hJ : J t)
    (h : Tracks o s (handed ++ filled) left) (hwant : filled.length ≤ want) :
    Gives others J t left (s.fillFrom want filled) fun x s' left' => match x with
      | .ok d => d.length ≤ want ∧ Tracks o s' (handed ++ d) left' ∧
          (d.length < want → s'.ended = true)
      | .error _ => Lost o s' left' := by
  induction hmore : want - filled.length using Nat.strong_induction_on
    generalizing filled s left with
  | _ more ih =>
    rw [ObjectStream.fillFrom]
    split
    next hshort =>
      apply (topUp_gives hJ h).bind
      rintro x s' left' - hx
      match x, hx with
      | .ok (some b), hx =>
        have hpos := length_pos_iff.mpr b.2
        simp only
        generalize htake : min b.1.length (want - filled.length) = n
        have hn : (b.1.take n).length = n := by
          rw [length_take]
          omega
        have hne : b.1.take n ≠ [] := by
          apply ne_nil_of_length_pos
          omega
        have hnext := Tracks.take (x := b.1.take n) (y := b.1.drop n)
          (by rw [take_append_drop]; exact hx) hne
        rw [append_assoc] at hnext
        have hlen : (filled ++ b.1.take n).length = filled.length + n := by
          rw [length_append, hn]
        exact ih (want - (filled ++ b.1.take n).length) (by omega) hnext
          (by omega) rfl
      | .ok none, hx => exact gives_done hJ ⟨hwant, hx.1, fun _ => hx.2⟩
      | .error e, hx => exact gives_done hJ hx
    next hfull => exact gives_done hJ ⟨hwant, h, fun hless => absurd hless hfull⟩

theorem fill_gives {want : Nat} (hJ : J t) (h : Tracks o s handed left) :
    Gives others J t left (s.fill want) fun x s' left' => match x with
      | .ok d => d.length ≤ want ∧ Tracks o s' (handed ++ d) left' ∧
          (d.length < want → s'.ended = true)
      | .error _ => Lost o s' left' :=
  fillFrom_gives hJ (by rwa [append_nil]) (Nat.zero_le want)

theorem Tracks.agreed (h : Tracks o s handed left) (hall : o.all.length < 2 ^ 64) :
    Tracks o (s.agreed o.digest).2 handed left ∧
      ∀ hash, (s.agreed o.digest).1 = .ok hash →
        o.finished ∧ o.all.length = o.len ∧ handed = o.all ∧
          hash = ⟨o.algo, o.digest o.algo o.all⟩ := by
  rw [ObjectStream.agreed]
  split
  next => exact ⟨h, nofun⟩
  next hended =>
    simp only [Bool.not_eq_true, Bool.not_eq_false] at hended
    obtain ⟨-, -, hfinished, hhanded, -, hdeclared⟩ := h.ended hended
    split
    next => exact ⟨h, nofun⟩
    next hlen =>
      have hlength : o.all.length = o.len := by
        have := h.consumed
        rw [hhanded, Nat.mod_eq_of_lt hall] at this
        rw [← this, ← h.len]
        exact Decidable.not_not.mp hlen
      split
      next => exact ⟨h, nofun⟩
      next folded hfolded =>
        refine ⟨⟨h.going, h.ended, nofun, h.consumed, h.algo, h.len⟩, ?_⟩
        rw [h.hasher folded hfolded, hdeclared, h.algo, hhanded]
        simp only [if_pos]
        rintro hash ⟨⟩
        exact ⟨hfinished, hlength, trivial, rfl⟩

theorem sealed_gives (hJ : J t) (h : Tracks o s handed left) (hall : o.all.length < 2 ^ 64) :
    Gives others J t left (s.sealed o.digest) fun x s' left' => match x with
      | .ok hash => Tracks o s' handed left' ∧ o.finished ∧ o.all.length = o.len ∧ handed = o.all ∧
          hash = ⟨o.algo, o.digest o.algo o.all⟩
      | .error _ => handed = o.sent → Tracks o s' handed left' ∨ Lost o s' left' := by
  apply (window_gives hJ h).bind
  rintro x s' left' hJ hx
  match x, hx with
  | .ok (some b), hx =>
    refine gives_done hJ fun hsent => ?_
    have hmore := hx.2.prefix_sent.length_le
    have hpos := length_pos_iff.mpr hx.1
    rw [← hsent, length_append] at hmore
    omega
  | .ok none, hx =>
    obtain ⟨htracks, hok⟩ := hx.1.agreed hall
    refine gives_done hJ ?_
    show match (s'.agreed o.digest).1 with
      | .ok hash => _
      | .error _ => _
    cases hagreed : (s'.agreed o.digest).1 with
    | error e => exact fun _ => .inl htracks
    | ok hash => exact ⟨htracks, hok hash hagreed⟩
  | .error e, hx => exact gives_done hJ fun _ => .inr hx

end Stream

end Dctl.Store.Incoming
