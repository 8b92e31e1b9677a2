import Dctl.ProofKit.Crowd
import Dctl.Store.Consumer

/-! The multipart writer of B2 (`b2/upload.rs`, `streaming.rs`): an object of declared length is cut
into parts as its bytes arrive, and the large file is finished once the two ends of the pipe agree.
-/

namespace Dctl.Store.B2

open ProofKit Incoming List

def maxParts : Nat := 10000

def minPartSize : Nat := 5000000

def b2MaxPartSize : Nat := 5000000000

structure PartSpan where
  number : Nat
  offset : Nat
  len : Nat
  deriving DecidableEq, Repr

def useMultipart (total threshold : Nat) : Bool := threshold < total

def partsFrom (total partSize offset number : Nat) : List PartSpan :=
  if _h : offset < total then
    let len := min (max partSize 1) (total - offset)
    ⟨number, offset, len⟩ :: partsFrom total partSize (offset + len) (number + 1)
  else []
termination_by total - offset

def planParts (total partSize : Nat) : List PartSpan := partsFrom total partSize 0 1

/-- The part size that keeps the number of parts within `maxParts`. -/
def adaptivePartSize (total basePart minPart maxPart maxParts : Nat) : Except StoreError Nat :=
  let needed := (total + max maxParts 1 - 1) / max maxParts 1
  let part := max (max basePart needed) minPart
  if maxPart < part then
    .error (.backend ("object too large for backend: " ++ toString total ++ " bytes exceeds the " ++
      "single-object limit of max_part (" ++ toString maxPart ++ ") * max_parts (" ++
      toString maxParts ++ ") = " ++ toString (min (maxPart * maxParts) (2 ^ 64 - 1))))
  else .ok part

structure PutOutcome where
  size : Nat
  verified : ContentHash
  deriving DecidableEq

/-- What the writer asks of B2, each with its retries.  A part is accepted when B2 echoes its SHA-1.
-/
inductive Request where
  | auth
  | startLargeFile (bucketId key : String) (modified : Option Nat)
  | uploadPart (fileId : String) (number : Nat) (chunk sha1 : Bytes)
  | finishLargeFile (fileId : String) (partSha1s : List Bytes)
  | cancelLargeFile (fileId : String)
  | put (key : String) (data : Bytes) (expected : ContentHash) (modified : Option Nat)
  deriving DecidableEq

@[reducible] def Request.Answer : Request → Type
  | .auth | .startLargeFile .. => Except StoreError String
  | .put .. => Except StoreError PutOutcome
  | _ => Except StoreError Unit

abbrev B2M (α : Type) := Receiver Window Request.Answer α

def call (r : Request) : B2M r.Answer := .ask (.other r) .done

variable (digest : HashAlgo → Bytes → Bytes)

def drainWhole (s : ObjectStream) (size : Nat) : B2M (Streamed (Bytes × ContentHash)) :=
  s.fill size >>= fun filled => match filled.1 with
    | .error e => .done (.error e, filled.2)
    | .ok whole => filled.2.sealed digest >>= fun end' => .done <| match end'.1 with
      | .error e => (.error e, end'.2)
      | .ok hash =>
        if whole.length ≠ size then (.error (.shortWrite size whole.length), end'.2)
        else (.ok (whole, hash), end'.2)

def sendParts (fileId : String) (size : Nat) :
    List PartSpan → List Bytes → ObjectStream → B2M (Streamed (List Bytes))
  | [], partSha1s, s => .done (.ok partSha1s, s)
  | span :: plan, partSha1s, s =>
    s.fill span.len >>= fun end' => match end'.1 with
      | .error e => .done (.error e, end'.2)
      | .ok part =>
        if part.length ≠ span.len then
          .done (.error (.shortWrite size (span.offset + part.length)), end'.2)
        else call (.uploadPart fileId span.number part (digest .sha1 part)) >>=
          fun (x : Except StoreError Unit) => match x with
            | .error e => .done (.error e, end'.2)
            | .ok () => sendParts fileId size plan (partSha1s ++ [digest .sha1 part]) end'.2

def streamPartsAndFinish (fileId : String) (basePart size : Nat) (s : ObjectStream) :
    B2M (Except StoreError PutOutcome) :=
  match adaptivePartSize size basePart minPartSize b2MaxPartSize maxParts with
  | .error e => .done (.error e)
  | .ok partSize => sendParts digest fileId size (planParts size partSize) [] s >>= fun sent =>
    match sent.1 with
    | .error e => .done (.error e)
    | .ok partSha1s => sent.2.sealed digest >>= fun end' => match end'.1 with
      | .error e => .done (.error e)
      | .ok verified => call (.finishLargeFile fileId partSha1s) >>=
        fun (x : Except StoreError Unit) => .done (x.map fun _ => ⟨size, verified⟩)

/-- Store an object, taking its bytes from the pipe. -/
def putStream (basePart : Nat) (key : String) (modified : Option Nat) (s : ObjectStream) :
    B2M (Except StoreError PutOutcome) :=
  if useMultipart s.len basePart then
    call .auth >>= fun (x : Except StoreError String) => match x with
      | .error e => .done (.error e)
      | .ok bucketId => call (.startLargeFile bucketId key modified) >>=
        fun (x : Except StoreError String) => match x with
          | .error e => .done (.error e)
          | .ok fileId => streamPartsAndFinish digest fileId basePart s.len s >>= fun outcome =>
            match outcome with
            | .ok outcome => .done (.ok outcome)
            | .error e => call (.cancelLargeFile fileId) >>= fun _ => .done (.error e)
  else drainWhole digest s s.len >>= fun end' => match end'.1 with
    | .error e => .done (.error e)
    | .ok (whole, expected) => call (.put key whole expected modified)

abbrev Event := (r : Request) × r.Answer

/-- B2 may answer anything, and what it was asked is kept. -/
def service : Prog.Server (List Event) Request Request.Answer :=
  fun log r x log' => log' = log ++ [⟨r, x⟩]

def partEvents (fileId : String) : Nat → List Bytes → List Event
  | _, [] => []
  | number, chunk :: chunks => ⟨.uploadPart fileId number chunk (digest .sha1 chunk), .ok ()⟩ ::
    partEvents fileId (number + 1) chunks

/-- The upload of a part. -/
def Event.IsPart (e : Event) : Prop :=
  ∃ fileId number chunk sha1, e.1 = .uploadPart fileId number chunk sha1

/-- A request that commits an object is made for the whole object of a producer that has finished.
-/
def Justified (o : Carried) (before : List Event) : Request → Prop
  | .finishLargeFile fileId partSha1s => o.finished ∧ o.all.length = o.len ∧
    ∃ base chunks, before = base ++ partEvents o.digest fileId 1 chunks ∧ (∀ e ∈ base, ¬e.IsPart) ∧
      chunks.flatten = o.all ∧ partSha1s = chunks.map (o.digest .sha1)
  | .put _ data expected _ => o.finished ∧ o.all.length = o.len ∧ data = o.all ∧
    expected = ⟨o.algo, o.digest o.algo o.all⟩
  | _ => True

/-- Every request so far was justified by those before it. -/
def Committed (o : Carried) (log : List Event) : Prop :=
  ∀ before e after, log = before ++ e :: after → Justified o before e.1

theorem Committed.snoc {o : Carried} {log : List Event} {e : Event} (h : Committed o log)
    (he : Justified o log e.1) : Committed o (log ++ [e]) := by
  intro before f after hsplit
  rcases split_append_singleton hsplit with ⟨rfl, rfl⟩ | ⟨rest, hrest⟩
  · exact he
  · exact h before f rest hrest

theorem isPart_of_mem_partEvents {fileId : String} {number : Nat} {chunks : List Bytes} {e : Event}
    (h : e ∈ partEvents digest fileId number chunks) : e.IsPart := by
  induction chunks generalizing number with
  | nil => cases h
  | cons c chunks ih =>
    rcases mem_cons.mp h with rfl | h
    · exact ⟨_, _, _, _, rfl⟩
    · exact ih h

/-- The server has opened the large file. -/
def Started (log : List Event) (fileId : String) : Prop :=
  ∃ bucketId key modified, (⟨.startLargeFile bucketId key modified, .ok fileId⟩ : Event) ∈ log

/-- The server has finished the large file. -/
def Finished (log : List Event) (fileId : String) : Prop :=
  ∃ partSha1s, (⟨.finishLargeFile fileId partSha1s, .ok ()⟩ : Event) ∈ log

/-- A cancellation of the large file was sent. -/
def Cancelled (log : List Event) (fileId : String) : Prop :=
  ∃ x, (⟨.cancelLargeFile fileId, x⟩ : Event) ∈ log

/-- A large file that was started is finished when the writer reports the whole object, and
cancelled otherwise. -/
def Settled (o : Carried) (log : List Event) : Except StoreError PutOutcome → Prop
  | .ok outcome => ∀ fileId, Started log fileId → Finished log fileId ∧ ¬Cancelled log fileId ∧
      outcome = ⟨o.len, ⟨o.algo, o.digest o.algo o.all⟩⟩
  | .error _ => ∀ fileId, Started log fileId → Cancelled log fileId ∧ ¬Finished log fileId

section Writer

variable {digest} {o : Carried} {s : ObjectStream} {handed : Bytes} {left : List Window}
  {log : List Event} {fileId : String} {size : Nat}

theorem sendParts_always {partSize offset number : Nat} {partSha1s : List Bytes}
    (hlog : Committed o log) (h : Tracks o s handed left) (hoffset : offset ≤ size) :
    (sendParts o.digest fileId size (partsFrom size partSize offset number) partSha1s s).Always
      (Pipe.reader service) (fun st => Committed o st.2)
      (fun sent st => match sent.1 with
        | .ok partSha1s' => ∃ chunks, st.2 = log ++ partEvents o.digest fileId number chunks ∧
            Tracks o sent.2 (handed ++ chunks.flatten) st.1 ∧
            partSha1s' = partSha1s ++ chunks.map (o.digest .sha1)
        | .error _ => ∃ more, st.2 = log ++ more ∧ ∀ e ∈ more, e.IsPart)
      (left, log) := by
  induction hmore : size - offset using Nat.strong_induction_on
    generalizing offset number partSha1s s handed left log with
  | _ more ih =>
    rw [partsFrom]
    split
    next hless =>
      rw [sendParts]
      apply (fill_gives hlog h).followed
      intro x s' left' _ hx
      cases x with
      | error e => exact ⟨hlog, [], (append_nil log).symm, nofun⟩
      | ok part =>
        obtain ⟨hlen, htracks, -⟩ := hx
        simp only
        split
        next => exact ⟨hlog, [], (append_nil log).symm, nofun⟩
        next hwhole =>
          refine ⟨hlog, ?_⟩
          rintro x ⟨left'', log'⟩ ⟨hserve, hleft⟩
          obtain rfl : log' = _ := hserve
          obtain rfl : left'' = left' := hleft
          have hlog' :=
            hlog.snoc (e := ⟨.uploadPart fileId number part (o.digest .sha1 part), x⟩) trivial
          cases x with
          | error e =>
            refine ⟨hlog', _, rfl, ?_⟩
            intro e he
            rw [mem_singleton.mp he]
            exact ⟨_, _, _, _, rfl⟩
          | ok u =>
            have hpart := @ih (size - (offset + min (max partSize 1) (size - offset))) (by omega)
              _ _ _ _ _ (number + 1) (partSha1s ++ [o.digest .sha1 part]) hlog' htracks
                (by omega) rfl
            apply hpart.mono fun _ hI => hI
            rintro ⟨y, s''⟩ st - hy
            cases y with
            | ok partSha1s' =>
              obtain ⟨chunks, hst, htracks', hsha1s⟩ := hy
              refine ⟨part :: chunks, ?_, ?_, ?_⟩
              · rw [hst, append_assoc]
                rfl
              · rwa [flatten_cons, ← append_assoc]
              · rw [hsha1s, append_assoc]
                rfl
            | error e =>
              obtain ⟨more, hst, hparts⟩ := hy
              refine ⟨_ :: more, by rw [hst, append_assoc]; rfl, ?_⟩
              intro e he
              rcases mem_cons.mp he with rfl | he
              · exact ⟨_, _, _, _, rfl⟩
              · exact hparts e he
    next =>
      refine ⟨hlog, [], ?_, ?_, ?_⟩
      · exact (append_nil log).symm
      · simpa using h
      · exact (append_nil partSha1s).symm

def Event.IsUpload (fileId : String) (e : Event) : Prop :=
  e.IsPart ∨ ∃ partSha1s x, e = ⟨.finishLargeFile fileId partSha1s, .error x⟩

theorem streamPartsAndFinish_always {basePart : Nat} (hlog : Committed o log)
    (h : Tracks o s [] left) (hall : o.all.length < 2 ^ 64) (hbase : ∀ e ∈ log, ¬e.IsPart) :
    (streamPartsAndFinish o.digest fileId basePart o.len s).Always
      (Pipe.reader service) (fun st => Committed o st.2)
      (fun x st => match x with
        | .ok outcome => outcome = ⟨o.len, ⟨o.algo, o.digest o.algo o.all⟩⟩ ∧
            ∃ more partSha1s, st.2 = log ++ more ++ [⟨.finishLargeFile fileId partSha1s, .ok ()⟩] ∧
              ∀ e ∈ more, e.IsUpload fileId
        | .error _ => ∃ more, st.2 = log ++ more ∧ ∀ e ∈ more, e.IsUpload fileId)
      (left, log) := by
  rw [streamPartsAndFinish]
  split
  next => exact ⟨hlog, [], (append_nil log).symm, nofun⟩
  next partSize _ =>
    apply Prog.Always.bind
    apply (sendParts_always hlog h (Nat.zero_le o.len)).mono fun _ hI => hI
    rintro ⟨x, s'⟩ ⟨left', log'⟩ hlog' hx
    cases x with
    | error e =>
      obtain ⟨more, rfl, hparts⟩ := hx
      exact ⟨hlog', more, rfl, fun e he => .inl (hparts e he)⟩
    | ok partSha1s =>
      obtain ⟨chunks, hst, htracks, hsha1s⟩ := hx
      simp only at hst htracks hsha1s
      subst hst
      have hparts : ∀ e ∈ partEvents o.digest fileId 1 chunks, e.IsUpload fileId :=
        fun e he => .inl (isPart_of_mem_partEvents o.digest he)
      apply (sealed_gives hlog' htracks hall).followed
      intro y s'' left'' _ hy
      cases y with
      | error e => exact ⟨hlog', _, rfl, hparts⟩
      | ok verified =>
        obtain ⟨-, hfinished, hlen, hwhole, rfl⟩ := hy
        refine ⟨hlog', ?_⟩
        rintro z ⟨left₃, log₃⟩ ⟨hserve, -⟩
        obtain rfl : log₃ = _ := hserve
        refine ⟨hlog'.snoc ⟨hfinished, hlen, log, chunks, rfl, hbase, ?_, hsha1s⟩, ?_⟩
        · simpa using hwhole
        · cases z with
          | ok u => exact ⟨rfl, _, partSha1s, rfl, hparts⟩
          | error e =>
            refine ⟨_, append_assoc _ _ _, ?_⟩
            intro f hf
            rcases mem_append.mp hf with hf | hf
            · exact hparts f hf
            · exact .inr ⟨partSha1s, e, mem_singleton.mp hf⟩

theorem drainWhole_gives {J : List Event → Prop} (hJ : J log) (h : Tracks o s [] left)
    (hall : o.all.length < 2 ^ 64) :
    Gives service J log left (drainWhole o.digest s o.len) fun x _ _ => match x with
      | .ok (data, expected) => o.finished ∧ o.all.length = o.len ∧ data = o.all ∧
          expected = ⟨o.algo, o.digest o.algo o.all⟩
      | .error _ => True := by
  apply (fill_gives hJ h).bind
  intro x s' left' hJ hx
  cases x with
  | error e => exact gives_done hJ trivial
  | ok whole =>
    apply (sealed_gives hJ hx.2.1 hall).bind
    intro y s'' left'' hJ hy
    cases y with
    | error e => exact gives_done hJ trivial
    | ok hash =>
      obtain ⟨-, hfinished, hlen, hwhole, rfl⟩ := hy
      simp only
      split
      next => exact gives_done hJ trivial
      next => exact gives_done hJ ⟨hfinished, hlen, hwhole, rfl⟩

theorem started_eq {x : Except StoreError String} {bucketId key : String} {modified : Option Nat}
    {more : List Event} {fileId' : String}
    (hmore : ∀ e ∈ more, ∀ b k m, e.1 ≠ .startLargeFile b k m)
    (h :
      Started ([⟨.auth, x⟩, ⟨.startLargeFile bucketId key modified, .ok fileId⟩] ++ more) fileId') :
    fileId' = fileId := by
  obtain ⟨b, k, m, hmem⟩ := h
  rcases mem_append.mp hmem with hmem | hmem
  · simp only [mem_cons, not_mem_nil, or_false] at hmem
    rcases hmem with hmem | hmem
    · cases hmem
    · cases hmem
      rfl
  · exact absurd rfl (hmore _ hmem b k m)

theorem Event.IsUpload.request_ne {e : Event} (h : e.IsUpload fileId) :
    (∀ b k m, e.1 ≠ .startLargeFile b k m) ∧ (∀ id, e.1 ≠ .cancelLargeFile id) ∧
      ∀ id sha1s, e ≠ ⟨.finishLargeFile id sha1s, .ok ()⟩ := by
  rcases h with ⟨_, _, _, _, he⟩ | ⟨partSha1s, x, rfl⟩
  · refine ⟨fun b k m => ?_, fun id => ?_, fun id sha1s hfinish => ?_⟩
    · rw [he]
      exact Request.noConfusion
    · rw [he]
      exact Request.noConfusion
    · rw [hfinish] at he
      cases he
  · exact ⟨nofun, nofun, nofun⟩

/-- What B2 was asked is justified at every moment, and at the end a large file that was started is
finished or cancelled, as the writer reports. -/
theorem putStream_always {basePart : Nat} {key : String} {modified : Option Nat}
    (h : Tracks o s [] left) (hall : o.all.length < 2 ^ 64) :
    (putStream o.digest basePart key modified s).Always (Pipe.reader service)
      (fun st => Committed o st.2) (fun x st => Settled o st.2 x) (left, []) := by
  have hlog : Committed o [] := fun before e after hsplit => by simp at hsplit
  rw [putStream, h.len]
  split
  next =>
    refine ⟨hlog, ?_⟩
    rintro x ⟨left₁, log₁⟩ ⟨hserve, hleft⟩
    obtain rfl : log₁ = _ := hserve
    obtain rfl : left₁ = left := hleft
    have hlog₁ := hlog.snoc (e := ⟨.auth, x⟩) trivial
    cases x with
    | error e => exact ⟨hlog₁, fun fileId ⟨b, k, m, hmem⟩ => by simp at hmem⟩
    | ok bucketId =>
      refine ⟨hlog₁, ?_⟩
      rintro y ⟨left₂, log₂⟩ ⟨hserve, hleft⟩
      obtain rfl : log₂ = _ := hserve
      obtain rfl : left₂ = left₁ := hleft
      have hlog₂ := hlog₁.snoc (e := ⟨.startLargeFile bucketId key modified, y⟩) trivial
      cases y with
      | error e => exact ⟨hlog₂, fun fileId ⟨b, k, m, hmem⟩ => by simp at hmem⟩
      | ok fileId =>
        have hbase : ∀ e ∈ ([⟨.auth, .ok bucketId⟩,
            ⟨.startLargeFile bucketId key modified, .ok fileId⟩] : List Event), ¬e.IsPart := by
          rintro e he ⟨_, _, _, _, hpart⟩
          simp only [mem_cons, not_mem_nil, or_false] at he
          rcases he with rfl | rfl
          · cases hpart
          · cases hpart
        show (streamPartsAndFinish o.digest fileId basePart o.len s >>= _).Always _ _ _ _
        apply Prog.Always.bind
        apply (streamPartsAndFinish_always hlog₂ h hall hbase).mono fun _ hI => hI
        rintro z ⟨left₃, log₃⟩ hlog₃ hz
        cases z with
        | ok outcome =>
          obtain ⟨rfl, more, partSha1s, rfl, hmore⟩ := hz
          refine ⟨hlog₃, fun fileId' hstarted => ?_⟩
          have hnot : ∀ e ∈ more ++ [(⟨.finishLargeFile fileId partSha1s, .ok ()⟩ : Event)],
              (∀ b k m, e.1 ≠ .startLargeFile b k m) ∧ ∀ id, e.1 ≠ .cancelLargeFile id := by
            intro e he
            rcases mem_append.mp he with he | he
            · exact ⟨(hmore e he).request_ne.1, (hmore e he).request_ne.2.1⟩
            · rw [mem_singleton.mp he]
              exact ⟨nofun, nofun⟩
          rw [append_assoc] at hstarted ⊢
          obtain rfl := started_eq (fun e he => (hnot e he).1) hstarted
          refine ⟨⟨partSha1s, by simp⟩, ?_, rfl⟩
          rintro ⟨x, hmem⟩
          rcases mem_append.mp hmem with hmem | hmem
          · simp at hmem
          · exact (hnot _ hmem).2 _ rfl
        | error e =>
          obtain ⟨more, rfl, hmore⟩ := hz
          refine ⟨hlog₃, ?_⟩
          rintro x ⟨left₄, log₄⟩ ⟨hserve, -⟩
          obtain rfl : log₄ = _ := hserve
          have hlog₄ := hlog₃.snoc (e := ⟨.cancelLargeFile fileId, x⟩) trivial
          refine ⟨hlog₄, fun fileId' hstarted => ?_⟩
          have hnot : ∀ e ∈ more ++ [(⟨.cancelLargeFile fileId, x⟩ : Event)],
              (∀ b k m, e.1 ≠ .startLargeFile b k m) ∧
                ∀ id sha1s, e ≠ ⟨.finishLargeFile id sha1s, .ok ()⟩ := by
            intro e he
            rcases mem_append.mp he with he | he
            · exact ⟨(hmore e he).request_ne.1, (hmore e he).request_ne.2.2⟩
            · rw [mem_singleton.mp he]
              exact ⟨nofun, nofun⟩
          rw [append_assoc] at hstarted ⊢
          obtain rfl := started_eq (fun e he => (hnot e he).1) hstarted
          refine ⟨⟨x, by simp⟩, ?_⟩
          rintro ⟨sha1s, hmem⟩
          rcases mem_append.mp hmem with hmem | hmem
          · simp at hmem
          · exact (hnot _ hmem).2 _ _ rfl
  next =>
    apply (drainWhole_gives hlog h hall).followed
    intro x s' left' _ hx
    cases x with
    | error e => exact ⟨hlog, fun fileId ⟨b, k, m, hmem⟩ => by simp at hmem⟩
    | ok whole =>
      obtain ⟨data, expected⟩ := whole
      refine ⟨hlog, ?_⟩
      rintro y ⟨left₁, log₁⟩ ⟨hserve, -⟩
      obtain rfl : log₁ = _ := hserve
      refine ⟨hlog.snoc hx, ?_⟩
      cases y with
      | ok outcome => exact fun fileId ⟨b, k, m, hmem⟩ => by simp at hmem
      | error e => exact fun fileId ⟨b, k, m, hmem⟩ => by simp at hmem

end Writer

section Whole

variable {digest : HashAlgo → Bytes → Bytes} {algo : HashAlgo} {ops : List WriterOp}
  {ending : Ending}
  {len : Nat}

/-- What a backend is handed is what was written, and the permission to commit is given for the
whole object only, as long as no window is lost to `sealed`; the multipart writer keeps to that. -/
theorem handover_holds (hall : (written ops (ObjectWriter.new algo)).length < 2 ^ 64) :
    (∀ calls outs, RunGives digest algo ops ending len calls outs →
      SealsLate (carried digest algo ops ending len).sent [] false outs →
      Faithful (carried digest algo ops ending len) [] outs ∧
        delivered outs <+: written ops (ObjectWriter.new algo)) ∧
    ∀ basePart key modified p,
      Pipe.Steps windowsInFlight service ⟨[], produce digest ops ending (ObjectWriter.new algo),
        putStream digest basePart key modified (ObjectStream.new len algo), []⟩ p →
      Committed (carried digest algo ops ending len) p.state ∧
        ∀ x, p.receiver = .done x → Settled (carried digest algo ops ending len) p.state x := by
  constructor
  · intro calls outs hrun hlate
    have hfaithful := hrun.faithful hall hlate
    exact ⟨hfaithful, hfaithful.delivered nil_prefix⟩
  · intro basePart key modified p hsteps
    have halways := @putStream_always _ _ _ basePart key modified
      (tracks_new digest algo ops ending len) hall
    obtain ⟨⟨_, hcommitted⟩, hsettled⟩ := Pipe.steps_always halways hsteps
    refine ⟨hcommitted, fun x hx => ?_⟩
    obtain ⟨_, hsettled⟩ := hsettled x hx
    exact hsettled

end Whole

theorem handover_holds_one : ∃ outs,
    RunGives (fun _ b => b) .blake3 [.write [1]] .finish 1 [.window, .sealed] outs ∧
    Faithful (carried (fun _ b => b) .blake3 [.write [1]] .finish 1) [] outs := by
  have hrun : RunGives (fun _ b => b) .blake3 [.write [1]] .finish 1 [.window, .sealed]
      [.window (.ok (some [1])), .sealed (.ok ⟨.blake3, [1]⟩)] := by
    refine ⟨⟨[], .done (), .done _, ()⟩, ?_, rfl⟩
    refine .head (Pipe.Step.send rfl nofun (by decide)) ?_
    refine .head (Pipe.Step.send rfl nofun (by decide)) ?_
    refine .head (Pipe.Step.recv rfl rfl) ?_
    exact .head (Pipe.Step.recv rfl rfl) .refl
  refine ⟨_, hrun, ((handover_holds (by decide)).1 _ _ hrun ?_).1⟩
  exact ⟨nofun, fun _ h => absurd rfl h, trivial⟩

/-- A call of `sealed` that comes too early takes a window with it: what is handed out after it
lacks that window, and the digest is given all the same. -/
theorem window_lost_to_sealed : ∃ outs,
    RunGives (fun _ b => b) .blake3 [.write [1], .flush, .write [2]] .finish 2
      [.sealed, .window, .window, .agreed] outs ∧
    .agreed (.ok ⟨.blake3, [1, 2]⟩) ∈ outs ∧ delivered outs = [2] ∧
    ¬Faithful (carried (fun _ b => b) .blake3 [.write [1], .flush, .write [2]] .finish 2) []
      outs := by
  refine ⟨[.sealed (.error (.backend ("the producer had more bytes to send than the length it " ++
    "declared, so nothing has been committed"))), .window (.ok (some [2])), .window (.ok none),
    .agreed (.ok ⟨.blake3, [1, 2]⟩)], ⟨⟨[], .done (), .done _, ()⟩, ?_, rfl⟩, by simp, rfl, ?_⟩
  · refine .head (Pipe.Step.send rfl nofun (by decide)) ?_
    refine .head (Pipe.Step.send rfl nofun (by decide)) ?_
    refine .head (Pipe.Step.send rfl nofun (by decide)) ?_
    refine .head (Pipe.Step.recv rfl rfl) ?_
    refine .head (Pipe.Step.recv rfl rfl) ?_
    exact .head (Pipe.Step.recv rfl rfl) .refl
  · rintro ⟨-, ⟨-, hhanded⟩, -⟩
    revert hhanded
    decide

end Dctl.Store.B2
