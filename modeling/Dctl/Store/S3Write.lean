import Dctl.ProofKit.Decimal
import Dctl.Store.Parts
import Dctl.Store.VerifiedWrite

/-! The writers of the S3 client (`s3/client.rs`): bytes in hand, a file, and an object that is
still being produced. Each sends a small object in one request and a large one in parts.  The server
may refuse a request, lose it or its answer, and report the failure of a completion in the body of a
success. -/

namespace Dctl.Store.S3.Write

open ProofKit Incoming List Prog Function
open B2 (PartSpan useMultipart planParts partsFrom adaptivePartSize maxParts)
open LocalFs (PutOutcome compute)

abbrev Text := List Char

/-! ### Requests and responses -/

def minPartSize : Nat := 5 * 1024 * 1024

def maxPartSize : Nat := 5 * 1024 * 1024 * 1024

def splitAtFirst (pattern : Text) : Text → Option (Text × Text)
  | [] => if pattern = [] then some ([], []) else none
  | c :: rest =>
    if pattern.isPrefixOf (c :: rest) then some ([], (c :: rest).drop pattern.length)
    else (splitAtFirst pattern rest).map fun found => (c :: found.1, found.2)

def extractTag (xml tag : Text) : Option Text :=
  (splitAtFirst ('<' :: tag ++ ['>']) xml).bind fun found =>
    (splitAtFirst ('<' :: '/' :: tag ++ ['>']) found.2).map Prod.fst

/-- An answer of the server: the `ETag` and `Retry-After` headers where they can be read, the body
that was sent, and what cut it off. -/
structure Response where
  status : Nat
  etag : Option Text
  retryAfterSecs : Option Nat
  body : Text
  cut : Option StoreError

namespace Response

def isSuccess (r : Response) : Bool := 200 ≤ r.status ∧ r.status < 300

def text (r : Response) : Except StoreError Text :=
  match r.cut with
  | none => .ok r.body
  | some e => .error e

def error (r : Response) : StoreError :=
  let code := match r.cut with
    | none => (extractTag r.body "Code".toList).getD ['?']
    | some _ => ['?']
  .provider "s3" r.status (String.ofList code) r.retryAfterSecs

def accepted (r : Response) : Except StoreError Unit :=
  if r.isSuccess then .ok () else .error r.error

def uploadId (r : Response) : Except StoreError Text := do
  r.accepted
  let body ← r.text
  match extractTag body "UploadId".toList with
  | some id => .ok id
  | none => .error (.backend "s3: no UploadId in response")

end Response

inductive Request where
  | put (key : Text) (headers : List (Text × Text)) (data : Bytes)
  | create (key : Text) (headers : List (Text × Text))
  | uploadPart (key uploadId : Text) (number : Nat) (chunk : Bytes)
  | complete (key uploadId : Text) (body : Text)
  | abort (key uploadId : Text)

/-- A request to the server, the file or the meter.  The server may not answer. -/
inductive Ask where
  | send (r : Request)
  | metadata
  | readFile
  | openFile
  | fillBuf (want : Nat)
  | charge (bytes : Nat)

@[reducible] def Ask.Answer : Ask → Type
  | .send _ => Except StoreError Response
  | .metadata => Except IoError Nat
  | .readFile => Except IoError Bytes
  | .openFile => Except IoError Unit
  | .fillBuf want => Except IoError { b : Bytes // b.length ≤ want }
  | .charge _ => Unit

abbrev WriteM (α : Type) :=
  Prog.Fallible (Receive Ask) (Receive.Answer Window Ask.Answer) StoreError α

abbrev Exchange := Prog.Exchange (Receive.Answer Window Ask.Answer)

def request (a : Ask) : WriteM a.Answer := Prog.query (Receive.other a)

def send (r : Request) : WriteM Response := request (.send r) >>= fun x => Prog.ofExcept x

def metadata : WriteM Nat :=
  request .metadata >>= fun x => Prog.ofExcept (Except.mapError StoreError.io x)

def readFile : WriteM Bytes :=
  request .readFile >>= fun x => Prog.ofExcept (Except.mapError StoreError.io x)

def openFile : WriteM Unit :=
  request .openFile >>= fun x => Prog.ofExcept (Except.mapError StoreError.io x)

def fillBuf (want : Nat) : WriteM { b : Bytes // b.length ≤ want } :=
  request (.fillBuf want) >>= fun x => Prog.ofExcept (Except.mapError StoreError.io x)

def charge (bytes : Nat) : WriteM Unit := request (.charge bytes)

def streamed {α : Type} (p : Receiver Window Ask.Answer (Streamed α)) : WriteM (α × ObjectStream) :=
  ExceptT.lift p >>= fun end' => Prog.ofExcept (end'.1.map fun a => (a, end'.2))

def requireMatch (expected computed : ContentHash) : WriteM Unit :=
  if computed = expected then pure ()
  else throw (.checksumMismatch (hexEncode expected.bytes) (hexEncode computed.bytes))

/-! ### The parts of a conversation -/

def metadataHeaders (modified : Option Int) : List (Text × Text) :=
  match modified with
  | some seconds => [("x-amz-meta-mtime".toList, (toString seconds).toList ++ ".000000000".toList)]
  | none => []

def partXml (part : Nat × Text) : Text :=
  "<Part><PartNumber>".toList ++ Nat.toDigits 10 part.1 ++ "</PartNumber><ETag>".toList ++ part.2 ++
    "</ETag></Part>".toList

def partsXml (parts : List (Nat × Text)) : Text :=
  "<CompleteMultipartUpload>".toList ++ parts.flatMap partXml ++ "</CompleteMultipartUpload>".toList

def putSingle (key : Text) (data : Bytes) (modified : Option Int) : WriteM Unit := do
  let resp ← send (.put key (metadataHeaders modified) data)
  Prog.ofExcept resp.accepted

def createUpload (key : Text) (modified : Option Int) : WriteM Text := do
  let create ← send (.create key (metadataHeaders modified))
  Prog.ofExcept create.uploadId

def uploadPart (key uploadId : Text) (number : Nat) (chunk : Bytes) : WriteM Text := do
  let resp ← send (.uploadPart key uploadId number chunk)
  Prog.ofExcept resp.accepted
  return resp.etag.getD []

def completeUpload (key uploadId : Text) (parts : List (Nat × Text)) : WriteM Unit := do
  let complete ← send (.complete key uploadId (partsXml parts))
  Prog.ofExcept complete.accepted

def abortMultipart (key uploadId : Text) : WriteM Unit := do
  let resp ← send (.abort key uploadId)
  if resp.isSuccess ∨ resp.status = 404 then pure () else throw resp.error

def orAbort {α : Type} (key uploadId : Text) (body : WriteM α) : WriteM α :=
  tryCatch body fun e => do
    let _ ← ExceptT.lift (abortMultipart key uploadId).run
    throw e

def sendParts {σ : Type} (next : σ → PartSpan → WriteM (Bytes × σ)) (key uploadId : Text) :
    List PartSpan → σ → List (Nat × Text) → WriteM (σ × List (Nat × Text))
  | [], source, parts => pure (source, parts)
  | span :: plan, source, parts => do
    let (part, source) ← next source span
    let etag ← uploadPart key uploadId span.number part
    charge span.len
    sendParts next key uploadId plan source (parts ++ [(span.number, etag)])

/-! ### Bytes in hand -/

variable (digest : HashAlgo → Bytes → Bytes) (basePart : Nat)

def partSizeFor (size : Nat) : Except StoreError Nat :=
  adaptivePartSize size basePart minPartSize maxPartSize maxParts

def slicePart (data : Bytes) (source : Unit) (span : PartSpan) : WriteM (Bytes × Unit) :=
  pure ((data.drop span.offset).take span.len, source)

def uploadPartsAndComplete (key uploadId : Text) (data : Bytes) : WriteM Unit := do
  let partSize ← Prog.ofExcept (partSizeFor basePart data.length)
  let (_, parts) ← sendParts (slicePart data) key uploadId (planParts data.length partSize) () []
  completeUpload key uploadId parts

def putMultipart (key : Text) (data : Bytes) (modified : Option Int) : WriteM Unit := do
  let uploadId ← createUpload key modified
  orAbort key uploadId (uploadPartsAndComplete basePart key uploadId data)

/-- One request, charged as one window, or several. -/
def putSized (key : Text) (data : Bytes) (modified : Option Int) : WriteM Unit :=
  if useMultipart data.length basePart then putMultipart basePart key data modified
  else do
    putSingle key data modified
    charge data.length

def put (key : Text) (data : Bytes) (expected : ContentHash) (modified : Option Int) :
    WriteM PutOutcome := do
  let caller := compute digest expected.algo data
  requireMatch expected caller
  putSized basePart key data modified
  return ⟨data.length, caller⟩

/-! ### A file -/

def readPart (whole : Bytes) (span : PartSpan) : WriteM (Bytes × Bytes) := do
  let part ← fillBuf span.len
  if part.1.length = span.len then return (part.1, whole ++ part.1)
  else throw (.backend "s3 stream: source file shorter than expected (changed under read)")

def uploadAndComplete (key uploadId : Text) (expected : ContentHash) : WriteM ContentHash := do
  let size ← metadata
  let partSize ← Prog.ofExcept (partSizeFor basePart size)
  openFile
  let (whole, parts) ← sendParts readPart key uploadId (planParts size partSize) [] []
  let verified := compute digest expected.algo whole
  requireMatch expected verified
  completeUpload key uploadId parts
  return verified

def putMultipartFromPath (key : Text) (expected : ContentHash) (modified : Option Int) :
    WriteM ContentHash := do
  let uploadId ← createUpload key modified
  orAbort key uploadId (uploadAndComplete digest basePart key uploadId expected)

def putFromPath (key : Text) (expected : ContentHash) (modified : Option Int) :
    WriteM PutOutcome := do
  let size ← metadata
  if useMultipart size basePart then do
    let verified ← putMultipartFromPath digest basePart key expected modified
    return ⟨size, verified⟩
  else do
    let data ← readFile
    put digest basePart key data expected modified

/-! ### An object that is still being produced -/

def drainWhole (source : ObjectStream) (size : Nat) : WriteM (Bytes × ContentHash) := do
  let (whole, source) ← streamed (source.fill size)
  let (hash, _) ← streamed (source.sealed digest)
  if whole.length = size then return (whole, hash) else throw (.shortWrite size whole.length)

def fillPart (size : Nat) (source : ObjectStream) (span : PartSpan) :
    WriteM (Bytes × ObjectStream) := do
  let (part, source) ← streamed (source.fill span.len)
  if part.length = span.len then return (part, source)
  else throw (.shortWrite size (span.offset + part.length))

def streamPartsAndComplete (key uploadId : Text) (source : ObjectStream) (size : Nat) :
    WriteM PutOutcome := do
  let partSize ← Prog.ofExcept (partSizeFor basePart size)
  let (source, parts) ← sendParts (fillPart size) key uploadId (planParts size partSize) source []
  let (verified, _) ← streamed (source.sealed digest)
  completeUpload key uploadId parts
  return ⟨size, verified⟩

def putStream (key : Text) (source : ObjectStream) (modified : Option Int) : WriteM PutOutcome :=
  if useMultipart source.len basePart then do
    let uploadId ← createUpload key modified
    orAbort key uploadId (streamPartsAndComplete digest basePart key uploadId source source.len)
  else do
    let (whole, expected) ← drainWhole digest source source.len
    put digest basePart key whole expected modified

inductive Writer where
  | put (data : Bytes) (expected : ContentHash)
  | putFromPath (expected : ContentHash)
  | putStream (len : Nat) (algo : HashAlgo)

def Writer.run (key : Text) (modified : Option Int) : Writer → WriteM PutOutcome
  | .put data expected => Write.put digest basePart key data expected modified
  | .putFromPath expected => Write.putFromPath digest basePart key expected modified
  | .putStream len algo => Write.putStream digest basePart key (.new len algo) modified

/-! ### The server -/

def sent (r : Request) (x : Except StoreError Response) : Exchange := ⟨.other (.send r), x⟩

structure Etag where
  text : Text
  clean : '<' ∉ text

structure Upload where
  key : Text
  parts : Nat → Option (Etag × Bytes)

abbrev Bucket := Text → Option Upload

/-- What a request has done. -/
inductive Effect where
  | nothing
  | stored (key : Text) (data : Bytes)
  | opened (uploadId : Text)
  | completed (uploadId key : Text) (data : Bytes)

def errorDocument (body : Text) : Bool := (extractTag body "Error".toList).isSome

/-- The server has accepted the request: a success without an error in its body. -/
def Request.Accepted (r : Request) (resp : Response) : Prop :=
  resp.isSuccess = true ∧ match r with
    | .complete .. => errorDocument resp.body = false
    | _ => True

/-- If an answer comes, the request was accepted. -/
def Request.Acts (r : Request) (x : Except StoreError Response) : Prop :=
  ∀ resp, x = .ok resp → r.Accepted resp

/-- If an answer comes, the request was not accepted. -/
def Request.Declines (r : Request) (x : Except StoreError Response) : Prop :=
  ∀ resp, x = .ok resp → ¬r.Accepted resp

/-- What the server documents: an upload gets a new id, a part is kept under its number with its
`ETag`, and a completion makes an object of the parts that the manifest lists, each with the `ETag`
that it was given. -/
inductive Step : Bucket → Exchange × Effect → Bucket → Prop
  | other {b : Bucket} {e : Exchange} (h : ∀ r x, e ≠ sent r x) : Step b (e, .nothing) b
  | declined {b : Bucket} {r : Request} {x : Except StoreError Response} (h : r.Declines x) :
    Step b (sent r x, .nothing) b
  | put {b : Bucket} {key : Text} {headers : List (Text × Text)} {data : Bytes}
    {x : Except StoreError Response}
      (h : Request.Acts (.put key headers data) x) :
        Step b (sent (.put key headers data) x, .stored key data) b
  | create {b : Bucket} {key id : Text} {headers : List (Text × Text)}
    {x : Except StoreError Response}
      (h : Request.Acts (.create key headers) x) (hnew : b id = none) :
      Step b (sent (.create key headers) x, .opened id) (update b id (some ⟨key, fun _ => none⟩))
  | part {b : Bucket} {key id : Text} {number : Nat} {chunk : Bytes}
    {x : Except StoreError Response} {u : Upload}
      {tag : Etag} (h : Request.Acts (.uploadPart key id number chunk) x) (hopen : b id = some u)
        (hkey : u.key = key)
      (htag : ∀ resp t, x = .ok resp → resp.etag = some t → t = tag.text) :
      Step b (sent (.uploadPart key id number chunk) x, .nothing)
        (update b id (some { u with parts := update u.parts number (some (tag, chunk)) }))
  | complete {b : Bucket} {key id : Text} {parts : List (Nat × Text)} {chunks : List Bytes}
      {x : Except StoreError Response} {u : Upload}
        (h : Request.Acts (.complete key id (partsXml parts)) x)
      (hopen : b id = some u) (hkey : u.key = key)
      (hparts : List.Forall₂ (fun part chunk => ∃ tag, u.parts part.1 = some (tag, chunk) ∧
        tag.text = part.2) parts chunks) :
      Step b (sent (.complete key id (partsXml parts)) x, .completed id key chunks.flatten)
        (update b id none)
  | abort {b : Bucket} {key id : Text} {x : Except StoreError Response}
    (h : Request.Acts (.abort key id) x) :
      Step b (sent (.abort key id) x, .nothing) (update b id none)

/-- The server has made an object of these bytes. -/
def Commits (t : List (Exchange × Effect)) (key : Text) (data : Bytes) : Prop :=
  ∃ e, (e, Effect.stored key data) ∈ t ∨ ∃ id, (e, Effect.completed id key data) ∈ t

/-- The server has opened the upload. -/
def Opened (t : List (Exchange × Effect)) (id : Text) : Prop := ∃ e, (e, Effect.opened id) ∈ t

/-- An upload is completed, or the server was asked to abort it. -/
def Settled (t : List (Exchange × Effect)) (id : Text) : Prop :=
  (∃ e key data, (e, Effect.completed id key data) ∈ t) ∨ ∃ key x f, (sent (.abort key id) x, f) ∈ t

def sourceBytes (l : List Exchange) : Bytes := l.flatMap fun
  | ⟨.recv, some (.bytes b _)⟩ => b
  | ⟨.other .readFile, .ok b⟩ => b
  | ⟨.other (.fillBuf _), .ok b⟩ => b.1
  | _ => []

def received (l : List Exchange) : List Window := l.filterMap fun
  | ⟨.recv, m⟩ => m
  | _ => none

/-- The digest that is answered is that of the bytes that the writer was given, and the one
expected. -/
def Writer.Agreed (digest : HashAlgo → Bytes → Bytes) (l : List Exchange) (data : Bytes)
    (verified : ContentHash)
    (w : Writer) : Prop :=
  verified = compute digest verified.algo data ∧ match w with
    | .put data' expected => data = data' ∧ verified = expected
    | .putFromPath expected => data = sourceBytes l ∧ verified = expected
    | .putStream len algo => data = sourceBytes l ∧ verified.algo = algo ∧
      .done verified ∈ received l ∧
        data.length % 2 ^ 64 = len

/-- What the writers are for: success is reported for an object that is there, and no upload is left
behind. -/
def Sound (digest : HashAlgo → Bytes → Bytes) (w : Writer) (key : Text)
    (t : List (Exchange × Effect))
    (x : Except StoreError PutOutcome) : Prop :=
  (∀ outcome, x = .ok outcome → ∃ data, w.Agreed digest (t.map Prod.fst) data outcome.verified ∧
    Commits t key data) ∧
    ∀ id, Opened t id → Settled t id

/-- The server's answers say what it has done: no success has an `Error` document for a body, and
the id of an upload that it opens reaches the writer. -/
structure Answered (t : List (Exchange × Effect)) : Prop where
  completes : ∀ key id body resp f, (sent (.complete key id body) (.ok resp), f) ∈ t →
    resp.isSuccess = true →
    errorDocument resp.body = false
  names : ∀ e id, (e, Effect.opened id) ∈ t →
    ∃ key headers resp, e = sent (.create key headers) (.ok resp) ∧
    resp.uploadId = .ok id

/-! ### What the server does with a request -/

theorem sent_inj {r r' : Request} {x x' : Except StoreError Response} (h : sent r x = sent r' x') :
    r = r' ∧ x = x' := by
  unfold sent at h
  cases h
  exact ⟨rfl, rfl⟩

section Server

variable {b b' : Bucket} {e : Exchange} {f : Effect} {key id : Text}
  {x : Except StoreError Response} {resp : Response}
  {headers : List (Text × Text)} {number : Nat} {chunk data : Bytes} {body : Text}
    {t : List (Exchange × Effect)}

/-- The exchange is no request to the server. -/
def Quiet (e : Exchange) : Prop := ∀ r x, e ≠ sent r x

theorem Step.of_quiet (h : Step b (e, f) b') (he : Quiet e) : f = .nothing ∧ b' = b := by
  cases h with
  | other => exact ⟨rfl, rfl⟩
  | _ => exact absurd rfl (he _ _)

def Request.Did (b : Bucket) (x : Except StoreError Response) (f : Effect) (b' : Bucket) :
    Request → Prop
  | .put key _ data => f = .stored key data
  | .create key _ => ∃ id, f = .opened id ∧ b' = update b id (some ⟨key, fun _ => none⟩)
  | .uploadPart _ id number chunk => f = .nothing ∧ ∃ u tag, b id = some u ∧
      (∀ resp t, x = .ok resp → resp.etag = some t → t = tag.text) ∧
      b' = update b id (some { u with parts := update u.parts number (some (tag, chunk)) })
  | .complete key id body => ∃ parts chunks u, b id = some u ∧ body = partsXml parts ∧
      List.Forall₂ (fun part chunk => ∃ tag, u.parts part.1 = some (tag, chunk) ∧ tag.text = part.2)
        parts chunks ∧
      f = .completed id key chunks.flatten
  | .abort _ _ => f = .nothing

variable {r : Request}

theorem Step.did (h : Step b (sent r x, f) b') :
    f = .nothing ∧ r.Declines x ∨ r.Acts x ∧ r.Did b x f b' := by
  generalize he : sent r x = e at h
  cases h with
  | other hother => exact absurd he.symm (hother _ _)
  | declined hdeclines =>
    obtain ⟨rfl, rfl⟩ := sent_inj he
    exact .inl ⟨rfl, hdeclines⟩
  | put hacts =>
    obtain ⟨rfl, rfl⟩ := sent_inj he
    exact .inr ⟨hacts, rfl⟩
  | create hacts =>
    obtain ⟨rfl, rfl⟩ := sent_inj he
    exact .inr ⟨hacts, _, rfl, rfl⟩
  | part hacts hopen _ htag =>
    obtain ⟨rfl, rfl⟩ := sent_inj he
    exact .inr ⟨hacts, rfl, _, _, hopen, htag, rfl⟩
  | complete hacts hopen _ hparts =>
    obtain ⟨rfl, rfl⟩ := sent_inj he
    exact .inr ⟨hacts, _, _, _, hopen, rfl, hparts, rfl⟩
  | abort hacts =>
    obtain ⟨rfl, rfl⟩ := sent_inj he
    exact .inr ⟨hacts, rfl⟩

theorem not_declines (h : r.Accepted resp) : ¬r.Declines (.ok resp) :=
  fun hdeclines => hdeclines resp rfl h

/-! ### The manifest -/

theorem ltSign_not_mem_toDigits (n : Nat) :
    '<' ∉ Nat.toDigits 10 n := (spells_toDigits n).not_mem rfl

theorem append_lt_inj {s s' rest rest' : Text} (hs : '<' ∉ s) (hs' : '<' ∉ s')
    (h : s ++ '<' :: rest = s' ++ '<' :: rest') : s = s' ∧ rest = rest' := by
  have hbefore : ∀ s : Text, '<' ∉ s → ∀ x ∈ s, decide (x = '<') = false :=
    fun s hs x hx => decide_eq_false fun hlt => hs (hlt ▸ hx)
  obtain ⟨rfl, -, rfl⟩ :=
    append_cons_inj (p := fun x => decide (x = '<')) (hbefore s hs) (hbefore s' hs')
    (decide_eq_true rfl) (decide_eq_true rfl) h
  exact ⟨rfl, rfl⟩

theorem partXml_append (p : Nat × Text) (rest : Text) : partXml p ++ rest =
    "<Part><PartNumber>".toList ++ (Nat.toDigits 10 p.1 ++ '<' :: ("/PartNumber><ETag>".toList ++
      (p.2 ++ '<' :: ("/ETag></Part>".toList ++ rest)))) := by
  have hnumber : "</PartNumber><ETag>".toList = '<' :: "/PartNumber><ETag>".toList := rfl
  have hetag : "</ETag></Part>".toList = '<' :: "/ETag></Part>".toList := rfl
  unfold partXml
  rw [hnumber, hetag, append_assoc, append_assoc, append_assoc, append_assoc, cons_append,
    cons_append]

theorem partXml_append_inj {p p' : Nat × Text} {rest rest' : Text} (hp : '<' ∉ p.2)
    (hp' : '<' ∉ p'.2) (h : partXml p ++ rest = partXml p' ++ rest') : p = p' ∧ rest = rest' := by
  rw [partXml_append, partXml_append, append_cancel_left_eq] at h
  obtain ⟨hnumber, h⟩ := append_lt_inj (ltSign_not_mem_toDigits _) (ltSign_not_mem_toDigits _) h
  rw [append_cancel_left_eq] at h
  obtain ⟨hetag, h⟩ := append_lt_inj hp hp' h
  rw [append_cancel_left_eq] at h
  have hsame := (spells_toDigits p.1).unique (hnumber ▸ spells_toDigits p'.1)
  exact ⟨Prod.ext hsame hetag, h⟩

theorem partsXml_inj {parts parts' : List (Nat × Text)} (hparts : ∀ p ∈ parts, '<' ∉ p.2)
    (hparts' : ∀ p ∈ parts', '<' ∉ p.2) (h : partsXml parts = partsXml parts') :
    parts = parts' := by
  unfold partsXml at h
  rw [append_assoc, append_assoc, append_cancel_left_eq, append_cancel_right_eq] at h
  induction parts generalizing parts' with
  | nil =>
    cases parts' with
    | nil => rfl
    | cons p' rest' => cases h
  | cons p rest ih =>
    cases parts' with
    | nil => cases h
    | cons p' rest' =>
      rw [flatMap_cons, flatMap_cons] at h
      obtain ⟨rfl, hrest⟩ :=
        partXml_append_inj (hparts p mem_cons_self) (hparts' p' mem_cons_self) h
      rw [ih (fun q hq => hparts q (mem_cons_of_mem _ hq))
        (fun q hq => hparts' q (mem_cons_of_mem _ hq)) hrest]

/-! ### The parts of an upload -/

def uploaded (l : List Exchange) : List (Nat × Text × Bytes) := l.filterMap fun
  | ⟨.other (.send (.uploadPart _ _ number chunk)), .ok resp⟩ =>
    some (number, resp.etag.getD [], chunk)
  | _ => none

def uploadedBytes (l : List Exchange) : Bytes := (uploaded l).flatMap fun p => p.2.2

/-- The manifest entries of the accepted parts. -/
def entries (l : List Exchange) : List (Nat × Text) := (uploaded l).map fun p => (p.1, p.2.1)

def numbers (l : List Exchange) : List Nat := (uploaded l).map Prod.fst

/-- The exchange uploads a part of this upload, or is quiet. -/
def Feeding (key id : Text) (e : Exchange) : Prop :=
  Quiet e ∨ ∃ number chunk resp, e = sent (.uploadPart key id number chunk) (.ok resp) ∧
    resp.isSuccess = true

def Trying (key id : Text) (e : Exchange) : Prop :=
  Quiet e ∨ (∃ number chunk x, e = sent (.uploadPart key id number chunk) x) ∨
    ∃ body x, e = sent (.complete key id body) x ∧ ∀ resp, x = .ok resp → resp.isSuccess = false

theorem uploaded_quiet (h : Quiet e) (l : List Exchange) : uploaded (e :: l) = uploaded l := by
  match e, h with
  | ⟨.recv, _⟩, _ => rfl
  | ⟨.other (.send r), x⟩, h => exact absurd rfl (h r x)
  | ⟨.other .metadata, _⟩, _ => rfl
  | ⟨.other .readFile, _⟩, _ => rfl
  | ⟨.other .openFile, _⟩, _ => rfl
  | ⟨.other (.fillBuf _), _⟩, _ => rfl
  | ⟨.other (.charge _), _⟩, _ => rfl

theorem Step.of_feeding (h : Step b (e, f) b') (he : Feeding key id e) : f = .nothing := by
  rcases he with hquiet | ⟨number, chunk, resp, rfl, -⟩
  · exact (h.of_quiet hquiet).1
  · rcases h.did with ⟨hnothing, -⟩ | ⟨-, hnothing, -⟩
    · exact hnothing
    · exact hnothing

theorem Step.of_trying (h : Step b (e, f) b') (he : Trying key id e) :
    f = .nothing ∨ ∃ data, f = .completed id key data := by
  rcases he with hquiet | ⟨number, chunk, x, rfl⟩ | ⟨body, x, rfl, -⟩
  · exact .inl (h.of_quiet hquiet).1
  · rcases h.did with ⟨hnothing, -⟩ | ⟨-, hnothing, -⟩
    · exact .inl hnothing
    · exact .inl hnothing
  · rcases h.did with ⟨hnothing, -⟩ | ⟨-, parts, chunks, u, -, -, -, hcompleted⟩
    · exact .inl hnothing
    · exact .inr ⟨_, hcompleted⟩

/-- The server holds the parts that it has accepted, as long as no number is given twice. -/
structure Holds (u u' : Upload) (l : List Exchange) : Prop where
  others : ∀ n ∉ numbers l, u'.parts n = u.parts n
  held : (numbers l).Nodup → ∀ p ∈ uploaded l, ∃ tag, u'.parts p.1 = some (tag, p.2.2)
  clean : ∀ p ∈ uploaded l, '<' ∉ p.2.1

variable {u : Upload}

theorem path_feeding (hfeeding : ∀ y ∈ t, Feeding key id y.1) (hpath : Prog.Path Step b t b')
    (hopen : b id = some u) : ∃ u', b' id = some u' ∧ Holds u u' (t.map Prod.fst) := by
  induction t generalizing b u with
  | nil =>
    obtain rfl : b = b' := hpath
    exact ⟨u, hopen, fun _ _ => rfl, fun _ _ hmem => absurd hmem not_mem_nil,
      fun _ hmem => absurd hmem not_mem_nil⟩
  | cons y t ih =>
    obtain ⟨e, f⟩ := y
    obtain ⟨b₁, hstep, hrest⟩ := hpath
    have hmore : ∀ y ∈ t, Feeding key id y.1 := fun y hy => hfeeding y (mem_cons_of_mem _ hy)
    rcases hfeeding (e, f) mem_cons_self with hquiet | ⟨number, chunk, resp, rfl, hok⟩
    · obtain ⟨-, rfl⟩ := hstep.of_quiet hquiet
      obtain ⟨u', hu', hholds⟩ := ih hmore hrest hopen
      have huploaded : uploaded (((e, f) :: t).map Prod.fst) = uploaded (t.map Prod.fst) :=
        uploaded_quiet hquiet _
      exact ⟨u', hu', by rw [numbers, huploaded]; exact hholds.others,
        by rw [numbers, huploaded]; exact hholds.held, by rw [huploaded]; exact hholds.clean⟩
    · have hnot : ¬Request.Declines (.uploadPart key id number chunk) (.ok resp) :=
        not_declines ⟨hok, trivial⟩
      obtain ⟨-, -, u₁, tag, hu₁, htag, rfl⟩ := hstep.did.resolve_left fun h => hnot h.2
      rw [hopen] at hu₁
      obtain rfl := Option.some.inj hu₁
      obtain ⟨u', hu', hholds⟩ := ih hmore hrest (update_self ..)
      have huploaded :
          uploaded (((sent (.uploadPart key id number chunk) (.ok resp), f) :: t).map Prod.fst) =
          (number, resp.etag.getD [], chunk) :: uploaded (t.map Prod.fst) := rfl
      refine ⟨u', hu', ?_, ?_, ?_⟩
      · intro n hn
        rw [numbers, huploaded, map_cons, mem_cons, not_or] at hn
        rw [hholds.others n hn.2]
        exact update_of_ne hn.1 ..
      · intro hnodup p hp
        rw [numbers, huploaded, map_cons, nodup_cons] at hnodup
        rcases mem_cons.mp hp with rfl | hp
        · refine ⟨tag, ?_⟩
          rw [hholds.others number hnodup.1]
          exact update_self ..
        · exact hholds.held hnodup.2 p hp
      · intro p hp
        rcases mem_cons.mp hp with rfl | hp
        · cases hetag : resp.etag with
          | none => exact not_mem_nil
          | some text =>
            rw [htag resp text rfl hetag]
            exact tag.clean
        · exact hholds.clean p hp

theorem chunks_eq {ps : List (Nat × Text × Bytes)} {chunks : List Bytes}
    (hheld : ∀ p ∈ ps, ∃ tag, u.parts p.1 = some (tag, p.2.2))
    (h : List.Forall₂ (fun part chunk => ∃ tag, u.parts part.1 = some (tag, chunk) ∧
      tag.text = part.2) (ps.map fun p => (p.1, p.2.1)) chunks) :
    chunks.flatten = ps.flatMap fun p => p.2.2 := by
  induction ps generalizing chunks with
  | nil =>
    cases h
    rfl
  | cons p ps ih =>
    cases h with
    | cons hchunk hrest =>
      obtain ⟨tag, hpart, -⟩ := hchunk
      obtain ⟨tag', hpart'⟩ := hheld p mem_cons_self
      have hsame := hpart.symm.trans hpart'
      obtain rfl := (Prod.ext_iff.mp (Option.some.inj hsame)).2
      rw [flatten_cons, flatMap_cons, ih (fun q hq => hheld q (mem_cons_of_mem _ hq)) hrest]

theorem Step.of_complete {u' : Upload} {l : List Exchange}
    (h : Step b (sent (.complete key id (partsXml (entries l))) (.ok resp), f) b')
    (hok : resp.isSuccess = true) (hbody : errorDocument resp.body = false) (hopen : b id = some u')
    (hholds : Holds u u' l) (hnodup : (numbers l).Nodup) :
    f = .completed id key (uploadedBytes l) := by
  have hnot : ¬Request.Declines (.complete key id (partsXml (entries l))) (.ok resp) :=
    not_declines ⟨hok, hbody⟩
  obtain ⟨-, parts, chunks, u₁, hu₁, hparts, hchunks, rfl⟩ := h.did.resolve_left fun h => hnot h.2
  rw [hopen] at hu₁
  obtain rfl := Option.some.inj hu₁
  have hclean : ∀ p ∈ entries l, '<' ∉ p.2 := by
    intro p hp
    obtain ⟨q, hq, rfl⟩ := mem_map.mp hp
    exact hholds.clean q hq
  have hclean' : ∀ p ∈ parts, '<' ∉ p.2 := by
    intro p hp
    obtain ⟨chunk, -, tag, -, htag⟩ := forall₂_exists_right hchunks hp
    exact htag ▸ tag.clean
  obtain rfl := partsXml_inj hclean hclean' hparts
  rw [chunks_eq (hholds.held hnodup) hchunks]
  rfl

/-! ### Whole conversations -/

/-- A part that is uploaded, or something that the server does not see, which has no effect to speak
of. -/
def Idle (y : Exchange × Effect) : Prop :=
  y.2 = .nothing ∧ ∀ r x, y.1 = sent r x →
    ∃ key id number chunk, r = .uploadPart key id number chunk

structure Agree (t q : List (Exchange × Effect)) : Prop where
  kept : ∀ y ∈ q, y ∈ t
  idle : ∀ y ∈ t, y ∈ q ∨ Idle y

variable {q : List (Exchange × Effect)} {y : Exchange × Effect}

/-- The exchange has stored the data under the key. -/
def Stores (key : Text) (data : Bytes) (y : Exchange × Effect) : Prop :=
  y.2 = .stored key data ∨ ∃ id, y.2 = .completed id key data

def Settles (id : Text) (y : Exchange × Effect) : Prop :=
  (∃ key data, y.2 = .completed id key data) ∨ ∃ key x, y.1 = sent (.abort key id) x

def Tells (y : Exchange × Effect) : Prop :=
  (∀ key id body resp, y.1 = sent (.complete key id body) (.ok resp) → resp.isSuccess = true →
    errorDocument resp.body = false) ∧
  ∀ id, y.2 = .opened id → ∃ key headers resp, y.1 = sent (.create key headers) (.ok resp) ∧
    resp.uploadId = .ok id

theorem opened_iff : Opened t id ↔ ∃ y ∈ t, y.2 = .opened id := by
  simp [Opened]

theorem commits_iff : Commits t key data ↔ ∃ y ∈ t, Stores key data y := by
  simp only [Commits, Stores, Prod.exists]
  constructor
  · rintro ⟨e, h | ⟨id, h⟩⟩
    · exact ⟨e, _, h, .inl rfl⟩
    · exact ⟨e, _, h, .inr ⟨id, rfl⟩⟩
  · rintro ⟨e, f, h, rfl | ⟨id, rfl⟩⟩
    · exact ⟨e, .inl h⟩
    · exact ⟨e, .inr ⟨id, h⟩⟩

theorem settled_iff : Settled t id ↔ ∃ y ∈ t, Settles id y := by
  simp only [Settled, Settles, Prod.exists]
  constructor
  · rintro (⟨e, key, data, h⟩ | ⟨key, x, f, h⟩)
    · exact ⟨e, _, h, .inl ⟨key, data, rfl⟩⟩
    · exact ⟨_, f, h, .inr ⟨key, x, rfl⟩⟩
  · rintro ⟨e, f, h, ⟨key, data, rfl⟩ | ⟨key, x, rfl⟩⟩
    · exact .inl ⟨e, key, data, h⟩
    · exact .inr ⟨key, x, f, h⟩

theorem answered_iff : Answered t ↔ ∀ y ∈ t, Tells y := by
  constructor
  · rintro ⟨hcompletes, hnames⟩ ⟨e, f⟩ hmem
    refine ⟨?_, ?_⟩
    · rintro key id body resp rfl
      exact hcompletes key id body resp f hmem
    · rintro id rfl
      exact hnames e id hmem
  · exact fun h => ⟨fun key id body resp f hmem => (h _ hmem).1 key id body resp rfl,
      fun e id hmem => (h _ hmem).2 id rfl⟩

theorem Idle.tells (h : Idle y) : Tells y := by
  refine ⟨fun key id body resp hsent => ?_, fun id hopened => ?_⟩
  · obtain ⟨key', id', number, chunk, hpart⟩ := h.2 _ _ hsent
    cases hpart
  · cases h.1.symm.trans hopened

theorem Idle.not_stores (h : Idle y) : ¬Stores key data y := by
  simp [Stores, h.1]

theorem Idle.not_settles (h : Idle y) : ¬Settles id y := by
  rintro (⟨key, data, hcompleted⟩ | ⟨key, x, hsent⟩)
  · cases h.1.symm.trans hcompleted
  · obtain ⟨key', id', number, chunk, hpart⟩ := h.2 _ _ hsent
    cases hpart

theorem Agree.exists_mem (h : Agree t q) {P : Exchange × Effect → Prop} (hP : ∀ y, Idle y → ¬P y) :
    (∃ y ∈ t, P y) ↔ ∃ y ∈ q, P y :=
  ⟨fun ⟨y, hy, hp⟩ => ⟨y, (h.idle y hy).resolve_right fun hidle => hP y hidle hp, hp⟩,
    fun ⟨y, hy, hp⟩ => ⟨y, h.kept y hy, hp⟩⟩

/-- What a writer says to the server, and the bytes that it takes to be stored, if it reports
success. -/
inductive Shape (key : Text) : List Exchange → Option Bytes → Prop
  | unsent {l : List Exchange} (h : ∀ e ∈ l, Quiet e) : Shape key l none
  | put {pre post : List Exchange} {headers : List (Text × Text)} {data : Bytes} {resp : Response}
      (hpre : ∀ e ∈ pre, Quiet e) (hpost : ∀ e ∈ post, Quiet e) (hok : resp.isSuccess = true) :
      Shape key (pre ++ sent (.put key headers data) (.ok resp) :: post) (some data)
  | putFailed {pre : List Exchange} {headers : List (Text × Text)} {data : Bytes}
    {x : Except StoreError Response}
      (hpre : ∀ e ∈ pre, Quiet e) : Shape key (pre ++ [sent (.put key headers data) x]) none
  | unnamed {pre : List Exchange} {headers : List (Text × Text)} {x : Except StoreError Response}
      (hpre : ∀ e ∈ pre, Quiet e) (hx : ∀ resp id, x = .ok resp → resp.uploadId ≠ .ok id) :
      Shape key (pre ++ [sent (.create key headers) x]) none
  | completed {pre feed : List Exchange} {headers : List (Text × Text)}
    {resp resp' : Response} {id : Text}
      (hpre : ∀ e ∈ pre, Quiet e) (hid : resp.uploadId = .ok id) (hfeed : ∀ e ∈ feed,
        Feeding key id e)
      (hnodup : (numbers feed).Nodup) (hok : resp'.isSuccess = true) :
      Shape key (pre ++ sent (.create key headers) (.ok resp) ::
        (feed ++ [sent (.complete key id (partsXml (entries feed))) (.ok resp')]))
          (some (uploadedBytes feed))
  | aborted {pre tries : List Exchange} {headers : List (Text × Text)} {resp : Response} {id : Text}
      {x : Except StoreError Response} (hpre : ∀ e ∈ pre, Quiet e) (hid : resp.uploadId = .ok id)
      (htries : ∀ e ∈ tries, Trying key id e) :
      Shape key (pre ++ sent (.create key headers) (.ok resp) ::
        (tries ++ [sent (.abort key id) x])) none

theorem path_idle (hfeeding : ∀ y ∈ t, Feeding key id y.1) (hpath : Prog.Path Step b t b') :
    ∀ y ∈ t, Idle y := by
  refine hpath.forall_mem (fun b y b' hy hstep => ⟨hstep.of_feeding hy, ?_⟩) hfeeding
  intro r x hsent
  rcases hy with hquiet | ⟨number, chunk, resp, heq, -⟩
  · exact absurd hsent (hquiet r x)
  · exact ⟨key, id, number, chunk, (sent_inj (hsent.symm.trans heq)).1⟩

theorem agree_of_idle {t₁ t₂ : List (Exchange × Effect)} (y : Exchange × Effect)
    (h₁ : ∀ z ∈ t₁, Idle z) (h₂ : Agree t₂ q) : Agree (t₁ ++ y :: t₂) (y :: q) where
  kept z hz := by
    rcases mem_cons.mp hz with rfl | hz
    · exact mem_append_right _ mem_cons_self
    · exact mem_append_right _ (mem_cons_of_mem _ (h₂.kept z hz))
  idle z hz := by
    rcases mem_append.mp hz with hz | hz
    · exact .inr (h₁ z hz)
    · rcases mem_cons.mp hz with rfl | hz
      · exact .inl mem_cons_self
      · exact (h₂.idle z hz).imp_left (mem_cons_of_mem _)

theorem agree_nil (h : ∀ z ∈ t, Idle z) :
    Agree t [] := ⟨fun _ hz => absurd hz not_mem_nil, fun z hz => .inr (h z hz)⟩

/-- The data is stored, if there is any, and every upload that was opened is settled. -/
def Ends (t : List (Exchange × Effect)) (key : Text) (d : Option Bytes) : Prop :=
  (∀ data, d = some data → Commits t key data) ∧ ∀ id, Opened t id → Settled t id

variable {d : Option Bytes}

theorem Agree.ends_iff (h : Agree t q) (hq : Ends q key d ↔ Answered q) :
    Ends t key d ↔ Answered t := by
  have hends : Ends t key d ↔ Ends q key d := by
    simp only [Ends, commits_iff, opened_iff, settled_iff]
    refine and_congr (forall₂_congr fun _ _ => h.exists_mem fun _ => Idle.not_stores)
      (forall_congr' fun id => ?_)
    refine imp_congr (h.exists_mem fun y hy => ?_) (h.exists_mem fun _ => Idle.not_settles)
    rw [hy.1]
    exact Effect.noConfusion
  rw [hends, hq, answered_iff, answered_iff]
  exact ⟨fun hall y hy => (h.idle y hy).elim (hall y) Idle.tells,
    fun hall y hy => hall y (h.kept y hy)⟩

theorem uploadId_ok (h : resp.uploadId = .ok id) : resp.isSuccess = true := by
  by_contra hfail
  have hrefused : resp.accepted = .error resp.error := if_neg hfail
  rw [Response.uploadId, hrefused] at h
  cases h

theorem Step.of_put_ok (h : Step b (sent (.put key headers data) (.ok resp), f) b')
    (hok : resp.isSuccess = true) : f = .stored key data := by
  have hnot : ¬Request.Declines (.put key headers data) (.ok resp) := not_declines ⟨hok, trivial⟩
  exact (h.did.resolve_left fun h => hnot h.2).2

theorem Step.of_create (h : Step b (sent (.create key headers) x, f) b') :
    f = .nothing ∨ ∃ id, f = .opened id ∧ b' = update b id (some ⟨key, fun _ => none⟩) :=
  h.did.imp And.left And.right

theorem Step.of_create_ok (h : Step b (sent (.create key headers) (.ok resp), f) b')
    (hid : resp.uploadId = .ok id) :
    ∃ id₀, f = .opened id₀ ∧ b' = update b id₀ (some ⟨key, fun _ => none⟩) := by
  have hnot : ¬Request.Declines (.create key headers) (.ok resp) :=
    not_declines ⟨uploadId_ok hid, trivial⟩
  exact (h.did.resolve_left fun h => hnot h.2).2

theorem Step.of_completed (h : Step b (sent (.complete key id body) x, f) b') :
    f = .nothing ∨ ∃ data, f = .completed id key data := by
  rcases h.did with ⟨hnothing, -⟩ | ⟨-, parts, chunks, u, -, -, -, hcompleted⟩
  · exact .inl hnothing
  · exact .inr ⟨_, hcompleted⟩

theorem path_trying (htrying : ∀ y ∈ t, Trying key id y.1) (hpath : Prog.Path Step b t b') :
    ∀ y ∈ t, y.2 = .nothing ∨ ∃ data, y.2 = .completed id key data :=
  hpath.forall_mem (fun _ _ _ hy hstep => hstep.of_trying hy) htrying

/-! ### Conversations one by one -/

theorem sent_iff {r' : Request} {x' : Except StoreError Response} :
    sent r x = sent r' x' ↔ r = r' ∧ x = x' :=
  ⟨sent_inj, fun h => h.1 ▸ h.2 ▸ rfl⟩

theorem ends_put (hd : ∀ data', d = some data' → data' = data ∧ f = .stored key data)
    (hf : f = .nothing ∨ f = .stored key data) :
    Ends [(sent (.put key headers data) x, f)] key d ∧
      Answered [(sent (.put key headers data) x, f)] := by
  refine ⟨⟨fun data' hdata' => ?_, ?_⟩, ?_⟩
  · obtain ⟨rfl, rfl⟩ := hd data' hdata'
    exact ⟨_, .inl (mem_singleton_self _)⟩
  · rcases hf with rfl | rfl <;> simp [opened_iff]
  · rcases hf with rfl | rfl <;> simp [answered_iff, Tells, sent_iff]

theorem ends_unnamed_iff (hx : ∀ resp id, x = .ok resp → resp.uploadId ≠ .ok id)
    (hf : f = .nothing ∨ ∃ id, f = .opened id) :
    Ends [(sent (.create key headers) x, f)] key none ↔
      Answered [(sent (.create key headers) x, f)] := by
  rcases hf with rfl | ⟨id, rfl⟩
  · simp [Ends, opened_iff, answered_iff, Tells, sent_iff]
  · refine iff_of_false (fun h => ?_) fun h => ?_
    · have hsettled := h.2 id ⟨_, mem_singleton_self _⟩
      simp [settled_iff, Settles, sent_iff] at hsettled
    · obtain ⟨key', headers', resp, heq, hid⟩ := h.names _ id (mem_singleton_self _)
      exact hx resp id (sent_inj heq).2 hid

theorem Step.of_error_document (h : Step b (sent (.complete key id body) (.ok resp), f) b')
    (hbody : errorDocument resp.body = true) : f = .nothing := by
  rcases h.did with ⟨hnothing, -⟩ | ⟨hacts, -⟩
  · exact hnothing
  · have hclean := (hacts resp rfl).2
    rw [hbody] at hclean
    cases hclean

variable {id₀ : Text}

theorem ends_completed_iff {resp' : Response} (hid : resp.uploadId = .ok id)
    (hok : resp'.isSuccess = true)
    (hdone : id₀ = id → errorDocument resp'.body = false → f = .completed id key data)
    (herror : errorDocument resp'.body = true → f = .nothing)
    (hf : f = .nothing ∨ ∃ data', f = .completed id key data') :
    Ends [(sent (.create key headers) (.ok resp), .opened id₀),
      (sent (.complete key id body) (.ok resp'), f)] key
        (some data) ↔
      Answered [(sent (.create key headers) (.ok resp), .opened id₀),
        (sent (.complete key id body) (.ok resp'), f)] := by
  have hcomplete : (sent (.complete key id body) (.ok resp'), f) ∈
      [(sent (.create key headers) (.ok resp), .opened id₀),
        (sent (.complete key id body) (.ok resp'), f)] :=
    mem_cons_of_mem _ (mem_singleton_self _)
  by_cases hsame : id₀ = id
  · subst hsame
    cases hbody : errorDocument resp'.body with
    | false =>
      obtain rfl := hdone rfl hbody
      refine iff_of_true ⟨?_, ?_⟩ ?_
      · rintro data' ⟨⟩
        exact ⟨_, .inr ⟨_, hcomplete⟩⟩
      · simp [opened_iff, settled_iff, Settles]
      · simp only [answered_iff, Tells, sent_iff, forall_mem_cons]
        simp [hid]
        rintro _ _ _ _ - - - rfl -
        exact hbody
    | true =>
      obtain rfl := herror hbody
      refine iff_of_false (fun h => ?_) fun h => ?_
      · obtain ⟨e, hcommits⟩ := h.1 data rfl
        simp at hcommits
      · cases (h.completes _ _ _ _ _ hcomplete hok).symm.trans hbody
  · refine iff_of_false (fun h => ?_) fun h => ?_
    · have hsettled := h.2 id₀ ⟨_, mem_cons_self⟩
      rcases hf with rfl | ⟨data', rfl⟩ <;> simp [settled_iff, Settles, sent_iff, Ne.symm hsame]
        at hsettled
    · simp [answered_iff, Tells, sent_iff, hid, Ne.symm hsame] at h

section

variable (h : Trying key id y.1) (heffect : y.2 = .nothing ∨ ∃ data', y.2 = .completed id key data')
include h heffect

theorem Trying.tells : Tells y := by
  refine ⟨fun key' id' body' resp hsent hok => ?_, fun id' hopened => ?_⟩
  · rcases h with hquiet | ⟨number, chunk, x, heq⟩ | ⟨body, x, heq, hfail⟩
    · exact absurd hsent (hquiet _ _)
    · cases (sent_inj (hsent.symm.trans heq)).1
    · cases (hfail resp (sent_inj (hsent.symm.trans heq)).2.symm).symm.trans hok
  · rcases heffect with heffect | ⟨data', heffect⟩ <;> cases heffect.symm.trans hopened

theorem Trying.not_settles (hne : id₀ ≠ id) : ¬Settles id₀ y := by
  rintro (⟨key', data', hcompleted⟩ | ⟨key', x, hsent⟩)
  · rcases heffect with heffect | ⟨data'', heffect⟩
    · cases heffect.symm.trans hcompleted
    · exact hne (Effect.completed.inj (hcompleted.symm.trans heffect)).1
  · rcases h with hquiet | ⟨number, chunk, x', heq⟩ | ⟨body, x', heq, -⟩
    · exact absurd hsent (hquiet _ _)
    · cases (sent_inj (hsent.symm.trans heq)).1
    · cases (sent_inj (hsent.symm.trans heq)).1

end

theorem ends_aborted_iff {tries : List (Exchange × Effect)} (hid : resp.uploadId = .ok id)
    (htrying : ∀ y ∈ tries, Trying key id y.1)
    (heffects : ∀ y ∈ tries, y.2 = .nothing ∨ ∃ data', y.2 = .completed id key data')
    (hf : f = .nothing) :
    Ends ((sent (.create key headers) (.ok resp), .opened id₀) ::
      (tries ++ [(sent (.abort key id) x, f)])) key none ↔
      Answered ((sent (.create key headers) (.ok resp), .opened id₀) ::
        (tries ++ [(sent (.abort key id) x, f)])) := by
  subst hf
  have habort : (sent (.abort key id) x, Effect.nothing) ∈
      (sent (.create key headers) (.ok resp), Effect.opened id₀) ::
        (tries ++ [(sent (.abort key id) x, .nothing)]) :=
    mem_cons_of_mem _ (mem_append_right _ (mem_singleton_self _))
  have hnames : Answered ((sent (.create key headers) (.ok resp), Effect.opened id₀) ::
      (tries ++ [(sent (.abort key id) x, .nothing)])) ↔ id₀ = id := by
    have htells : ∀ y ∈ tries, Tells y := fun y hy => (htrying y hy).tells (heffects y hy)
    rw [answered_iff, forall_mem_cons, forall_mem_append,
      and_iff_left ⟨htells, by simp [Tells, sent_iff]⟩]
    simp only [Tells, sent_iff, reduceCtorEq, false_and, false_imp_iff, implies_true, true_and]
    constructor
    · intro h
      obtain ⟨_, _, _, ⟨-, heq⟩, hid'⟩ := h id₀ rfl
      obtain rfl := Except.ok.inj heq
      exact Except.ok.inj (hid'.symm.trans hid)
    · rintro rfl id' ⟨⟩
      exact ⟨_, _, _, ⟨rfl, rfl⟩, hid⟩
  rw [hnames]
  constructor
  · intro h
    by_contra hne
    obtain ⟨y, hy, hsettles⟩ := settled_iff.mp (h.2 id₀ ⟨_, mem_cons_self⟩)
    rcases mem_cons.mp hy with rfl | hy
    · simp [Settles, sent_iff] at hsettles
    · rcases mem_append.mp hy with hy | hy
      · exact (htrying y hy).not_settles (heffects y hy) hne hsettles
      · simp [mem_singleton.mp hy, Settles, sent_iff, Ne.symm hne] at hsettles
  · rintro rfl
    refine ⟨nofun, fun id' ⟨e, hopened⟩ => ?_⟩
    obtain rfl : id' = id₀ := by
      obtain ⟨key', headers', resp', heq, hid'⟩ := (hnames.mpr rfl).names e id' hopened
      rcases mem_cons.mp hopened with heq' | hmem
      · exact Effect.opened.inj (Prod.ext_iff.mp heq').2
      · rcases mem_append.mp hmem with hmem | hmem
        · rcases heffects _ hmem with h | ⟨data', h⟩ <;> cases h
        · cases (Prod.ext_iff.mp (mem_singleton.mp hmem)).2
    exact .inr ⟨_, _, _, habort⟩

theorem path_quiet (hquiet : ∀ e ∈ t.map Prod.fst, Quiet e) (hpath : Prog.Path Step b t b') :
    ∀ y ∈ t, Idle y := by
  have hfeeding : ∀ y ∈ t, Feeding [] [] y.1 := fun _ hy => .inl (hquiet _ (mem_map_of_mem hy))
  exact path_idle hfeeding hpath

theorem Agree.refl (t : List (Exchange × Effect)) :
    Agree t t := ⟨fun _ hy => hy, fun _ hy => .inl hy⟩

/-- The server's step at one exchange of a path. -/
theorem path_split {pre post : List Exchange} {e : Exchange}
    (hl : t.map Prod.fst = pre ++ e :: post) (hpath : Prog.Path Step b t b') :
    ∃ t₁ f t₂ b₁ b₂, t = t₁ ++ (e, f) :: t₂ ∧ t₁.map Prod.fst = pre ∧ t₂.map Prod.fst = post ∧
      Prog.Path Step b t₁ b₁ ∧ Step b₁ (e, f) b₂ ∧ Prog.Path Step b₂ t₂ b' := by
  obtain ⟨t₁, t₂, rfl, rfl, ht₂⟩ := map_eq_append_iff.mp hl
  obtain ⟨⟨e, f⟩, t₃, rfl, rfl, rfl⟩ := map_eq_cons_iff.mp ht₂
  obtain ⟨b₁, hpath₁, b₂, hstep, hpath₂⟩ := path_append.mp hpath
  exact ⟨t₁, f, t₃, b₁, b₂, rfl, rfl, rfl, hpath₁, hstep, hpath₂⟩

/-- Success is reported for an object that is there, and no upload is left behind, exactly if the
server's answers say what it has done. -/
theorem Shape.ends_iff {l : List Exchange} (h : Shape key l d) (hl : t.map Prod.fst = l)
    (hpath : Prog.Path Step b t b') : Ends t key d ↔ Answered t := by
  cases h with
  | unsent hquiet =>
    subst hl
    refine (agree_nil (path_quiet hquiet hpath)).ends_iff (iff_of_true ⟨nofun, ?_⟩ ⟨nofun, nofun⟩)
    exact fun id ⟨e, hmem⟩ => absurd hmem not_mem_nil
  | @put pre post headers data resp hpre hpost hok =>
    obtain ⟨t₁, f, t₂, b₁, b₂, rfl, rfl, rfl, hpath₁, hstep, hpath₂⟩ := path_split hl hpath
    have hagree :=
      agree_of_idle (sent (.put key headers data) (.ok resp), f) (path_quiet hpre hpath₁)
      (agree_nil (path_quiet hpost hpath₂))
    have hstored := hstep.of_put_ok hok
    obtain ⟨hends, hanswered⟩ :=
      ends_put (fun data' hdata' => ⟨(Option.some.inj hdata').symm, hstored⟩) (.inr hstored)
    exact hagree.ends_iff (iff_of_true hends hanswered)
  | @putFailed pre headers data x hpre =>
    obtain ⟨t₁, f, t₂, b₁, b₂, rfl, rfl, ht₂, hpath₁, hstep, -⟩ := path_split hl hpath
    obtain rfl := map_eq_nil_iff.mp ht₂
    have hagree :=
      agree_of_idle (sent (.put key headers data) x, f) (path_quiet hpre hpath₁) (Agree.refl [])
    obtain ⟨hends, hanswered⟩ := ends_put (d := none) nofun (hstep.did.imp And.left And.right)
    exact hagree.ends_iff (iff_of_true hends hanswered)
  | @unnamed pre headers x hpre hx =>
    obtain ⟨t₁, f, t₂, b₁, b₂, rfl, rfl, ht₂, hpath₁, hstep, -⟩ := path_split hl hpath
    obtain rfl := map_eq_nil_iff.mp ht₂
    have hagree :=
      agree_of_idle (sent (.create key headers) x, f) (path_quiet hpre hpath₁) (Agree.refl [])
    refine hagree.ends_iff (ends_unnamed_iff hx ?_)
    exact hstep.of_create.imp_right fun ⟨id, hid, _⟩ => ⟨id, hid⟩
  | @completed pre feed headers resp resp' id hpre hid hfeed hnodup hok =>
    obtain ⟨t₁, f₀, t₃, b₁, b₂, rfl, rfl, ht₃, hpath₁, hcreate, hrest⟩ := path_split hl hpath
    obtain ⟨t₄, f, t₅, b₃, b₄, rfl, rfl, ht₅, hpath₂, hcomplete, -⟩ := path_split ht₃ hrest
    obtain rfl := map_eq_nil_iff.mp ht₅
    obtain ⟨id₀, rfl, rfl⟩ := hcreate.of_create_ok hid
    have hfeeding : ∀ y ∈ t₄, Feeding key id y.1 := fun y hy => hfeed _ (mem_map_of_mem hy)
    have hagree :=
      agree_of_idle (sent (.create key headers) (.ok resp), .opened id₀) (path_quiet hpre hpath₁)
      (agree_of_idle (sent (.complete key id (partsXml (entries (t₄.map Prod.fst)))) (.ok resp'), f)
        (path_idle hfeeding hpath₂) (Agree.refl []))
    refine hagree.ends_iff (ends_completed_iff hid hok ?_ (hcomplete.of_error_document)
      hcomplete.of_completed)
    rintro rfl hbody
    obtain ⟨u', hu', hholds⟩ := path_feeding hfeeding hpath₂ (update_self ..)
    exact hcomplete.of_complete hok hbody hu' hholds hnodup
  | @aborted pre tries headers resp id x hpre hid htries =>
    obtain ⟨t₁, f₀, t₃, b₁, b₂, rfl, rfl, ht₃, hpath₁, hcreate, hrest⟩ := path_split hl hpath
    obtain ⟨t₄, f, t₅, b₃, b₄, rfl, rfl, ht₅, hpath₂, habort, -⟩ := path_split ht₃ hrest
    obtain rfl := map_eq_nil_iff.mp ht₅
    obtain ⟨id₀, rfl, -⟩ := hcreate.of_create_ok hid
    have htrying : ∀ y ∈ t₄, Trying key id y.1 := fun y hy => htries _ (mem_map_of_mem hy)
    have hnothing : f = .nothing := habort.did.elim And.left And.right
    have hagree :=
      agree_of_idle (sent (.create key headers) (.ok resp), .opened id₀) (path_quiet hpre hpath₁)
      (Agree.refl (t₄ ++ [(sent (.abort key id) x, f)]))
    exact hagree.ends_iff (ends_aborted_iff hid htrying (path_trying htrying hpath₂) hnothing)

end Server

/-! ### What the writers say -/

section Writers

variable {σ α β : Type} {key id : Text} {l l' : List Exchange} {modified : Option Int} {r : Request}
  {e : StoreError}

theorem plays_send {x : Except StoreError Response} :
    Prog.Plays (send r).run l x ↔ l = [sent r x] := by
  rw [send, request, plays_request]
  constructor
  · rintro ⟨y, rfl, rfl⟩
    rfl
  · rintro rfl
    exact ⟨x, rfl, rfl⟩

variable {x : Except StoreError α}

theorem plays_send_check {check : Response → Except StoreError α}
    (h : Prog.Plays (send r >>= fun resp => Prog.ofExcept (check resp)).run l x) :
    ∃ y : Except StoreError Response, l = [sent r y] ∧ x = y.bind check := by
  rcases plays_fallible_bind.mp h with ⟨e, rfl, hsend⟩ | ⟨resp, l₁, l₂, rfl, hsend, hcheck⟩
  · exact ⟨.error e, plays_send.mp hsend, rfl⟩
  · obtain ⟨rfl, rfl⟩ := plays_ofExcept.mp hcheck
    rw [plays_send] at hsend
    exact ⟨.ok resp, by rw [hsend]; rfl, rfl⟩

theorem accepted_ok {resp : Response} : resp.accepted = .ok () ↔ resp.isSuccess = true := by
  unfold Response.accepted
  split
  next hok => exact iff_of_true rfl hok
  next hfail => exact iff_of_false nofun hfail

theorem plays_accepted_ok
    (h : Prog.Plays (send r >>= fun resp => Prog.ofExcept resp.accepted).run l (.ok ())) :
    ∃ resp, l = [sent r (.ok resp)] ∧ resp.isSuccess = true := by
  obtain ⟨y, rfl, hy⟩ := plays_send_check h
  cases y with
  | error e => cases hy
  | ok resp => exact ⟨resp, rfl, accepted_ok.mp hy.symm⟩

theorem plays_accepted_error
    (h : Prog.Plays (send r >>= fun resp => Prog.ofExcept resp.accepted).run l (.error e)) :
    ∃ y, l = [sent r y] ∧ ∀ resp, y = .ok resp → resp.isSuccess = false := by
  obtain ⟨y, rfl, hy⟩ := plays_send_check h
  refine ⟨y, rfl, ?_⟩
  rintro resp rfl
  by_contra hok
  rw [Bool.not_eq_false] at hok
  have haccepted : resp.accepted = .error e := hy.symm
  rw [accepted_ok.mpr hok] at haccepted
  cases haccepted

/-- A program that says nothing to the server. -/
abbrev Silent (p : WriteM α) : Prop := p.run.Asks fun r => ∀ q, r ≠ .other (.send q)

variable {p : WriteM α}

theorem Silent.quiet (hp : Silent p) (h : Prog.Plays p.run l x) : ∀ e ∈ l, Quiet e := by
  rintro e he r y rfl
  exact hp.plays h _ he r rfl

theorem quiet_nil : ∀ e ∈ ([] : List Exchange), Quiet e := fun _ hmem => absurd hmem not_mem_nil

theorem quiet_append (h : ∀ e ∈ l, Quiet e) (h' : ∀ e ∈ l', Quiet e) : ∀ e ∈ l ++ l', Quiet e :=
  forall_mem_append.mpr ⟨h, h'⟩

theorem Shape.quiet {pre : List Exchange} {d : Option Bytes} (h : Shape key l d)
    (hpre : ∀ e ∈ pre, Quiet e) : Shape key (pre ++ l) d := by
  cases h with
  | unsent hl => exact .unsent (quiet_append hpre hl)
  | put hl hpost hok =>
    rw [← append_assoc]
    exact .put (quiet_append hpre hl) hpost hok
  | putFailed hl =>
    rw [← append_assoc]
    exact .putFailed (quiet_append hpre hl)
  | unnamed hl hx =>
    rw [← append_assoc]
    exact .unnamed (quiet_append hpre hl) hx
  | completed hl hid hfeed hnodup hok =>
    rw [← append_assoc]
    exact .completed (quiet_append hpre hl) hid hfeed hnodup hok
  | aborted hl hid htries =>
    rw [← append_assoc]
    exact .aborted (quiet_append hpre hl) hid htries

/-- A program that stores bytes when it succeeds, of which `good` holds with its exchanges and its
result. -/
def Conveys (key : Text) (p : WriteM α) (good : List Exchange → Bytes → α → Prop) : Prop :=
  (∀ l a, Prog.Plays p.run l (.ok a) → ∃ data, Shape key l (some data) ∧ good l data a) ∧
    ∀ l e, Prog.Plays p.run l (.error e) → Shape key l none

theorem Conveys.after {p : WriteM α} {f : α → WriteM β} {good : List Exchange → Bytes → β → Prop}
    (hp : Silent p)
    (hf : ∀ a l₁, Prog.Plays p.run l₁ (.ok a) → Conveys key (f a) fun l₂ data b =>
      good (l₁ ++ l₂) data b) :
    Conveys key (p >>= f) good := by
  constructor
  · intro l b h
    obtain ⟨a, l₁, l₂, rfl, hok, hnext⟩ := plays_bind_ok.mp h
    obtain ⟨data, hshape, hgood⟩ := (hf a l₁ hok).1 l₂ b hnext
    exact ⟨data, hshape.quiet (hp.quiet hok), hgood⟩
  · intro l e h
    rcases plays_fallible_bind.mp h with ⟨e', -, hfail⟩ | ⟨a, l₁, l₂, rfl, hok, hnext⟩
    · exact .unsent (hp.quiet hfail)
    · exact ((hf a l₁ hok).2 l₂ e hnext).quiet (hp.quiet hok)

theorem Conveys.mono {good good' : List Exchange → Bytes → α → Prop} (hp : Conveys key p good)
    (h : ∀ l data a, good l data a → good' l data a) : Conveys key p good' :=
  ⟨fun l a hplays => (hp.1 l a hplays).imp fun data hdata => ⟨hdata.1, h l data a hdata.2⟩, hp.2⟩

theorem Conveys.map {g : α → β} {good : List Exchange → Bytes → α → Prop}
    {good' : List Exchange → Bytes → β → Prop} (hp : Conveys key p good)
    (h : ∀ l data a, good l data a → good' l data (g a)) :
    Conveys key (p >>= fun a => pure (g a)) good' := by
  constructor
  · intro l b hplays
    obtain ⟨a, hok, rfl⟩ := plays_map_ok.mp hplays
    obtain ⟨data, hshape, hgood⟩ := hp.1 l a hok
    exact ⟨data, hshape, h _ _ _ hgood⟩
  · intro l e hplays
    rcases plays_fallible_bind.mp hplays with ⟨e', -, hfail⟩ | ⟨a, l₁, l₂, rfl, hok, hpure⟩
    · exact hp.2 l e' hfail
    · cases (plays_pure.mp hpure).2

theorem quiet_charge (n : Nat) : Quiet ⟨.other (.charge n), ()⟩ := by
  intro r x h
  unfold sent at h
  cases h

theorem silent_charge (n : Nat) : Silent (charge n) := asks_query nofun

theorem conveys_putSingle (data : Bytes) :
    Conveys key (putSingle key data modified >>= fun _ => charge data.length) fun l data' _ =>
      data' = data ∧ sourceBytes l = [] ∧ received l = [] := by
  constructor
  · intro l a h
    obtain ⟨_, l₁, l₂, rfl, hput, hcharge⟩ := plays_bind_ok.mp h
    obtain ⟨resp, rfl, hok⟩ := plays_accepted_ok hput
    refine ⟨data, .put quiet_nil ((silent_charge _).quiet hcharge) hok, rfl, ?_⟩
    obtain ⟨_, rfl, -⟩ := plays_query.mp hcharge
    exact ⟨rfl, rfl⟩
  · intro l e h
    rcases plays_fallible_bind.mp h with ⟨e', -, hfail⟩ | ⟨_, l₁, l₂, rfl, hput, hcharge⟩
    · obtain ⟨y, rfl, -⟩ := plays_accepted_error hfail
      exact .putFailed quiet_nil
    · obtain ⟨_, -, hx⟩ := plays_query.mp hcharge
      cases hx

/-! ### Parts, and the abort -/

/-- A program that uploads parts at most, and may fail to complete the upload. -/
def Tries (key id : Text) (p : WriteM α) : Prop :=
  ∀ l x, Prog.Plays p.run l x → ∀ y ∈ l, Trying key id y

def TriesOrFails (key id : Text) (p : WriteM α) : Prop :=
  ∀ l e, Prog.Plays p.run l (.error e) → ∀ y ∈ l, Trying key id y

theorem TriesOrFails.after {p : WriteM α} {f : α → WriteM β} (hp : Tries key id p)
    (hf : ∀ a, TriesOrFails key id (f a)) : TriesOrFails key id (p >>= f) := by
  intro l e h
  rcases plays_fallible_bind.mp h with ⟨e', -, hfail⟩ | ⟨a, l₁, l₂, rfl, hok, hnext⟩
  · exact hp l _ hfail
  · exact forall_mem_append.mpr ⟨hp l₁ _ hok, hf a l₂ e hnext⟩

theorem Tries.bind {p : WriteM α} {f : α → WriteM β} (hp : Tries key id p)
    (hf : ∀ a, Tries key id (f a)) : Tries key id (p >>= f) := by
  intro l x h
  rcases plays_fallible_bind.mp h with ⟨e', -, hfail⟩ | ⟨a, l₁, l₂, rfl, hok, hnext⟩
  · exact hp l _ hfail
  · exact forall_mem_append.mpr ⟨hp l₁ _ hok, hf a l₂ x hnext⟩

theorem TriesOrFails.map {g : α → β} (hp : TriesOrFails key id p) :
    TriesOrFails key id (p >>= fun a => pure (g a)) := by
  intro l e h
  rcases plays_fallible_bind.mp h with ⟨e', -, hfail⟩ | ⟨a, l₁, l₂, -, -, hpure⟩
  · exact hp l e' hfail
  · cases (plays_pure.mp hpure).2

theorem Silent.tries (hp : Silent p) : Tries key id p := fun _ _ h e he => .inl (hp.quiet h e he)

variable {chunk : Bytes} {number : Nat}

theorem plays_uploadPart {x : Except StoreError Text}
    (h : Prog.Plays (uploadPart key id number chunk).run l x) :
    ∃ y, l = [sent (.uploadPart key id number chunk) y] := by
  rcases plays_fallible_bind.mp h with ⟨e', -, hsend⟩ | ⟨resp, l₁, l₂, rfl, hsend, haccept⟩
  · exact ⟨_, plays_send.mp hsend⟩
  · rw [plays_send] at hsend
    rcases plays_fallible_bind.mp haccept with ⟨e', -, hfail⟩ | ⟨_, l₃, l₄, rfl, hok, hpure⟩
    · rw [(plays_ofExcept.mp hfail).1, hsend]
      exact ⟨_, rfl⟩
    · rw [(plays_ofExcept.mp hok).1, (plays_pure.mp hpure).1, hsend]
      exact ⟨_, rfl⟩

theorem plays_uploadPart_ok {etag : Text}
    (h : Prog.Plays (uploadPart key id number chunk).run l (.ok etag)) :
    ∃ resp, l = [sent (.uploadPart key id number chunk) (.ok resp)] ∧ resp.isSuccess = true ∧
      etag = resp.etag.getD [] := by
  obtain ⟨resp, l₁, l₂, rfl, hsend, haccept⟩ := plays_bind_ok.mp h
  obtain ⟨_, l₃, l₄, rfl, hok, hpure⟩ := plays_bind_ok.mp haccept
  obtain ⟨rfl, haccepted⟩ := plays_ofExcept.mp hok
  obtain ⟨rfl, hetag⟩ := plays_pure.mp hpure
  rw [plays_send] at hsend
  exact ⟨resp, by rw [hsend]; rfl, accepted_ok.mp haccepted, Except.ok.inj hetag⟩

theorem tries_uploadPart : Tries key id (uploadPart key id number chunk) := by
  intro l a h
  obtain ⟨y, rfl⟩ := plays_uploadPart h
  exact forall_mem_singleton.mpr (.inr (.inl ⟨_, _, _, rfl⟩))

theorem triesOrFails_completeUpload {parts : List (Nat × Text)} :
    TriesOrFails key id (completeUpload key id parts) := by
  intro l e h
  obtain ⟨y, rfl, hfail⟩ := plays_accepted_error h
  exact forall_mem_singleton.mpr (.inr (.inr ⟨_, _, rfl, hfail⟩))

section SendParts

variable {next : σ → PartSpan → WriteM (Bytes × σ)}

theorem tries_sendParts (hnext : ∀ s span, Silent (next s span)) (plan : List PartSpan) (s : σ)
    (parts : List (Nat × Text)) :
    Tries key id (sendParts next key id plan s parts) := by
  induction plan generalizing s parts with
  | nil => exact Silent.tries (asks_pure _)
  | cons span plan ih =>
    refine (hnext s span).tries.bind fun _ => ?_
    refine tries_uploadPart.bind fun _ => ?_
    exact (silent_charge _).tries.bind fun _ => ih _ _

theorem sourceBytes_append : sourceBytes (l ++ l') = sourceBytes l ++ sourceBytes l' :=
  flatMap_append

theorem received_append : received (l ++ l') = received l ++ received l' := filterMap_append

theorem uploaded_append : uploaded (l ++ l') = uploaded l ++ uploaded l' := filterMap_append

theorem uploaded_of_quiet (h : ∀ e ∈ l, Quiet e) : uploaded l = [] := by
  induction l with
  | nil => rfl
  | cons e l ih =>
    rw [uploaded_quiet (h e mem_cons_self)]
    exact ih fun e he => h e (mem_cons_of_mem _ he)

theorem plays_sendParts_cons {span : PartSpan} {plan : List PartSpan} {s s' : σ}
    {parts parts' : List (Nat × Text)}
    (h : Prog.Plays (sendParts next key id (span :: plan) s parts).run l (.ok (s', parts'))) :
    ∃ l₁ part s₁ resp l₂, l = l₁ ++ sent (.uploadPart key id span.number part) (.ok resp) ::
        ⟨.other (.charge span.len), ()⟩ :: l₂ ∧ resp.isSuccess = true ∧
      Prog.Plays (next s span).run l₁ (.ok (part, s₁)) ∧
      Prog.Plays (sendParts next key id plan s₁ (parts ++ [(span.number, resp.etag.getD [])])).run
        l₂ (.ok (s', parts')) := by
  obtain ⟨⟨part, s₁⟩, l₁, l₂, rfl, hpart, hmore⟩ := plays_bind_ok.mp h
  obtain ⟨etag, l₃, l₄, rfl, hupload, hmore'⟩ := plays_bind_ok.mp hmore
  obtain ⟨_, l₅, l₆, rfl, hcharge, hrest⟩ := plays_bind_ok.mp hmore'
  obtain ⟨resp, rfl, hok, rfl⟩ := plays_uploadPart_ok hupload
  obtain ⟨_, rfl, -⟩ := plays_query.mp hcharge
  exact ⟨l₁, part, s₁, resp, l₆, rfl, hok, hpart, hrest⟩

/-- The loop uploads what the source gives: `keeps` says of the source where it is, what of the plan
is left, which bytes were uploaded, and what the file and the producer have given. -/
theorem plays_sendParts_ok {keeps : σ → List PartSpan → Bytes → Bytes → List Window → Prop}
    (hsilent : ∀ s span, Silent (next s span))
    (hnext : ∀ {s span plan stored src messages l part s'}, keeps s (span :: plan) stored src
      messages → Prog.Plays (next s span).run l (.ok (part, s')) →
      keeps s' plan (stored ++ part) (src ++ sourceBytes l) (messages ++ received l))
    {plan : List PartSpan} {s s' : σ} {parts parts' : List (Nat × Text)} {stored src : Bytes}
    {messages : List Window}
    (h : Prog.Plays (sendParts next key id plan s parts).run l (.ok (s', parts')))
    (hkeeps : keeps s plan stored src messages) :
    (∀ e ∈ l, Feeding key id e) ∧ parts' = parts ++ entries l ∧
      numbers l = plan.map PartSpan.number ∧
      keeps s' [] (stored ++ uploadedBytes l) (src ++ sourceBytes l) (messages ++ received l) := by
  induction plan generalizing s parts stored src messages l with
  | nil =>
    obtain ⟨rfl, hx⟩ := plays_pure.mp h
    cases hx
    refine ⟨fun _ hmem => absurd hmem not_mem_nil, (append_nil _).symm, rfl, ?_⟩
    change keeps s' [] (stored ++ []) (src ++ []) (messages ++ [])
    rwa [append_nil, append_nil, append_nil]
  | cons span plan ih =>
    obtain ⟨l₁, part, s₁, resp, l₂, rfl, hok, hpart, hrest⟩ := plays_sendParts_cons h
    have hquiet := (hsilent s span).quiet hpart
    have huploaded : uploaded (l₁ ++ sent (.uploadPart key id span.number part) (.ok resp) ::
        ⟨.other (.charge span.len), ()⟩ :: l₂) = (span.number, resp.etag.getD [], part) ::
          uploaded l₂ := by
      rw [uploaded_append, uploaded_of_quiet hquiet]
      rfl
    obtain ⟨hfeeding, rfl, hnumbers, hend⟩ := ih hrest (hnext hkeeps hpart)
    refine ⟨?_, ?_, ?_, ?_⟩
    · rw [forall_mem_append, forall_mem_cons, forall_mem_cons]
      exact ⟨fun e he => .inl (hquiet e he), .inr ⟨_, _, _, rfl, hok⟩,
        .inl (quiet_charge _), hfeeding⟩
    · rw [append_assoc]
      exact congrArg (parts ++ List.map (fun p => (p.1, p.2.1)) ·) huploaded.symm
    · rw [map_cons, ← hnumbers]
      exact congrArg (List.map Prod.fst) huploaded
    · have hbytes : uploadedBytes (l₁ ++ sent (.uploadPart key id span.number part) (.ok resp) ::
          ⟨.other (.charge span.len), ()⟩ :: l₂) = part ++ uploadedBytes l₂ :=
        congrArg (List.flatMap fun p : Nat × Text × Bytes => p.2.2) huploaded
      rw [hbytes, sourceBytes_append, received_append]
      simp only [append_assoc] at hend
      exact hend

end SendParts

structure Uploads (key id : Text) (p : WriteM α) (good : List Exchange → α → Prop) : Prop where
  ok : ∀ l a, Prog.Plays p.run l (.ok a) → ∃ feed resp,
    l = feed ++ [sent (.complete key id (partsXml (entries feed))) (.ok resp)] ∧
      (∀ e ∈ feed, Feeding key id e) ∧
      (numbers feed).Nodup ∧ resp.isSuccess = true ∧ good feed a
  fails : TriesOrFails key id p

theorem plays_orAbort {body : WriteM α} (h : Prog.Plays (orAbort key id body).run l x) :
    (∃ a, x = .ok a ∧ Prog.Plays body.run l (.ok a)) ∨
      ∃ e l' y, x = .error e ∧ l = l' ++ [sent (.abort key id) y] ∧
        Prog.Plays body.run l' (.error e) := by
  rcases plays_tryCatch.mp h with hok | ⟨e, l₁, l₂, rfl, hbody, habort⟩
  · exact .inl hok
  · rcases plays_fallible_bind.mp habort with ⟨e', -, hlift⟩ | ⟨result, l₃, l₄, rfl, hlift, hthrow⟩
    · exact absurd hlift not_plays_lift_error
    · obtain ⟨rfl, rfl⟩ := plays_throw.mp hthrow
      have hend : ∃ y, l₃ = [sent (.abort key id) y] := by
        rcases plays_fallible_bind.mp (plays_lift.mp hlift) with
          ⟨e', -, hsend⟩ | ⟨resp, l₅, l₆, rfl, hsend, hcheck⟩
        · exact ⟨_, plays_send.mp hsend⟩
        · rw [plays_send] at hsend
          split at hcheck
          · rw [(plays_pure.mp hcheck).1, hsend]
            exact ⟨_, rfl⟩
          · rw [(plays_throw.mp hcheck).1, hsend]
            exact ⟨_, rfl⟩
      obtain ⟨y, rfl⟩ := hend
      exact .inr ⟨e, l₁, y, rfl, by rw [append_nil], hbody⟩

theorem conveys_multipart {body : Text → WriteM α} {good : List Exchange → α → Prop}
    (hbody : ∀ id, Uploads key id (body id) good) :
    Conveys key (createUpload key modified >>= fun id => orAbort key id (body id)) fun l data a =>
      ∃ feed, data = uploadedBytes feed ∧ sourceBytes l = sourceBytes feed ∧
        received l = received feed ∧ good feed a := by
  constructor
  · intro l a h
    obtain ⟨id, l₁, l₂, rfl, hcreate, hrest⟩ := plays_bind_ok.mp h
    obtain ⟨y, rfl, hy⟩ := plays_send_check hcreate
    cases y with
    | error e => cases hy
    | ok resp =>
      rcases plays_orAbort hrest with ⟨a', ha, hok⟩ | ⟨e, l', y', hx, -⟩
      · cases ha
        obtain ⟨feed, resp', rfl, hfeed, hnodup, hsuccess, hgood⟩ := (hbody id).ok l₂ a hok
        refine ⟨_, .completed quiet_nil hy.symm hfeed hnodup hsuccess, feed, rfl, ?_, ?_, hgood⟩
        · change sourceBytes (feed ++ [_]) = _
          rw [sourceBytes_append]
          exact append_nil _
        · change received (feed ++ [_]) = _
          rw [received_append]
          exact append_nil _
      · cases hx
  · intro l e h
    rcases plays_fallible_bind.mp h with ⟨e', -, hcreate⟩ | ⟨id, l₁, l₂, rfl, hcreate, hrest⟩
    · obtain ⟨y, rfl, hy⟩ := plays_send_check hcreate
      refine .unnamed quiet_nil ?_
      rintro resp id rfl hid
      have herror : Except.error e' = resp.uploadId := hy
      rw [hid] at herror
      cases herror
    · obtain ⟨y, rfl, hy⟩ := plays_send_check hcreate
      cases y with
      | error e' => cases hy
      | ok resp =>
        rcases plays_orAbort hrest with ⟨a', ha, -⟩ | ⟨e', l', y', -, rfl, hfail⟩
        · cases ha
        · exact .aborted quiet_nil hy.symm ((hbody id).fails l' e' hfail)

/-! ### The plan -/

theorem number_partsFrom (total p offset number : Nat) :
    (partsFrom total p offset number).map PartSpan.number =
    List.range' number (partsFrom total p offset number).length := by
  induction offset, number using B2.partsFrom.induct total p with
  | case1 offset number hlt len ih =>
    rw [B2.partsFrom_of_lt hlt, map_cons, length_cons, List.range'_succ]
    exact congrArg _ ih
  | case2 offset number hge =>
    rw [B2.partsFrom_of_le (Nat.le_of_not_lt hge)]
    rfl

theorem nodup_number_planParts (total p : Nat) :
    ((planParts total p).map PartSpan.number).Nodup := by
  rw [planParts, number_partsFrom]
  exact nodup_range'

theorem slices_partsFrom (data : Bytes) (p offset number : Nat) :
    ((partsFrom data.length p offset number).flatMap fun span =>
      (data.drop span.offset).take span.len) =
      data.drop offset := by
  induction offset, number using B2.partsFrom.induct data.length p with
  | case1 offset number hlt len ih =>
    rw [B2.partsFrom_of_lt hlt, flatMap_cons, ih, ← drop_drop]
    exact take_append_drop len (data.drop offset)
  | case2 offset number hge =>
    rw [B2.partsFrom_of_le (Nat.le_of_not_lt hge), drop_of_length_le (Nat.le_of_not_lt hge)]
    rfl

/-! ### The stream of an object that is still being produced -/

/-- A stream that has handed out `handed` of what it was sent. -/
structure Follows (len : Nat) (algo : HashAlgo) (s : ObjectStream) (handed src : Bytes)
    (messages : List Window) : Prop where
  len : s.len = len
  algo : s.algo = algo
  hasher : s.hasher = some handed
  consumed : s.consumed = handed.length % 2 ^ 64
  source : handed ++ s.pending = src
  declared : ∀ d, s.declared = some d → .done d ∈ messages

theorem follows_new (len : Nat) (algo : HashAlgo) : Follows len algo (.new len algo) [] [] [] :=
  ⟨rfl, rfl, rfl, rfl, rfl, nofun⟩

variable {digest : HashAlgo → Bytes → Bytes} {len : Nat} {algo : HashAlgo} {s s' : ObjectStream}
  {handed src : Bytes}
  {messages : List Window}

variable {b : Bytes}

theorem Follows.take {rest : Bytes}
    (h : Follows len algo { s with pending := b ++ rest } handed src messages) :
    Follows len algo (({ s with pending := rest } : ObjectStream).take b) (handed ++ b) src
      messages where
  len := h.len
  algo := h.algo
  hasher := congrArg (Option.map (· ++ b)) h.hasher
  consumed := by
    have hconsumed : s.consumed = handed.length % 2 ^ 64 := h.consumed
    change (s.consumed + b.length) % 2 ^ 64 = _
    rw [hconsumed, length_append, Nat.mod_add_mod]
  source := by
    have hsource : handed ++ (b ++ rest) = src := h.source
    rw [← hsource, append_assoc]
    rfl
  declared := h.declared

theorem sourceBytes_recv (m : Option Window) : sourceBytes [⟨.recv, m⟩] = match m with
    | some (.bytes b _) => b
    | _ => [] := by
  match m with
  | some (.bytes b _) => exact append_nil b
  | some (.done _) => rfl
  | some (.failed _) => rfl
  | none => rfl

/-- What a stream is after it was asked for more. -/
def Asked (len : Nat) (algo : HashAlgo) (s : ObjectStream) (handed src : Bytes)
    (messages : List Window) :
    Except StoreError (Option { b : Bytes // b ≠ [] }) → Prop
  | .ok (some b) => Follows len algo { s with pending := b.1 } handed src messages
  | .ok none => s.pending = [] ∧ Follows len algo s handed src messages
  | .error _ => True

theorem Follows.nextMessage {x : Except StoreError (Option { b : Bytes // b ≠ [] })}
    (h : Follows len algo s handed src messages) (hpending : s.pending = [])
    (hplays : Prog.Plays s.nextMessage l (x, s')) :
    Asked len algo s' handed (src ++ sourceBytes l) (messages ++ received l) x := by
  rw [ObjectStream.nextMessage] at hplays
  split at hplays
  · obtain ⟨rfl, hx⟩ := plays_done.mp hplays
    cases hx
    change s.pending = [] ∧ Follows len algo s handed (src ++ []) (messages ++ [])
    rw [append_nil, append_nil]
    exact ⟨hpending, h⟩
  · obtain ⟨message, l', rfl, hend⟩ := plays_ask.mp hplays
    rcases message with _ | ⟨b, hb⟩ | d | why
    · cases (plays_done.mp hend).2
      trivial
    · obtain ⟨rfl, hx⟩ := plays_done.mp hend
      cases hx
      refine ⟨h.len, h.algo, h.hasher, h.consumed, ?_, fun d hd =>
        mem_append_left _ (h.declared d hd)⟩
      rw [sourceBytes_recv, ← h.source, hpending, append_nil]
    · obtain ⟨rfl, hx⟩ := plays_done.mp hend
      cases hx
      refine ⟨hpending, h.len, h.algo, h.hasher, h.consumed, ?_, ?_⟩
      · rw [sourceBytes_recv, append_nil]
        exact h.source
      · rintro d' hd'
        obtain rfl := Option.some.inj hd'
        exact mem_append_right _ (mem_singleton_self _)
    · cases (plays_done.mp hend).2
      trivial

theorem Follows.topUp {x : Except StoreError (Option { b : Bytes // b ≠ [] })}
    (h : Follows len algo s handed src messages) (hplays : Prog.Plays s.topUp l (x, s')) :
    Asked len algo s' handed (src ++ sourceBytes l) (messages ++ received l) x := by
  rw [ObjectStream.topUp] at hplays
  split at hplays
  next hpending => exact h.nextMessage hpending hplays
  next hpending =>
    obtain ⟨rfl, hx⟩ := plays_done.mp hplays
    cases hx
    change Follows len algo s handed (src ++ []) (messages ++ [])
    rwa [append_nil, append_nil]

theorem Follows.fillFrom {want : Nat} {filled : Bytes}
    (h : Follows len algo s (handed ++ filled) src messages)
    (hplays : Prog.Plays (s.fillFrom want filled) l (.ok b, s')) :
    Follows len algo s' (handed ++ b) (src ++ sourceBytes l) (messages ++ received l) := by
  induction hmore : want - filled.length using Nat.strong_induction_on
    generalizing filled s src messages l with
  | _ more ih =>
    rw [ObjectStream.fillFrom] at hplays
    split at hplays
    next hshort =>
      obtain ⟨⟨x, s₁⟩, l₁, l₂, rfl, htop, hrest⟩ := plays_bind.mp hplays
      have hstep := h.topUp htop
      rcases x with e | _ | c
      · cases (plays_done.mp hrest).2
      · obtain ⟨rfl, hx⟩ := plays_done.mp hrest
        cases hx
        rw [append_nil]
        exact hstep.2
      · have hpos := length_pos_iff.mpr c.2
        generalize htake : min c.1.length (want - filled.length) = n at hrest
        have hn : (c.1.take n).length = n := by
          rw [length_take]
          omega
        have hsplit :
            Follows len algo { s₁ with pending := c.1.take n ++ c.1.drop n } (handed ++ filled)
            (src ++ sourceBytes l₁) (messages ++ received l₁) := by
          rw [take_append_drop]
          exact hstep
        have hnext := hsplit.take
        rw [append_assoc] at hnext
        have hend := ih (want - (filled ++ c.1.take n).length)
          (by rw [length_append, hn]; omega) hnext (by simpa only [htake] using hrest) rfl
        rwa [sourceBytes_append, received_append, ← append_assoc, ← append_assoc]
    next =>
      obtain ⟨rfl, hx⟩ := plays_done.mp hplays
      cases hx
      change Follows len algo s' (handed ++ b) (src ++ []) (messages ++ [])
      rwa [append_nil, append_nil]

section

variable (h : Follows len algo s handed src messages)
include h

theorem Follows.fill {want : Nat} (hplays : Prog.Plays (s.fill want) l (.ok b, s')) :
    Follows len algo s' (handed ++ b) (src ++ sourceBytes l) (messages ++ received l) := by
  have hnone : Follows len algo s (handed ++ []) src messages := by rwa [append_nil]
  exact hnone.fillFrom hplays

theorem Follows.agreed {verified : ContentHash} (hagreed : (s.agreed digest).1 = .ok verified) :
    verified = ⟨algo, digest algo handed⟩ ∧ .done verified ∈ messages ∧
      handed.length % 2 ^ 64 = len := by
  unfold ObjectStream.agreed at hagreed
  rw [h.hasher, h.consumed, h.len, h.algo] at hagreed
  split at hagreed
  next => cases hagreed
  split at hagreed
  next => cases hagreed
  next hlen =>
    cases hdeclared : s.declared with
    | none =>
      rw [hdeclared] at hagreed
      cases hagreed
    | some d =>
      rw [hdeclared] at hagreed
      dsimp only at hagreed
      split at hagreed
      next hsame =>
        obtain rfl := Except.ok.inj hagreed
        exact ⟨rfl, hsame ▸ h.declared d hdeclared, not_not.mp hlen⟩
      next => cases hagreed

theorem Follows.sealed {verified : ContentHash}
    (hplays : Prog.Plays (s.sealed digest) l (.ok verified, s')) :
    handed = src ++ sourceBytes l ∧ verified = ⟨algo, digest algo handed⟩ ∧
      .done verified ∈ messages ++ received l ∧ handed.length % 2 ^ 64 = len := by
  rw [ObjectStream.sealed] at hplays
  obtain ⟨⟨x, s₁⟩, l₁, l₂, rfl, hwindow, hrest⟩ := plays_bind.mp hplays
  obtain ⟨rfl, hx⟩ := plays_done.mp hrest
  rcases x with e | _ | b
  · cases hx
  · have hagreed : (s₁.agreed digest).1 = .ok verified := congrArg Prod.fst hx
    rw [ObjectStream.window] at hwindow
    split at hwindow
    next hpending =>
      obtain ⟨⟨y, s₂⟩, l₃, l₄, rfl, hnext, hend⟩ := plays_bind.mp hwindow
      obtain ⟨rfl, hy⟩ := plays_done.mp hend
      have hstep := h.nextMessage hpending hnext
      rcases y with e | _ | b
      · cases hy
      · obtain rfl : s₂ = s₁ := congrArg Prod.snd hy
        obtain ⟨hpending', hfollows⟩ := hstep
        obtain ⟨hdigest, hdone, hlen⟩ := hfollows.agreed hagreed
        rw [append_nil, append_nil]
        refine ⟨?_, hdigest, hdone, hlen⟩
        rw [← hfollows.source, hpending', append_nil]
      · cases hy
    next => cases (plays_done.mp hwindow).2
  · cases hx

end

/-! ### Nothing is said to the server meanwhile -/

theorem asks_nextMessage : (s.nextMessage : Receiver Window Ask.Answer _).Asks (· = .recv) := by
  rw [ObjectStream.nextMessage]
  split
  · trivial
  · exact ⟨rfl, fun _ => trivial⟩

theorem asks_fillFrom (want : Nat) (filled : Bytes) :
    (s.fillFrom want filled : Receiver Window Ask.Answer _).Asks (· = .recv) := by
  induction hmore : want - filled.length using Nat.strong_induction_on generalizing filled s with
  | _ more ih =>
    rw [ObjectStream.fillFrom]
    split
    next hshort =>
      have htop : (s.topUp : Receiver Window Ask.Answer _).Asks (· = .recv) := by
        rw [ObjectStream.topUp]
        split
        · exact asks_nextMessage
        · trivial
      refine htop.bind fun answer => ?_
      rcases answer with ⟨e | _ | c, s₁⟩
      · trivial
      · trivial
      · have hpos := length_pos_iff.mpr c.2
        refine ih _ ?_ _ rfl
        rw [length_append, length_take]
        omega
    next => trivial

theorem asks_sealed : (s.sealed digest : Receiver Window Ask.Answer _).Asks (· = .recv) := by
  have hwindow : (s.window : Receiver Window Ask.Answer _).Asks (· = .recv) := by
    rw [ObjectStream.window]
    split
    · exact asks_nextMessage.bind fun _ => trivial
    · trivial
  exact hwindow.bind fun _ => trivial

theorem silent_streamed {p : Receiver Window Ask.Answer (Streamed α)} (h : p.Asks (· = .recv)) :
    Silent (streamed p) := by
  refine asks_bind ?_ fun _ => asks_ofExcept _
  rw [ExceptT.run_lift, map_eq_pure_bind]
  exact (h.mono fun r hr q => hr ▸ nofun).bind fun _ => trivial

theorem plays_streamed {p : Receiver Window Ask.Answer (Streamed α)} {a : α}
    (h : Prog.Plays (streamed p).run l (.ok (a, s'))) : Prog.Plays p l (.ok a, s') := by
  obtain ⟨⟨x, s₁⟩, l₁, l₂, rfl, hlift, hcheck⟩ := plays_bind_ok.mp h
  obtain ⟨rfl, hx⟩ := plays_ofExcept.mp hcheck
  cases x with
  | error e => cases hx
  | ok b =>
    cases hx
    rw [append_nil]
    exact plays_lift.mp hlift

/-! ### The three writers -/

variable {basePart : Nat} {expected computed verified : ContentHash} {data : Bytes}
  {outcome : PutOutcome}

theorem silent_requireMatch : Silent (requireMatch expected computed) := by
  unfold requireMatch
  split
  · exact asks_pure _
  · exact asks_throw _

theorem plays_requireMatch_ok (h : Prog.Plays (requireMatch expected computed).run l (.ok ())) :
    l = [] ∧ computed = expected := by
  unfold requireMatch at h
  split at h
  next hmatch => exact ⟨(plays_pure.mp h).1, hmatch⟩
  next => cases (plays_throw.mp h).2

theorem silent_io {a : Ask} {f : a.Answer → Except StoreError α} (h : ∀ r, a ≠ .send r) :
    Silent (request a >>= fun x => Prog.ofExcept (f x)) :=
  asks_bind (asks_query fun r heq => h r (Receive.other.inj heq)) fun _ => asks_ofExcept _

theorem plays_completeUpload_ok {parts : List (Nat × Text)}
    (h : Prog.Plays (completeUpload key id parts).run l (.ok ())) :
    ∃ resp, l = [sent (.complete key id (partsXml parts)) (.ok resp)] ∧ resp.isSuccess = true :=
      plays_accepted_ok h

theorem silent_slicePart (data : Bytes) (s : Unit) (span : PartSpan) :
    Silent (slicePart data s span) := asks_pure _

def Sliced (data : Bytes) (_ : Unit) (plan : List PartSpan) (stored src : Bytes)
    (messages : List Window) : Prop :=
  stored ++ (plan.flatMap fun span => (data.drop span.offset).take span.len) = data ∧
    src = [] ∧ messages = []

variable {part stored : Bytes} {plan : List PartSpan} {span : PartSpan}

theorem sliced_next {s s' : Unit} (h : Sliced data s (span :: plan) stored src messages)
    (hplays : Prog.Plays (slicePart data s span).run l (.ok (part, s'))) :
    Sliced data s' plan (stored ++ part) (src ++ sourceBytes l) (messages ++ received l) := by
  obtain ⟨rfl, hx⟩ := plays_pure.mp hplays
  cases hx
  obtain ⟨hdata, rfl, rfl⟩ := h
  refine ⟨?_, rfl, rfl⟩
  rw [append_assoc]
  exact hdata

theorem uploads_uploadPartsAndComplete :
    Uploads key id (uploadPartsAndComplete basePart key id data)
    fun feed _ => uploadedBytes feed = data ∧ sourceBytes feed = [] ∧ received feed = [] where
  ok l a h := by
    obtain ⟨partSize, l₁, l₂, rfl, hsize, hmore⟩ := plays_bind_ok.mp h
    obtain ⟨⟨_, parts⟩, feed, l₃, rfl, hparts, hcomplete⟩ := plays_bind_ok.mp hmore
    obtain ⟨rfl, -⟩ := plays_ofExcept.mp hsize
    obtain ⟨resp, rfl, hok⟩ := plays_completeUpload_ok hcomplete
    have hstart : Sliced data () (planParts data.length partSize) [] [] [] :=
      ⟨slices_partsFrom data partSize 0 1, rfl, rfl⟩
    obtain ⟨hfeeding, rfl, hnumbers, hdata, hsource⟩ :=
      plays_sendParts_ok (silent_slicePart data) sliced_next hparts hstart
    refine ⟨feed, resp, rfl, hfeeding, ?_, hok, ?_, hsource⟩
    · rw [hnumbers]
      exact nodup_number_planParts _ _
    · rwa [flatMap_nil, append_nil] at hdata
  fails := by
    refine .after (Silent.tries (asks_ofExcept _)) fun partSize => ?_
    exact .after (tries_sendParts (silent_slicePart data) _ _ _) fun _ =>
      triesOrFails_completeUpload

theorem conveys_putSized : Conveys key (putSized basePart key data modified) fun l data' _ =>
    data' = data ∧ sourceBytes l = [] ∧ received l = [] := by
  unfold putSized
  split
  · refine (conveys_multipart fun _ => uploads_uploadPartsAndComplete).mono
      fun l data' _ hgood => ?_
    obtain ⟨feed, rfl, hbytes, hmessages, hdata, hsource, hreceived⟩ := hgood
    exact ⟨hdata, hbytes.trans hsource, hmessages.trans hreceived⟩
  · exact conveys_putSingle data

theorem conveys_put :
    Conveys key (put digest basePart key data expected modified) fun l data' outcome =>
    data' = data ∧ outcome.verified = expected ∧
      outcome.verified = compute digest expected.algo data ∧
      sourceBytes l = [] ∧ received l = [] := by
  refine Conveys.after silent_requireMatch fun _ l₁ hmatch => ?_
  obtain ⟨rfl, hexpected⟩ := plays_requireMatch_ok hmatch
  exact conveys_putSized.map fun l data' _ hgood => ⟨hgood.1, hexpected, rfl, hgood.2⟩

/-! ### A file -/

theorem silent_metadata : Silent metadata := silent_io nofun

theorem silent_openFile : Silent openFile := silent_io nofun

theorem silent_readPart (whole : Bytes) (span : PartSpan) : Silent (readPart whole span) := by
  refine asks_bind (silent_io nofun) fun part => ?_
  split
  · exact asks_pure _
  · exact asks_throw _

def ReadOn (whole : Bytes) (_ : List PartSpan) (stored src : Bytes) (_ : List Window) : Prop :=
  whole = stored ∧ stored = src

theorem readOn_next {whole whole' : Bytes} (h : ReadOn whole (span :: plan) stored src messages)
    (hplays : Prog.Plays (readPart whole span).run l (.ok (part, whole'))) :
    ReadOn whole' plan (stored ++ part) (src ++ sourceBytes l) (messages ++ received l) := by
  obtain ⟨rfl, rfl⟩ := h
  obtain ⟨read, l₁, l₂, rfl, hread, hcheck⟩ := plays_bind_ok.mp hplays
  obtain ⟨answer, rfl, hanswer⟩ := plays_request.mp hread
  cases answer with
  | error e => cases hanswer
  | ok b =>
    cases hanswer
    split at hcheck
    · obtain ⟨rfl, hx⟩ := plays_pure.mp hcheck
      cases hx
      refine ⟨rfl, ?_⟩
      change whole ++ read.1 = whole ++ (read.1 ++ [])
      rw [append_nil]
    · cases (plays_throw.mp hcheck).2

variable {size : Nat}

theorem plays_metadata (h : Prog.Plays metadata.run l (.ok size)) :
    sourceBytes l = [] ∧ uploaded l = [] := by
  obtain ⟨answer, rfl, -⟩ := plays_request.mp h
  exact ⟨rfl, rfl⟩

theorem plays_openFile (h : Prog.Plays openFile.run l (.ok ())) :
    sourceBytes l = [] ∧ uploaded l = [] := by
  obtain ⟨answer, rfl, -⟩ := plays_request.mp h
  exact ⟨rfl, rfl⟩

theorem uploads_uploadAndComplete :
    Uploads key id (uploadAndComplete digest basePart key id expected)
    fun feed verified => uploadedBytes feed = sourceBytes feed ∧ verified = expected ∧
      verified = compute digest expected.algo (sourceBytes feed) where
  ok l a h := by
    obtain ⟨size, l₁, l₂, rfl, hsize, hmore⟩ := plays_bind_ok.mp h
    obtain ⟨partSize, l₃, l₄, rfl, hpartSize, hmore₁⟩ := plays_bind_ok.mp hmore
    obtain ⟨_, l₅, l₆, rfl, hopen, hmore₂⟩ := plays_bind_ok.mp hmore₁
    obtain ⟨⟨whole, parts⟩, l₇, l₈, rfl, hparts, hmore₃⟩ := plays_bind_ok.mp hmore₂
    obtain ⟨_, l₉, l₁₀, rfl, hmatch, hmore₄⟩ := plays_bind_ok.mp hmore₃
    obtain ⟨_, l₁₁, l₁₂, rfl, hcomplete, hpure⟩ := plays_bind_ok.mp hmore₄
    obtain ⟨rfl, -⟩ := plays_ofExcept.mp hpartSize
    obtain ⟨rfl, hexpected⟩ := plays_requireMatch_ok hmatch
    obtain ⟨resp, rfl, hok⟩ := plays_completeUpload_ok hcomplete
    obtain ⟨rfl, hx⟩ := plays_pure.mp hpure
    cases hx
    have hstart : ReadOn [] (planParts size partSize) [] [] [] := ⟨rfl, rfl⟩
    obtain ⟨hfeeding, rfl, hnumbers, rfl, hsource⟩ :=
      plays_sendParts_ok silent_readPart readOn_next hparts hstart
    have huploaded : uploaded (l₁ ++ (l₅ ++ l₇)) = uploaded l₇ := by
      rw [uploaded_append, uploaded_append, (plays_metadata hsize).2, (plays_openFile hopen).2]
      rfl
    have hbytes : sourceBytes (l₁ ++ (l₅ ++ l₇)) = sourceBytes l₇ := by
      rw [sourceBytes_append, sourceBytes_append, (plays_metadata hsize).1,
        (plays_openFile hopen).1]
      rfl
    refine ⟨l₁ ++ (l₅ ++ l₇), resp, ?_, ?_, ?_, hok, ?_, hexpected, ?_⟩
    · have hentries : entries (l₁ ++ (l₅ ++ l₇)) = entries l₇ := by rw [entries, huploaded, entries]
      rw [hentries]
      simp only [nil_append, append_nil, append_assoc]
    · rw [forall_mem_append, forall_mem_append]
      exact ⟨fun e he => .inl (silent_metadata.quiet hsize e he),
        fun e he => .inl (silent_openFile.quiet hopen e he), hfeeding⟩
    · rw [numbers, huploaded]
      change (numbers l₇).Nodup
      rw [hnumbers]
      exact nodup_number_planParts _ _
    · rw [uploadedBytes, huploaded, hbytes]
      exact hsource
    · rw [hbytes]
      exact congrArg (compute digest expected.algo) hsource
  fails := by
    refine .after silent_metadata.tries fun size => ?_
    refine .after (Silent.tries (asks_ofExcept _)) fun partSize => ?_
    refine .after silent_openFile.tries fun _ => ?_
    refine .after (tries_sendParts silent_readPart _ _ _) fun _ => ?_
    exact .after silent_requireMatch.tries fun _ => triesOrFails_completeUpload.map

theorem plays_readFile (h : Prog.Plays readFile.run l (.ok data)) : sourceBytes l = data := by
  obtain ⟨answer, rfl, hanswer⟩ := plays_request.mp h
  cases answer with
  | error e => cases hanswer
  | ok b =>
    obtain rfl := Except.ok.inj hanswer
    exact append_nil b

theorem conveys_putFromPath :
    Conveys key (putFromPath digest basePart key expected modified) fun l data outcome =>
    data = sourceBytes l ∧ outcome.verified = expected ∧
      outcome.verified = compute digest expected.algo data := by
  refine Conveys.after silent_metadata fun size l₁ hsize => ?_
  split
  · refine (conveys_multipart fun _ => uploads_uploadAndComplete).map
      fun l data verified hgood => ?_
    obtain ⟨feed, rfl, hsource, -, hbytes, hexpected, hverified⟩ := hgood
    rw [sourceBytes_append, (plays_metadata hsize).1, nil_append, hsource, hbytes]
    exact ⟨rfl, hexpected, hverified⟩
  · refine Conveys.after (silent_io nofun) fun data l₂ hread => ?_
    refine conveys_put.mono fun l data' outcome hgood => ?_
    obtain ⟨rfl, hexpected, hverified, hbytes, -⟩ := hgood
    refine ⟨?_, hexpected, hverified⟩
    rw [sourceBytes_append, sourceBytes_append, (plays_metadata hsize).1, plays_readFile hread,
      hbytes, append_nil, nil_append]

/-! ### An object that is still being produced -/

theorem silent_fillPart (size : Nat) (s : ObjectStream) (span : PartSpan) :
    Silent (fillPart size s span) := by
  refine asks_bind (silent_streamed (asks_fillFrom _ _)) fun ⟨part, source⟩ => ?_
  dsimp only
  split
  · exact asks_pure _
  · exact asks_throw _

/-- What was handed out was uploaded. -/
def Streams (len : Nat) (algo : HashAlgo) (s : ObjectStream) (_ : List PartSpan)
    (stored src : Bytes)
    (messages : List Window) : Prop := Follows len algo s stored src messages

theorem streams_next (h : Streams len algo s (span :: plan) stored src messages)
    (hplays : Prog.Plays (fillPart size s span).run l (.ok (part, s'))) :
    Streams len algo s' plan (stored ++ part) (src ++ sourceBytes l) (messages ++ received l) := by
  obtain ⟨⟨b, s₁⟩, l₁, l₂, rfl, hfill, hcheck⟩ := plays_bind_ok.mp hplays
  dsimp only at hcheck
  split at hcheck
  · obtain ⟨rfl, hx⟩ := plays_pure.mp hcheck
    cases hx
    rw [append_nil]
    exact Follows.fill h (plays_streamed hfill)
  · cases (plays_throw.mp hcheck).2

/-- What the two ends agree on. -/
def Consented (digest : HashAlgo → Bytes → Bytes) (len : Nat) (algo : HashAlgo) (src : Bytes)
    (messages : List Window)
    (verified : ContentHash) : Prop :=
  verified = ⟨algo, digest algo src⟩ ∧ .done verified ∈ messages ∧ src.length % 2 ^ 64 = len

theorem uploads_streamPartsAndComplete :
    Uploads key id (streamPartsAndComplete digest basePart key id (.new len algo) size)
      fun feed outcome =>
      uploadedBytes feed = sourceBytes feed ∧
        Consented digest len algo (sourceBytes feed) (received feed) outcome.verified where
  ok l a h := by
    obtain ⟨partSize, l₁, l₂, rfl, hpartSize, hmore⟩ := plays_bind_ok.mp h
    obtain ⟨⟨source, parts⟩, l₃, l₄, rfl, hparts, hmore₁⟩ := plays_bind_ok.mp hmore
    obtain ⟨⟨verified, source'⟩, l₅, l₆, rfl, hsealed, hmore₂⟩ := plays_bind_ok.mp hmore₁
    obtain ⟨_, l₇, l₈, rfl, hcomplete, hpure⟩ := plays_bind_ok.mp hmore₂
    obtain ⟨rfl, -⟩ := plays_ofExcept.mp hpartSize
    obtain ⟨resp, rfl, hok⟩ := plays_completeUpload_ok hcomplete
    obtain ⟨rfl, hx⟩ := plays_pure.mp hpure
    cases hx
    have hstart : Streams len algo (.new len algo) (planParts size partSize) [] [] [] :=
      follows_new len algo
    obtain ⟨hfeeding, rfl, hnumbers, hend⟩ :=
      plays_sendParts_ok (silent_fillPart size) streams_next hparts hstart
    have hquiet := (silent_streamed asks_sealed).quiet hsealed
    obtain ⟨hall, hdigest, hdone, hlen⟩ := Follows.sealed hend (plays_streamed hsealed)
    have huploaded : uploaded (l₃ ++ l₅) = uploaded l₃ := by
      rw [uploaded_append, uploaded_of_quiet hquiet, append_nil]
    have hbytes : uploadedBytes l₃ = sourceBytes (l₃ ++ l₅) := by
      rw [sourceBytes_append]
      exact hall
    refine ⟨l₃ ++ l₅, resp, ?_, ?_, ?_, hok, ?_, ?_⟩
    · have hentries : entries (l₃ ++ l₅) = entries l₃ := by rw [entries, huploaded, entries]
      rw [hentries]
      simp only [nil_append, append_nil, append_assoc]
    · exact forall_mem_append.mpr ⟨hfeeding, fun e he => .inl (hquiet e he)⟩
    · rw [numbers, huploaded]
      change (numbers l₃).Nodup
      rw [hnumbers]
      exact nodup_number_planParts _ _
    · rw [uploadedBytes, huploaded]
      exact hbytes
    · rw [← hbytes, received_append]
      exact ⟨hdigest, hdone, hlen⟩
  fails := by
    refine .after (Silent.tries (asks_ofExcept _)) fun partSize => ?_
    refine .after (tries_sendParts (silent_fillPart size) _ _ _) fun sent => ?_
    exact .after (silent_streamed asks_sealed).tries fun verified => triesOrFails_completeUpload.map

theorem silent_drainWhole (s : ObjectStream) (size : Nat) : Silent (drainWhole digest s size) := by
  refine asks_bind (silent_streamed (asks_fillFrom _ _)) fun ⟨whole, source⟩ => ?_
  refine asks_bind (silent_streamed asks_sealed) fun ⟨hash, source'⟩ => ?_
  dsimp only
  split
  · exact asks_pure _
  · exact asks_throw _

theorem plays_drainWhole {whole : Bytes}
    (h : Prog.Plays (drainWhole digest (.new len algo) size).run l (.ok (whole, verified))) :
    whole = sourceBytes l ∧ Consented digest len algo (sourceBytes l) (received l) verified := by
  obtain ⟨⟨b, source⟩, l₁, l₂, rfl, hfill, hmore⟩ := plays_bind_ok.mp h
  obtain ⟨⟨hash, source'⟩, l₃, l₄, rfl, hsealed, hcheck⟩ := plays_bind_ok.mp hmore
  dsimp only at hcheck
  split at hcheck
  · obtain ⟨rfl, hx⟩ := plays_pure.mp hcheck
    cases hx
    have hfollows := (follows_new len algo).fill (plays_streamed hfill)
    obtain ⟨hall, hdigest, hdone, hlen⟩ := hfollows.sealed (plays_streamed hsealed)
    have hbytes : whole = sourceBytes (l₁ ++ (l₃ ++ [])) := by
      rw [append_nil, sourceBytes_append]
      exact hall
    rw [← hbytes, append_nil, received_append]
    exact ⟨rfl, hdigest, hdone, hlen⟩
  · cases (plays_throw.mp hcheck).2

theorem conveys_putStream :
    Conveys key (putStream digest basePart key (.new len algo) modified) fun l data outcome =>
    data = sourceBytes l ∧ Consented digest len algo (sourceBytes l) (received l)
      outcome.verified := by
  unfold putStream
  split
  · refine (conveys_multipart fun _ => uploads_streamPartsAndComplete).mono
      fun l data outcome hgood => ?_
    obtain ⟨feed, rfl, hsource, hmessages, hbytes, hconsented⟩ := hgood
    rw [hsource, hmessages]
    exact ⟨hbytes, hconsented⟩
  · refine Conveys.after (silent_drainWhole _ _) fun ⟨whole, agreed⟩ l₁ hdrain => ?_
    obtain ⟨hwhole, hconsented⟩ := plays_drainWhole hdrain
    refine conveys_put.mono fun l data outcome hgood => ?_
    obtain ⟨rfl, hexpected, -, hbytes, hmessages⟩ := hgood
    rw [sourceBytes_append, received_append, hbytes, hmessages, append_nil, append_nil, hexpected]
    exact ⟨hwhole, hconsented⟩

end Writers

/-! ### Every run -/

theorem Writer.Agreed.unique {digest : HashAlgo → Bytes → Bytes} {l : List Exchange}
    {data data' : Bytes} {verified verified' : ContentHash} {w : Writer}
    (h : w.Agreed digest l data verified) (h' : w.Agreed digest l data' verified') :
    data = data' := by
  cases w with
  | put _ _ => exact h.2.1.trans h'.2.1.symm
  | putFromPath _ => exact h.2.1.trans h'.2.1.symm
  | putStream _ _ => exact h.2.1.trans h'.2.1.symm

theorem conveys_run (digest : HashAlgo → Bytes → Bytes) (basePart : Nat) (w : Writer) (key : Text)
    (modified : Option Int) :
    Conveys key (w.run digest basePart key modified) fun l data outcome =>
      w.Agreed digest l data outcome.verified := by
  cases w with
  | put data expected =>
    refine conveys_put.mono fun l data' outcome hgood => ?_
    obtain ⟨rfl, rfl, hverified, -⟩ := hgood
    exact ⟨hverified, rfl, rfl⟩
  | putFromPath expected =>
    refine conveys_putFromPath.mono fun l data outcome hgood => ?_
    obtain ⟨rfl, rfl, hverified⟩ := hgood
    exact ⟨hverified, rfl, rfl⟩
  | putStream len algo =>
    refine conveys_putStream.mono fun l data outcome hgood => ?_
    obtain ⟨rfl, hdigest, hdone, hlen⟩ := hgood
    exact ⟨by rw [hdigest]; rfl, rfl, by rw [hdigest], hdone, hlen⟩

/-- A writer does what it is for exactly if no completion fails in the body of a success, and the id
of every upload that the server opens reaches it. -/
theorem sound_iff {digest : HashAlgo → Bytes → Bytes} {basePart : Nat} {w : Writer} {key : Text}
    {modified : Option Int} {b b' : Bucket} {t : List (Exchange × Effect)}
    {x : Except StoreError PutOutcome}
    (hplays : Prog.Plays (w.run digest basePart key modified).run (t.map Prod.fst) x)
    (hpath : Prog.Path Step b t b') : Sound digest w key t x ↔ Answered t := by
  have hconveys := conveys_run digest basePart w key modified
  cases x with
  | error e =>
    rw [← (hconveys.2 _ e hplays).ends_iff rfl hpath]
    exact and_congr (iff_of_true nofun nofun) Iff.rfl
  | ok outcome =>
    obtain ⟨data, hshape, hagreed⟩ := hconveys.1 _ outcome hplays
    rw [← hshape.ends_iff rfl hpath]
    refine and_congr ⟨fun h data' hdata' => ?_, fun h outcome' houtcome' => ?_⟩ Iff.rfl
    · obtain ⟨data'', hagreed', hcommits⟩ := h outcome rfl
      rw [← Option.some.inj hdata', hagreed.unique hagreed']
      exact hcommits
    · obtain rfl := Except.ok.inj houtcome'
      exact ⟨data, hagreed, h data rfl⟩

/-! ### Two parts -/

def created : Response := ⟨200, none, none, "<UploadId>u</UploadId>".toList, none⟩

def uploadedPart : Response := ⟨200, some ['e'], none, [], none⟩

/-- The answer to a completion, with its body. -/
def answered (body : Text) : Response := ⟨200, none, none, body, none⟩

def errorBody : Text := "<Error><Code>InternalError</Code></Error>".toList

def twoParts : Bytes := List.replicate (minPartSize + 1) 0

def firstPart : Bytes := (twoParts.drop 0).take minPartSize

def lastPart : Bytes := (twoParts.drop minPartSize).take 1

theorem length_twoParts : twoParts.length = minPartSize + 1 := length_replicate

theorem planParts_two :
    planParts (minPartSize + 1) minPartSize = [⟨1, 0, minPartSize⟩, ⟨2, minPartSize, 1⟩] := by
  rw [planParts, B2.partsFrom_of_lt (by decide), B2.partsFrom_of_lt (by decide),
    B2.partsFrom_of_le (by decide)]
  rfl

def twoPartsLog (body : Text) (f : Effect) : List (Exchange × Effect) :=
  [(sent (.create ['k'] []) (.ok created), .opened ['u']),
    (sent (.uploadPart ['k'] ['u'] 1 firstPart) (.ok uploadedPart), .nothing),
    (⟨.other (.charge minPartSize), ()⟩, .nothing),
    (sent (.uploadPart ['k'] ['u'] 2 lastPart) (.ok uploadedPart), .nothing),
      (⟨.other (.charge 1), ()⟩, .nothing),
    (sent (.complete ['k'] ['u'] (partsXml [(1, ['e']), (2, ['e'])])) (.ok (answered body)), f)]

/-- A digest that tells only empty objects from others. -/
def emptiness (_ : HashAlgo) (data : Bytes) : Bytes := [if data = [] then 0 else 1]

theorem plays_uploadTwoParts (body : Text) :
    Prog.Plays (uploadPartsAndComplete minPartSize ['k'] ['u'] twoParts).run
      [sent (.uploadPart ['k'] ['u'] 1 firstPart) (.ok uploadedPart),
        ⟨.other (.charge minPartSize), ()⟩,
        sent (.uploadPart ['k'] ['u'] 2 lastPart) (.ok uploadedPart), ⟨.other (.charge 1), ()⟩,
        sent (.complete ['k'] ['u'] (partsXml [(1, ['e']), (2, ['e'])])) (.ok (answered body))]
          (.ok ()) := by
  have hsize : partSizeFor minPartSize twoParts.length = .ok minPartSize := by
    rw [length_twoParts]
    rfl
  refine plays_bind_ok.mpr ⟨minPartSize, [], _, rfl, plays_ofExcept.mpr ⟨rfl, hsize⟩, ?_⟩
  rw [length_twoParts, planParts_two]
  exact .ask (.ask (.ask (.ask (.ask (.done _)))))

theorem plays_twoParts (body : Text) (f : Effect) :
    Prog.Plays ((Writer.put twoParts ⟨.blake3, [1]⟩).run emptiness minPartSize ['k'] none).run
      ((twoPartsLog body f).map Prod.fst) (.ok ⟨minPartSize + 1, ⟨.blake3, [1]⟩⟩) := by
  have hmultipart : putSized minPartSize ['k'] twoParts none =
      putMultipart minPartSize ['k'] twoParts none := by
    unfold putSized
    rw [length_twoParts]
    exact if_pos rfl
  have hcreate : Prog.Plays (createUpload ['k'] none).run [sent (.create ['k'] []) (.ok created)]
      (.ok ['u']) :=
    .ask (.done _)
  refine plays_bind_ok.mpr ⟨(), [], _, rfl, ?_, ?_⟩
  · rw [requireMatch, if_pos (by rfl)]
    exact plays_pure.mpr ⟨rfl, rfl⟩
  · refine plays_bind_ok.mpr ⟨(), _, [], (append_nil _).symm, ?_, ?_⟩
    · rw [hmultipart]
      refine plays_bind_ok.mpr ⟨['u'], [_], _, rfl, hcreate, ?_⟩
      exact plays_tryCatch.mpr (.inl ⟨(), rfl, plays_uploadTwoParts body⟩)
    · rw [length_twoParts]
      exact plays_pure.mpr ⟨rfl, rfl⟩

def partEtag : Etag := ⟨['e'], by decide⟩

def heldParts : Nat → Option (Etag × Bytes) :=
  update (update (fun _ => none) 1 (some (partEtag, firstPart))) 2 (some (partEtag, lastPart))

variable {f : Effect} {body : Text}

theorem path_twoParts
    (h : ∀ b : Bucket, b ['u'] = some ⟨['k'], heldParts⟩ → ∃ b', Step b (sent
      (.complete ['k'] ['u'] (partsXml [(1, ['e']), (2, ['e'])])) (.ok (answered body)), f) b') :
    ∃ b', Prog.Path Step (fun _ => none) (twoPartsLog body f) b' := by
  have hcreate : Request.Acts (.create ['k'] []) (.ok created) := by
    rintro resp ⟨⟩
    exact ⟨rfl, trivial⟩
  have hpart :
      ∀ number chunk, Request.Acts (.uploadPart ['k'] ['u'] number chunk) (.ok uploadedPart) := by
    rintro number chunk resp ⟨⟩
    exact ⟨rfl, trivial⟩
  have htag : ∀ (resp : Response) t, (.ok uploadedPart : Except StoreError Response) = .ok resp →
      resp.etag = some t →
      t = partEtag.text := by
    rintro resp t ⟨⟩ ⟨⟩
    rfl
  obtain ⟨b', hcomplete⟩ := h _ (update_self ..)
  exact ⟨b', _, .create hcreate rfl, _, .part (hpart 1 firstPart) (update_self ..) rfl htag, _,
    .other (quiet_charge _), _, .part (hpart 2 lastPart) (update_self ..) rfl htag, _,
    .other (quiet_charge _), _, hcomplete, rfl⟩

theorem effect_twoParts {g : Effect} {e : Exchange} (h : (e, g) ∈ twoPartsLog body f) :
    g = .opened ['u'] ∧ e = sent (.create ['k'] []) (.ok created) ∨ g = .nothing ∨ g = f := by
  simp only [twoPartsLog, mem_cons, Prod.mk.injEq, not_mem_nil, or_false] at h
  rcases h with h | h | h | h | h | h
  · exact .inl ⟨h.2, h.1⟩
  all_goals exact .inr (by tauto)

theorem complete_twoParts {body' key id : Text} {g : Effect} {resp : Response}
    (h : (sent (.complete key id body') (.ok resp), g) ∈ twoPartsLog body f) :
    resp = answered body := by
  simp [twoPartsLog, sent] at h
  exact h.1.2

/-- The two parts are there, and the server has said so: the writer does what it is for. -/
theorem sound_iff_twoParts : Sound emptiness (.put twoParts ⟨.blake3, [1]⟩) ['k']
    (twoPartsLog [] (.completed ['u'] ['k'] [firstPart, lastPart].flatten))
      (.ok ⟨minPartSize + 1, ⟨.blake3, [1]⟩⟩) := by
  have hacts : Request.Acts (.complete ['k'] ['u'] (partsXml [(1, ['e']), (2, ['e'])]))
      (.ok (answered [])) := by
    rintro resp ⟨⟩
    exact ⟨rfl, rfl⟩
  have hstep : ∀ b : Bucket, b ['u'] = some ⟨['k'], heldParts⟩ → ∃ b', Step b
      (sent (.complete ['k'] ['u'] (partsXml [(1, ['e']), (2, ['e'])])) (.ok (answered [])),
        .completed ['u'] ['k'] [firstPart, lastPart].flatten) b' := by
    intro b hopen
    have hfirst : heldParts 1 = some (partEtag, firstPart) := by
      rw [heldParts, update_of_ne (by decide), update_self]
    have hlast : heldParts 2 = some (partEtag, lastPart) := update_self ..
    exact ⟨_,
      .complete hacts hopen rfl (.cons ⟨partEtag, hfirst, rfl⟩ (.cons ⟨partEtag, hlast, rfl⟩ .nil))⟩
  obtain ⟨b', hpath⟩ := path_twoParts hstep
  refine (sound_iff (plays_twoParts [] _) hpath).mpr ⟨?_, ?_⟩
  · intro key id body resp f hmem _
    rw [complete_twoParts hmem]
    rfl
  · intro e id hmem
    rcases effect_twoParts hmem with ⟨hid, rfl⟩ | h | h
    · cases hid
      exact ⟨_, _, _, rfl, rfl⟩
    · cases h
    · cases h

/-- The server answers the completion with success and an `Error` document.  Nothing is stored, and
the writer reports success. -/
theorem success_not_committed :
    Prog.Plays ((Writer.put twoParts ⟨.blake3, [1]⟩).run emptiness minPartSize ['k'] none).run
        ((twoPartsLog errorBody .nothing).map Prod.fst) (.ok ⟨minPartSize + 1, ⟨.blake3, [1]⟩⟩) ∧
      (∃ b', Prog.Path Step (fun _ => none) (twoPartsLog errorBody .nothing) b') ∧
      (∀ data, ¬Commits (twoPartsLog errorBody .nothing) ['k'] data) ∧
      ¬Sound emptiness (.put twoParts ⟨.blake3, [1]⟩) ['k'] (twoPartsLog errorBody .nothing)
        (.ok ⟨minPartSize + 1, ⟨.blake3, [1]⟩⟩) := by
  have hnone : ∀ data, ¬Commits (twoPartsLog errorBody .nothing) ['k'] data := by
    rintro data ⟨e, hmem | ⟨id, hmem⟩⟩ <;> rcases effect_twoParts hmem with ⟨h, -⟩ |
      h | h <;> cases h
  refine ⟨plays_twoParts _ _, path_twoParts fun b _ => ⟨b, .declined ?_⟩, hnone, fun hsound => ?_⟩
  · rintro resp ⟨⟩ haccepted
    cases haccepted.2
  · obtain ⟨data, -, hcommits⟩ := hsound.1 _ rfl
    exact hnone data hcommits

end Dctl.Store.S3.Write
