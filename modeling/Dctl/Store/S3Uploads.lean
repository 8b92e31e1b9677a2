import Dctl.ProofKit.Pager
import Dctl.Store.Instant
import Dctl.Store.S3Listing

/-! The open multipart uploads of a bucket (`parse_uploads` of `s3/xml.rs`,
`list_incomplete_uploads` of `s3/client.rs`), page by page, against a server that lists them by key
and upload id. -/

namespace Dctl.Store.S3.Multipart

open ProofKit Xml List

abbrev Text := List Char

structure Uploads where
  items : List (Text × Text × Option Text)
  nextKeyMarker : Option Text
  nextUploadIdMarker : Option Text
  deriving DecidableEq

def uploadsRoot : String := "ListMultipartUploadsResult"

def eqIgnoreAsciiCase (a b : Text) : Bool := a.map Char.toLower = b.map Char.toLower

structure UploadsLoop where
  items : List (Text × Text × Option Text)
  inUpload : Bool
  key : Option Text
  id : Option Text
  initiated : Option Text
  nextKey : Option Text
  nextId : Option Text
  truncated : Bool
  rootOpened : Bool
  rootClosed : Bool

namespace UploadsLoop

def new : UploadsLoop where
  items := []
  inUpload := false
  key := none
  id := none
  initiated := none
  nextKey := none
  nextId := none
  truncated := false
  rootOpened := false
  rootClosed := false

def set (s : UploadsLoop) (name : String) (text : Text) : UploadsLoop :=
  if name = "Key" ∧ s.inUpload then { s with key := some text }
  else if name = "UploadId" ∧ s.inUpload then { s with id := some text }
  else if name = "Initiated" ∧ s.inUpload then { s with initiated := some text }
  else if name = "NextKeyMarker" then { s with nextKey := some text }
  else if name = "NextUploadIdMarker" then { s with nextId := some text }
  else if name = "IsTruncated" then { s with truncated := eqIgnoreAsciiCase text "true".toList }
  else s

def push (s : UploadsLoop) : UploadsLoop :=
  match s.key, s.id with
  | some k, some u =>
    { s with items := s.items ++ [(k, u, s.initiated)], key := none, id := none, initiated := none }
  | _, _ => { s with key := none, id := none }

end UploadsLoop

/-- The three branches of the event loop. -/
def handlers : Handlers UploadsLoop where
  name := localName
  onStart name s :=
    let s := if name = uploadsRoot then { s with rootOpened := true } else s
    if name = "Upload" then { s with inUpload := true, key := none, id := none, initiated := none }
    else s
  onText name run s := s.set name (spelled run)
  onStop name s :=
    let s := if name = uploadsRoot then { s with rootClosed := true } else s
    if name = "Upload" then { s with inUpload := false }.push else s

/-- Parse a page of `len` bytes from the events of a tokenizer that trims texts. -/
def parseUploads (len : Nat) (events : List Event) : Except StoreError Uploads :=
  match handlers.run (none, UploadsLoop.new) events with
  | .error message => .error (.backend ("s3 xml parse: " ++ message))
  | .ok (_, s) =>
    if s.rootOpened = false ∨ s.rootClosed = false then
      .error (.backend ("s3 multipart listing response is not a complete <" ++ uploadsRoot ++
        "> document (" ++
        len.repr ++ " bytes read); it was truncated, or the endpoint answered with something else"))
    else if s.truncated then .ok ⟨s.items, s.nextKey, s.nextId⟩
    else .ok ⟨s.items, none, none⟩

def cursorSeparator : Char := '\n'

def joinCursor (keyMarker uploadIdMarker : Text) : Text :=
  keyMarker ++ cursorSeparator :: uploadIdMarker

def splitCursor (cursor : Text) : Text × Text :=
  (cursor.takeWhile (· ≠ cursorSeparator), (cursor.dropWhile (· ≠ cursorSeparator)).tail)

abbrev Query := List (String × Text)

def query (pre : Text) (cursor : Option Text) : Query :=
  ("uploads", []) :: (if pre = [] then [] else [("prefix", pre)]) ++
    match cursor with
    | none => []
    | some cursor =>
      let (keyMarker, uploadMarker) := splitCursor cursor
      ("key-marker", keyMarker) :: if uploadMarker = [] then []
        else [("upload-id-marker", uploadMarker)]

structure IncompleteUpload where
  key : Text
  id : Text
  startedUnix : Option Int
  deriving DecidableEq

structure IncompletePage where
  items : List IncompleteUpload
  nextCursor : Option Text
  deriving DecidableEq

def startedUnix (initiated : Option Text) : Option Int :=
  initiated.bind fun value => (Instant.parseIso8601Utc value).toOption

/-- One page of the open uploads.  `send` gives the length and the events of a successful answer's
body, or why there is none. -/
def listIncompleteUploads (send : Query → Except StoreError (Nat × List Event)) (pre : Text)
    (cursor : Option Text) : Except StoreError IncompletePage := do
  let body ← send (query pre cursor)
  let page ← parseUploads body.1 body.2
  return {
    items := page.items.map fun (key, id, initiated) => ⟨key, id, startedUnix initiated⟩
    nextCursor :=
      page.nextKeyMarker.map fun key => joinCursor key (page.nextUploadIdMarker.getD []) }

def drive (list : Option Text → Except StoreError IncompletePage) :
    (fuel : Nat) → Option Text → Option (Except StoreError (List IncompleteUpload))
  | 0, _ => none
  | fuel + 1, cursor =>
    match list cursor with
    | .error e => some (.error e)
    | .ok page =>
      match page.nextCursor with
      | none => some (.ok page.items)
      | some next => (drive list fuel (some next)).map (·.map (page.items ++ ·))

structure Upload where
  key : Text
  id : Text
  initiated : Text
  deriving DecidableEq

/-- The order of the listing. -/
def Before (a b : Upload) : Prop := a.key < b.key ∨ a.key = b.key ∧ a.id < b.id

instance : DecidableRel Before := fun _ _ => inferInstanceAs (Decidable (_ ∨ _))

def Behind (keyMarker uploadIdMarker : Option Text) (u : Upload) : Prop :=
  match keyMarker, uploadIdMarker with
  | none, _ => True
  | some k, none => k < u.key
  | some k, some i => k < u.key ∨ k = u.key ∧ i < u.id

instance (keyMarker uploadIdMarker : Option Text) :
    DecidablePred (Behind keyMarker uploadIdMarker) := by
  intro u
  unfold Behind
  split <;> infer_instance

structure Reply where
  uploads : List Upload
  truncated : Bool

inductive Part where
  | field (name : String) (text : Text)
  | upload (u : Upload)

def Reply.parts (r : Reply) : List Part :=
  (match r.uploads.getLast? with
    | some u => [.field "NextKeyMarker" u.key, .field "NextUploadIdMarker" u.id]
    | none => []) ++
    .field "IsTruncated" (if r.truncated then "true".toList else "false".toList) ::
      r.uploads.map .upload

def Upload.fields (u : Upload) : List (String × Text) :=
  [("Key", u.key), ("UploadId", u.id), ("Initiated", u.initiated)]

/-- The names that the loop knows. -/
def known : List String :=
  [uploadsRoot, "Upload", "Key", "UploadId", "Initiated", "NextKeyMarker", "NextUploadIdMarker",
    "IsTruncated"]

variable (written : Char → Symbol)

def ShowsField (field : String × Text) (n : Node) : Prop :=
  ∃ name, localName name = field.1 ∧ n = .element name [.text (field.2.map written)]

def ShowsPart : Part → Node → Prop
  | .field name text, n => ShowsField written (name, text) n
  | .upload u, n => ∃ name children, localName name = "Upload" ∧ n = .element name children ∧
    handlers.Shown known (ShowsField written) u.fields children

/-- A document that says what a reply says, among other things. -/
def IsPage (r : Reply) (nodes : List Node) : Prop :=
  ∃ prolog name children epilog, nodes = prolog ++ .element name children :: epilog ∧
    handlers.AllAvoid known prolog ∧ localName name = uploadsRoot ∧
    handlers.Shown known (ShowsPart written) r.parts children ∧ handlers.AllAvoid known epilog

/-- A bucket with its open uploads, in pages of one size, in documents that write each character in
a way of their own. -/
structure Server where
  uploads : List Upload
  size : Nat
  written : Char → Symbol
  document : Reply → List Node
  bytes : Reply → Nat
  sorted : uploads.Pairwise Before
  size_pos : 0 < size
  written_value : ∀ c, (written c).value = [c]
  written_known : ∀ c, (written c).isEntity = false
  document_page : ∀ r, IsPage written r (document r)

namespace Server

variable (server : Server)

def openUnder (pre : Text) : List Upload := server.uploads.filter fun u => pre.isPrefixOf u.key

def reply (q : Query) : Reply :=
  let found := (server.openUnder ((q.lookup "prefix").getD [])).filter fun u =>
    Behind (q.lookup "key-marker") (q.lookup "upload-id-marker") u
  ⟨found.take server.size, server.size < found.length⟩

def send (q : Query) : Except StoreError (Nat × List Event) :=
  .ok (server.bytes (server.reply q), nodeEvents (server.document (server.reply q)))

def read (text : Text) : Option Text :=
  if trim (text.map server.written) = [] then none
  else some (spelled (trim (text.map server.written)))

/-- A text with nothing to trim. -/
def Kept (text : Text) : Prop := text ≠ [] ∧ Trimmed (text.map server.written)

/-- The listing ends, and names every open upload once. -/
def Complete (pre : Text) : Prop :=
  ∃ fuel items, drive (listIncompleteUploads server.send pre) fuel none = some (.ok items) ∧
    ∀ u ∈ server.openUnder pre, (items.map fun item => (item.key, item.id)).count (u.key, u.id) = 1

/-- Keys and ids come through as they are, and no key that ends a page holds the cursor's separator.
-/
structure Plain (pre : Text) : Prop where
  key : ∀ u ∈ server.openUnder pre, server.Kept u.key
  id : ∀ u ∈ server.openUnder pre, server.Kept u.id
  ends : ∀ u, EndsPage server.size (server.openUnder pre) u → cursorSeparator ∉ u.key

end Server

namespace Server

variable {server : Server} {text : Text} {u : Upload} {t : UploadsLoop}

theorem spelled_written (text : Text) : spelled (text.map server.written) = text := by
  have hknown : (text.map server.written).any Symbol.isEntity = false := by
    rw [any_map, any_eq_false]
    intro c _
    simp [server.written_known c]
  rw [spelled, unescape, if_neg (by simp [hknown]), Option.getD_some]
  induction text with
  | nil => rfl
  | cons c text ih =>
    rw [map_cons, any_cons, Bool.or_eq_false_iff] at hknown
    rw [map_cons, value, flatMap_cons, server.written_value c]
    exact congrArg (c :: ·) (ih hknown.2)

theorem exists_trim (server : Server) (text : Text) :
    ∃ kept : Text, trim (text.map server.written) = kept.map server.written := by
  obtain ⟨a, b, hrun, -, -⟩ := eq_append_trim (text.map server.written)
  obtain ⟨rest, back, -, hfront, -⟩ := map_eq_append_iff.mp hrun
  obtain ⟨front, kept, -, -, hkept⟩ := map_eq_append_iff.mp hfront
  exact ⟨kept, hkept.symm⟩

theorem read_eq (server : Server) (text : Text) : ∃ kept : Text,
    trim (text.map server.written) = kept.map server.written ∧ server.read text = if kept = []
      then none else some kept := by
  obtain ⟨kept, hkept⟩ := exists_trim server text
  refine ⟨kept, hkept, ?_⟩
  rw [read, hkept, spelled_written]
  simp only [map_eq_nil_iff]

theorem kept_of_read {kept : Text} (h : server.read text = some kept) : server.Kept kept := by
  obtain ⟨kept', htrim, hread⟩ := read_eq server text
  rw [hread] at h
  split at h
  · cases h
  · rename_i hne
    cases h
    exact ⟨hne, htrim ▸ trimmed_trim _⟩

theorem read_of_kept (h : server.Kept text) : server.read text = some text := by
  rw [read, trim_eq_self h.2, spelled_written, if_neg (by simpa using h.1)]

theorem read_letters (hne : text ≠ []) (h : text.all Char.isAlpha = true) :
    server.read text = some text := by
  rw [all_eq_true] at h
  have hsolid : ∀ c, c.isAlpha = true → (server.written c).isBlank = false := by
    intro c hc
    have hvalue := server.written_value c
    cases hsymbol : server.written c with
    | lit d =>
      rw [hsymbol] at hvalue
      obtain rfl : d = c := by simpa [Symbol.value] using hvalue
      by_contra hblank
      simp only [Symbol.isBlank, Bool.or_eq_true, decide_eq_true_eq, Bool.not_eq_false] at hblank
      rcases hblank with ((rfl | rfl) | rfl) | rfl <;> exact absurd hc (by decide)
    | ref d => rfl
    | entity v => rfl
  refine read_of_kept ⟨hne, ?_, ?_⟩
  · intro s hs
    rw [List.head?_map, Option.map_eq_some_iff] at hs
    obtain ⟨c, hc, rfl⟩ := hs
    exact hsolid c (h c (mem_of_head? hc))
  · intro s hs
    rw [List.getLast?_map, Option.map_eq_some_iff] at hs
    obtain ⟨c, hc, rfl⟩ := hs
    exact hsolid c (h c (mem_of_getLast? hc))

def takeField (server : Server) (t : UploadsLoop) (field : String × Text) : UploadsLoop :=
  handlers.onStop field.1 (match server.read field.2 with
    | none => handlers.onStart field.1 t
    | some text => (handlers.onStart field.1 t).set field.1 text)

def takePart (server : Server) (t : UploadsLoop) : Part → UploadsLoop
  | .field name text => takeField server t (name, text)
  | .upload u => handlers.onStop "Upload"
    (u.fields.foldl (takeField server) (handlers.onStart "Upload" t))

def itemOf (server : Server) (u : Upload) : Option (Text × Text × Option Text) := do
  let key ← server.read u.key
  let id ← server.read u.id
  return (key, id, server.read u.initiated)

theorem knows_handlers : handlers.Knows known := by
  intro name hname t
  simp only [known, mem_cons, not_mem_nil, or_false, not_or] at hname
  refine ⟨?_, fun run => ?_, ?_⟩
  · simp [handlers, hname]
  · simp [handlers, UploadsLoop.set, hname]
  · simp [handlers, hname]

theorem after_field {field : String × Text} {n : Node} {s : Option String × UploadsLoop}
    (h : ShowsField server.written field n) :
    handlers.after s [n] = (none, takeField server s.2 field) := by
  obtain ⟨name, hname, rfl⟩ := h
  have hlocal : handlers.name name = field.1 := hname
  rw [Handlers.after_text, hlocal, takeField, read]
  by_cases hblank : trim (field.2.map server.written) = []
  · simp only [if_pos hblank]
  · simp only [if_neg hblank]
    rfl

theorem after_part {part : Part} {n : Node} {s : Option String × UploadsLoop}
    (h : ShowsPart server.written part n) :
    handlers.after s [n] = (none, takePart server s.2 part) := by
  cases part with
  | field name text => exact after_field h
  | upload u =>
    obtain ⟨name, children, hname, rfl, hshown⟩ := h
    have hlocal : handlers.name name = "Upload" := hname
    have hquiet : handlers.Quiet (some "Upload") := by
      rintro _ ⟨⟩ run t
      simp [handlers, UploadsLoop.set]
    obtain ⟨current, -, hafter⟩ := Handlers.after_shown (f := takeField server)
      (s := (some "Upload", handlers.onStart "Upload" s.2)) knows_handlers
      (fun field n s => after_field) hshown hquiet
    rw [Handlers.after_element, hlocal, hafter]
    rfl

/-- What the loop keeps of an upload, besides the variables that the next one resets. -/
structure Took (server : Server) (us : List Upload) (t t' : UploadsLoop) : Prop where
  items : t'.items = t.items ++ us.filterMap server.itemOf
  nextKey : t'.nextKey = t.nextKey
  nextId : t'.nextId = t.nextId
  truncated : t'.truncated = t.truncated
  rootOpened : t'.rootOpened = t.rootOpened

theorem took_upload (t : UploadsLoop) (u : Upload) :
    Took server [u] t (takePart server t (.upload u)) := by
  unfold takePart takeField Upload.fields
  simp only [foldl_cons, foldl_nil]
  cases hkey : server.read u.key <;> cases hid : server.read u.id <;> cases hdate :
    server.read u.initiated <;>
    constructor <;> simp [handlers, uploadsRoot, UploadsLoop.set, UploadsLoop.push, itemOf,
      hkey, hid, hdate]

theorem took_uploads (us : List Upload) (t : UploadsLoop) :
    Took server us t ((us.map Part.upload).foldl (takePart server) t) := by
  induction us generalizing t with
  | nil => exact ⟨(append_nil _).symm, rfl, rfl, rfl, rfl⟩
  | cons u us ih =>
    have hfirst := @took_upload server t u
    have hrest := ih (takePart server t (.upload u))
    rw [map_cons, foldl_cons]
    constructor
    · rw [hrest.items, hfirst.items, append_assoc, ← filterMap_append]
      rfl
    · exact hrest.nextKey.trans hfirst.nextKey
    · exact hrest.nextId.trans hfirst.nextId
    · exact hrest.truncated.trans hfirst.truncated
    · exact hrest.rootOpened.trans hfirst.rootOpened

def readReply (server : Server) (r : Reply) : Uploads :=
  ⟨r.uploads.filterMap server.itemOf, if r.truncated
    then r.uploads.getLast?.bind (server.read ·.key) else none,
    if r.truncated then r.uploads.getLast?.bind (server.read ·.id) else none⟩

theorem takeField_marker (t : UploadsLoop) (u : Upload) :
    [Part.field "NextKeyMarker" u.key, .field "NextUploadIdMarker" u.id].foldl (takePart server) t =
      { t with nextKey := (server.read u.key).or t.nextKey, nextId :=
        (server.read u.id).or t.nextId } := by
  unfold takePart takeField
  simp only [foldl_cons, foldl_nil]
  cases hkey : server.read u.key <;> cases hid : server.read u.id <;>
    simp [handlers, uploadsRoot, UploadsLoop.set]

theorem takeField_truncated (t : UploadsLoop) (truncated : Bool) :
    takePart server t (.field "IsTruncated" (if truncated then "true".toList else "false".toList)) =
      { t with truncated } := by
  have hread : server.read (if truncated then "true".toList else "false".toList) =
      some (if truncated then "true".toList else "false".toList) := by
    cases truncated with
    | false => exact read_letters (by decide) (by decide)
    | true => exact read_letters (by decide) (by decide)
  unfold takePart takeField
  simp only [hread]
  cases truncated <;> simp [handlers, uploadsRoot, UploadsLoop.set] <;> decide

theorem foldl_parts (r : Reply) (t : UploadsLoop) (hkey : t.nextKey =
    none) (hid : t.nextId = none) :
    (r.parts.foldl (takePart server) t).items = t.items ++ r.uploads.filterMap server.itemOf ∧
      (r.parts.foldl (takePart server) t).nextKey = r.uploads.getLast?.bind (server.read ·.key) ∧
      (r.parts.foldl (takePart server) t).nextId = r.uploads.getLast?.bind (server.read ·.id) ∧
      (r.parts.foldl (takePart server) t).truncated = r.truncated ∧
      (r.parts.foldl (takePart server) t).rootOpened = t.rootOpened := by
  unfold Reply.parts
  rw [foldl_append, foldl_cons, takeField_truncated]
  generalize hmarked : List.foldl (takePart server) t _ = marked
  have htook := @took_uploads server r.uploads { marked with truncated := r.truncated }
  rw [htook.items, htook.nextKey, htook.nextId, htook.truncated, htook.rootOpened]
  cases hlast : r.uploads.getLast? with
  | none =>
    simp only [hlast, foldl_nil] at hmarked
    subst hmarked
    exact ⟨rfl, hkey, hid, rfl, rfl⟩
  | some u =>
    simp only [hlast, takeField_marker] at hmarked
    subst hmarked
    simp [hkey, hid]

theorem parse_document (server : Server) (len : Nat) (r : Reply) :
    parseUploads len (nodeEvents (server.document r)) = .ok (readReply server r) := by
  obtain ⟨prolog, name, children, epilog, hdocument, hprolog, hname, hshown, hepilog⟩ :=
    server.document_page r
  have hlocal : handlers.name name = uploadsRoot := hname
  obtain ⟨before, -, hbefore⟩ :=
    Handlers.after_allAvoid knows_handlers prolog (none, UploadsLoop.new) hprolog
      Handlers.quiet_none
  have hquiet : handlers.Quiet (some uploadsRoot) := by
    rintro _ ⟨⟩ run t
    simp [handlers, UploadsLoop.set, uploadsRoot]
  obtain ⟨current, -, hparts⟩ := Handlers.after_shown (f := takePart server)
    (s := (some uploadsRoot, handlers.onStart uploadsRoot UploadsLoop.new)) knows_handlers
    (fun part n s => after_part) hshown hquiet
  have hopened : handlers.onStart uploadsRoot UploadsLoop.new =
      { UploadsLoop.new with rootOpened := true } := by
    simp [handlers, uploadsRoot]
  rw [hopened] at hparts
  obtain ⟨hitems, hkey, hid, htruncated, hroot⟩ :=
    @foldl_parts server r { UploadsLoop.new with rootOpened := true } rfl rfl
  generalize hread : r.parts.foldl (takePart server) _ = t
      at hparts hitems hkey hid htruncated hroot
  have hclosed : handlers.onStop uploadsRoot t = { t with rootClosed := true } := by
    simp [handlers, uploadsRoot]
  obtain ⟨after, -, hafter⟩ :=
    Handlers.after_allAvoid knows_handlers epilog (none, { t with rootClosed := true }) hepilog
      Handlers.quiet_none
  have hrun : handlers.after (none, UploadsLoop.new) (server.document r) =
      (after, { t with rootClosed := true }) := by
    rw [hdocument, Handlers.after_append, hbefore, Handlers.after_cons, Handlers.after_element,
      hlocal, hopened, hparts, hclosed, hafter]
  rw [parseUploads, Handlers.run_nodeEvents, hrun]
  simp only [hroot, htruncated, hitems, hkey, hid, readReply, UploadsLoop.new, nil_append]
  cases r.truncated <;> simp

def markers : Option Text → Option Text × Option Text
  | none => (none, none)
  | some cursor => (some (splitCursor cursor).1, if (splitCursor cursor).2 = [] then none
    else some (splitCursor cursor).2)

def found (server : Server) (pre : Text) (cursor : Option Text) : List Upload :=
  (server.openUnder pre).filter fun u => Behind (markers cursor).1 (markers cursor).2 u

theorem reply_query (server : Server) (pre : Text) (cursor : Option Text) :
    server.reply (query pre cursor) =
    ⟨(server.found pre cursor).take server.size,
      server.size < (server.found pre cursor).length⟩ := by
  have hunder : ((query pre cursor).lookup "prefix").getD [] = pre := by
    unfold query
    by_cases hpre : pre = [] <;> cases cursor with
    | none => simp [hpre, lookup_cons]
    | some cursor => by_cases hmarker : (splitCursor cursor).2 =
      [] <;> simp [hpre, hmarker, lookup_cons]
  have hkey : (query pre cursor).lookup "key-marker" = (markers cursor).1 := by
    unfold query markers
    by_cases hpre : pre = [] <;> cases cursor <;> simp [hpre, lookup_cons]
  have hid : (query pre cursor).lookup "upload-id-marker" = (markers cursor).2 := by
    unfold query markers
    by_cases hpre : pre = [] <;> cases cursor with
    | none => simp [hpre, lookup_cons]
    | some cursor => by_cases hmarker : (splitCursor cursor).2 =
      [] <;> simp [hpre, hmarker, lookup_cons]
  unfold reply found
  simp only [hunder, hkey, hid]

def cursorOf (server : Server) (us : List Upload) : Option Text :=
  (us.getLast?.bind (server.read ·.key)).map fun key =>
    joinCursor key ((us.getLast?.bind (server.read ·.id)).getD [])

theorem list_eq (server : Server) (pre : Text) (cursor : Option Text) :
    listIncompleteUploads server.send pre cursor = .ok {
      items := (((server.found pre cursor).take server.size).filterMap server.itemOf).map
        fun (key, id, initiated) => ⟨key, id, startedUnix initiated⟩
      nextCursor := if server.size < (server.found pre cursor).length
        then server.cursorOf ((server.found pre cursor).take server.size) else none } := by
  unfold listIncompleteUploads send
  rw [reply_query]
  change (parseUploads _ (nodeEvents (server.document _)) >>= _) = _
  rw [parse_document, readReply]
  by_cases hlong : server.size < (server.found pre cursor).length
  · simp only [hlong, decide_true, if_true]
    rfl
  · simp only [hlong, decide_false, Bool.false_eq_true, if_false]
    rfl

variable {pre : Text} {cursor : Option Text}

theorem kept_of_mem_list {page : IncompletePage} {item : IncompleteUpload}
    (h : listIncompleteUploads server.send pre cursor = .ok page) (hitem : item ∈ page.items) :
    server.Kept item.key ∧ server.Kept item.id := by
  rw [list_eq] at h
  obtain rfl := Except.ok.inj h
  obtain ⟨triple, htriple, rfl⟩ := mem_map.mp hitem
  obtain ⟨u, -, hu⟩ := mem_filterMap.mp htriple
  cases hkey : server.read u.key with
  | none => simp [itemOf, hkey] at hu
  | some key =>
    cases hid : server.read u.id with
    | none => simp [itemOf, hkey, hid] at hu
    | some id =>
      simp only [itemOf, hkey, hid] at hu
      cases hu
      exact ⟨kept_of_read hkey, kept_of_read hid⟩

theorem kept_of_mem_drive {fuel : Nat} {items : List IncompleteUpload} {item : IncompleteUpload}
    (h : drive (listIncompleteUploads server.send pre) fuel cursor = some (.ok items))
    (hitem : item ∈ items) : server.Kept item.key ∧ server.Kept item.id := by
  induction fuel generalizing cursor items with
  | zero => cases h
  | succ fuel ih =>
    rw [drive] at h
    cases hlist : listIncompleteUploads server.send pre cursor with
    | error e =>
      rw [hlist] at h
      cases h
    | ok page =>
      rw [hlist] at h
      cases hnext : page.nextCursor with
      | none =>
        simp only [hnext] at h
        cases h
        exact kept_of_mem_list hlist hitem
      | some next =>
        simp only [hnext] at h
        obtain ⟨result, hresult, heq⟩ := Option.map_eq_some_iff.mp h
        cases result with
        | error e => cases heq
        | ok rest =>
          cases heq
          rcases mem_append.mp hitem with hpage | hrest
          · exact kept_of_mem_list hlist hpage
          · exact ih hresult hrest

def reported (server : Server) (u : Upload) : IncompleteUpload :=
  ⟨u.key, u.id, startedUnix (server.read u.initiated)⟩

def again (server : Server) (pre : Text) (u : Upload) : List Upload :=
  server.found pre (some (joinCursor u.key u.id))

theorem list_kept (hkept : ∀ u ∈ server.found pre cursor, server.Kept u.key ∧ server.Kept u.id) :
    listIncompleteUploads server.send pre cursor = .ok {
      items := ((server.found pre cursor).take server.size).map server.reported
      nextCursor := (nextCursor server.size (server.found pre cursor)).map fun u =>
        joinCursor u.key u.id } := by
  rw [list_eq]
  generalize server.found pre cursor = us at hkept
  have hitems : (us.take server.size).filterMap server.itemOf =
      (us.take server.size).map fun u => (u.key, u.id, server.read u.initiated) := by
    rw [← filterMap_eq_map]
    refine filterMap_congr fun u hu => ?_
    obtain ⟨hkey, hid⟩ := hkept u (mem_of_mem_take hu)
    rw [itemOf, read_of_kept hkey, read_of_kept hid]
    rfl
  have hnext : (if server.size < us.length then server.cursorOf (us.take server.size) else none) =
      (nextCursor server.size us).map fun u => joinCursor u.key u.id := by
    unfold nextCursor
    by_cases hlong : server.size < us.length
    · have hlast : (us.take server.size).getLast? = us[server.size - 1]? := by
        rw [List.getLast?_eq_getElem?, length_take, Nat.min_eq_left (Nat.le_of_lt hlong),
          List.getElem?_take_of_lt (Nat.sub_lt server.size_pos Nat.one_pos)]
      rw [if_pos hlong, if_pos hlong, cursorOf, hlast]
      cases hu : us[server.size - 1]? with
      | none => rfl
      | some u =>
        obtain ⟨hkey, hid⟩ := hkept u (mem_of_getElem? hu)
        simp only [Option.bind_some, read_of_kept hkey, read_of_kept hid, Option.map_some,
          Option.getD_some]
    · rw [if_neg hlong, if_neg hlong]
      rfl
  rw [hitems, hnext, map_map]
  rfl

theorem splitCursor_joinCursor {key id : Text} (h : cursorSeparator ∉ key) :
    splitCursor (joinCursor key id) = (key, id) := by
  have hplain : ∀ c ∈ key, decide (c ≠ cursorSeparator) = true := by
    intro c hc
    refine decide_eq_true ?_
    rintro rfl
    exact h hc
  unfold splitCursor joinCursor
  rw [takeWhile_append_of_pos hplain, dropWhile_append_of_pos hplain,
    takeWhile_cons_of_neg (by simp), dropWhile_cons_of_neg (by simp), append_nil, tail_cons]

theorem splitCursor_lt {key id : Text} (h : cursorSeparator ∈ key) :
    (splitCursor (joinCursor key id)).1 < key := by
  obtain ⟨front, back, rfl, hfront⟩ := eq_append_cons_of_mem h
  have hsplit : joinCursor (front ++ cursorSeparator :: back) id =
      joinCursor front (back ++ cursorSeparator :: id) := by
    simp [joinCursor]
  rw [hsplit, splitCursor_joinCursor hfront]
  have hlt : front ++ [] < front ++ cursorSeparator :: back :=
    append_left_lt (nil_lt_cons cursorSeparator back)
  rwa [append_nil] at hlt

theorem key_le_of_before {a b : Upload} (h : Before a b) : a.key ≤ b.key := by
  rcases h with hlt | ⟨heq, -⟩
  · exact le_of_lt hlt
  · exact le_of_eq heq

theorem not_before_self (u : Upload) : ¬Before u u := by
  rintro (hlt | ⟨-, hlt⟩)
  · exact lt_irrefl _ hlt
  · exact lt_irrefl _ hlt

theorem behind_of_before {keyMarker idMarker : Option Text} {a b : Upload} (h : Before a b)
    (ha : Behind keyMarker idMarker a) : Behind keyMarker idMarker b := by
  unfold Behind at ha ⊢
  split
  · trivial
  · exact lt_of_lt_of_le ha (key_le_of_before h)
  · rcases ha with hlt | ⟨heq, hlt⟩
    · exact .inl (lt_of_lt_of_le hlt (key_le_of_before h))
    · rcases h with hkey | ⟨hkey, hid⟩
      · exact .inl (heq ▸ hkey)
      · exact .inr ⟨heq.trans hkey, hlt.trans hid⟩

theorem mem_again_of_separator {u : Upload} (hu : u ∈ server.openUnder pre)
    (h : cursorSeparator ∈ u.key) : u ∈ server.again pre u := by
  have hlt : (splitCursor (joinCursor u.key u.id)).1 < u.key := splitCursor_lt h
  refine mem_filter.mpr ⟨hu, decide_eq_true ?_⟩
  unfold markers
  dsimp only
  split
  · exact hlt
  · exact .inl hlt

theorem behind_markers_iff {u v : Upload} (hid : u.id ≠ []) (h : cursorSeparator ∉ u.key) :
    Behind (markers (some (joinCursor u.key u.id))).1 (markers (some (joinCursor u.key u.id))).2 v ↔
      Before u v := by
  unfold markers
  simp only [splitCursor_joinCursor h, if_neg hid]
  exact Iff.rfl

theorem not_mem_again {u : Upload} (hid : u.id ≠ []) (h : cursorSeparator ∉ u.key) :
    u ∉ server.again pre u := by
  intro hmem
  have hbehind := of_decide_eq_true (mem_filter.mp hmem).2
  exact not_before_self u ((behind_markers_iff hid h).mp hbehind)

theorem sorted_openUnder (server : Server) (pre : Text) : (server.openUnder pre).Pairwise Before :=
  server.sorted.filter _

theorem found_suffix (server : Server) (pre : Text) (cursor : Option Text) :
    server.found pre cursor <:+ server.openUnder pre := by
  refine filter_suffix (sorted_openUnder server pre) fun a b hab ha => ?_
  exact decide_eq_true (behind_of_before hab (of_decide_eq_true ha))

theorem resumes_again {pre : Text} (hids : ∀ u ∈ server.openUnder pre, u.id ≠ []) :
    Resumes (server.again pre) (server.openUnder pre) := by
  intro before a after hsplit
  refine ⟨?_, found_suffix server pre _⟩
  have ha : a ∈ server.openUnder pre := hsplit ▸ mem_append_right _ mem_cons_self
  have hsorted := sorted_openUnder server pre
  rw [hsplit, pairwise_append, pairwise_cons] at hsorted
  have hbehind : ∀ b ∈ after, Behind (markers (some (joinCursor a.key a.id))).1
      (markers (some (joinCursor a.key a.id))).2 b := by
    intro b hb
    have hab := hsorted.2.1.1 b hb
    by_cases hsep : cursorSeparator ∈ a.key
    · exact behind_of_before hab
        (of_decide_eq_true (mem_filter.mp (mem_again_of_separator ha hsep)).2)
    · exact (behind_markers_iff (hids a ha) hsep).mpr hab
  have hall : (after.filter fun b => Behind (markers (some (joinCursor a.key a.id))).1
      (markers (some (joinCursor a.key a.id))).2 b) = after :=
    filter_eq_self.mpr fun b hb => decide_eq_true (hbehind b hb)
  unfold again found
  rw [hsplit, filter_append, filter_cons, hall]
  split
  · exact (suffix_cons a after).trans (suffix_append _ _)
  · exact suffix_append _ _

theorem drive_eq (hkept : ∀ u ∈ server.openUnder pre, server.Kept u.key ∧ server.Kept u.id)
    (fuel : Nat) (cursor : Option Text) :
    drive (listIncompleteUploads server.send pre) fuel cursor =
      (reread server.size (server.again pre) fuel (server.found pre cursor)).map
        fun us => .ok (us.map server.reported) := by
  induction fuel generalizing cursor with
  | zero => rfl
  | succ fuel ih =>
    rw [drive, reread, list_kept fun u hu => hkept u ((found_suffix server pre cursor).subset hu)]
    dsimp only
    cases hnext : nextCursor server.size (server.found pre cursor) with
    | none => rfl
    | some u =>
      simp only [Option.map_some, ih, Option.map_map]
      congr 1
      funext us
      simp [Except.map]

theorem found_none (server : Server) (pre : Text) : server.found pre none = server.openUnder pre :=
  filter_eq_self.mpr fun _ _ => decide_eq_true trivial

theorem count_reported {us : List Upload} (hus : us ⊆ server.openUnder pre) {u : Upload}
    (hu : u ∈ server.openUnder pre) :
    ((us.map server.reported).map fun item => (item.key, item.id)).count (u.key, u.id) =
      us.count u := by
  rw [map_map, List.count, countP_map, List.count]
  refine countP_congr fun v hv => ?_
  simp only [Function.comp_apply, reported, beq_iff_eq, Prod.mk.injEq]
  constructor
  · rintro ⟨hkey, hid⟩
    by_contra hne
    have hordered : Before v u ∨ Before u v := by
      have hsymm : Std.Symm fun a b => Before a b ∨ Before b a := ⟨fun _ _ h => h.symm⟩
      have hsorted :=
        (sorted_openUnder server pre).imp fun {a b} h => (Or.inl h : Before a b ∨ Before b a)
      exact hsorted.forall (hus hv) hu hne
    unfold Before at hordered
    rw [hkey, hid] at hordered
    simp at hordered
  · rintro rfl
    exact ⟨rfl, rfl⟩

theorem nodup_openUnder (server : Server) (pre : Text) : (server.openUnder pre).Nodup := by
  refine (sorted_openUnder server pre).imp fun {a b} h => ?_
  rintro rfl
  exact not_before_self a h

theorem drive_plain (h : server.Plain pre) : ∃ fuel,
    drive (listIncompleteUploads server.send pre) fuel none =
      some (.ok ((server.openUnder pre).map server.reported)) := by
  have hids : ∀ u ∈ server.openUnder pre, u.id ≠ [] := fun u hu => (h.id u hu).1
  have hends : ∀ u, EndsPage server.size (server.openUnder pre) u → u ∉ server.again pre u := by
    intro u hu
    obtain ⟨j, -, hj⟩ := id hu
    exact not_mem_again (hids u (mem_of_getElem? hj)) (h.ends u hu)
  obtain ⟨fuel, hfuel⟩ := reread_exact server.size_pos (resumes_again hids) (suffix_refl _) hends
  refine ⟨fuel, ?_⟩
  rw [drive_eq (fun u hu => ⟨h.key u hu, h.id u hu⟩), found_none, hfuel]
  rfl

theorem complete_iff (server : Server) (pre : Text) : server.Complete pre ↔ server.Plain pre := by
  constructor
  · rintro ⟨fuel, items, hdrive, honce⟩
    have hkept : ∀ u ∈ server.openUnder pre, server.Kept u.key ∧ server.Kept u.id := by
      intro u hu
      have hmem := count_pos_iff.mp (Nat.lt_of_lt_of_eq Nat.one_pos (honce u hu).symm)
      obtain ⟨item, hitem, heq⟩ := mem_map.mp hmem
      obtain ⟨hkey, hid⟩ := Prod.mk.inj heq
      exact hkey ▸ hid ▸ kept_of_mem_drive hdrive hitem
    have hresumes := @resumes_again server pre fun u hu => (hkept u hu).2.1
    rw [drive_eq hkept, found_none] at hdrive
    obtain ⟨us, hus, heq⟩ := Option.map_eq_some_iff.mp hdrive
    obtain rfl := Except.ok.inj heq
    have hsubset := reread_subset server.size_pos hresumes (suffix_refl _) hus
    have hends := (reread_once_iff server.size_pos hresumes (nodup_openUnder server pre)).mp
      ⟨fuel, us, hus, fun u hu => (count_reported hsubset hu).symm.trans (honce u hu)⟩
    refine ⟨fun u hu => (hkept u hu).1, fun u hu => (hkept u hu).2, fun u hu hsep => hends u hu ?_⟩
    obtain ⟨j, -, hj⟩ := hu
    exact mem_again_of_separator (mem_of_getElem? hj) hsep
  · intro hplain
    obtain ⟨fuel, hdrive⟩ := drive_plain hplain
    refine ⟨fuel, _, hdrive, fun u hu => ?_⟩
    rw [count_reported (List.Subset.refl _) hu]
    exact count_eq_one_of_mem (nodup_openUnder server pre) hu

/-- Open uploads: every one is listed once under its own key and id exactly if nothing is trimmed
from a key or an id and no page ends with a separator in its key, and then the list is the open
uploads in their order. -/
theorem uploads_listed_iff (server : Server) (pre : Text) :
    (server.Complete pre ↔ server.Plain pre) ∧
    (server.Plain pre → ∃ fuel, drive (listIncompleteUploads server.send pre) fuel none =
      some (.ok ((server.openUnder pre).map server.reported))) :=
  ⟨complete_iff server pre, drive_plain⟩

end Server

def nodeOf : Part → Node
  | .field name text => .element name [.text (text.map escape)]
  | .upload u => .element "Upload" (u.fields.map fun field =>
    .element field.1 [.text (field.2.map escape)])

theorem shown_map {α : Type} {shows : α → Node → Prop} {f : α → Node} (as : List α)
    (h : ∀ a ∈ as, shows a (f a)) : handlers.Shown known shows as (as.map f) := by
  induction as with
  | nil => exact .nil
  | cons a as ih => exact .cons (h a mem_cons_self) (ih fun b hb => h b (mem_cons_of_mem _ hb))

theorem isPage_plain (r : Reply) : IsPage escape r [.element uploadsRoot (r.parts.map nodeOf)] := by
  have hfields : ∀ u : Upload, ∀ field ∈ u.fields, localName field.1 = field.1 := by
    intro u field hfield
    simp only [Upload.fields, mem_cons, not_mem_nil, or_false] at hfield
    rcases hfield with rfl | rfl | rfl <;> dsimp only <;> decide
  have hnames : ∀ part ∈ r.parts, ∀ name text, part = .field name text → localName name = name := by
    rintro part hpart name text rfl
    unfold Reply.parts at hpart
    rcases mem_append.mp hpart with hmark | hrest
    · split at hmark
      · simp only [mem_cons, Part.field.injEq, not_mem_nil, or_false] at hmark
        rcases hmark with ⟨rfl, -⟩ | ⟨rfl, -⟩ <;> decide
      · cases hmark
    · rcases mem_cons.mp hrest with heq | hupload
      · cases heq
        decide
      · obtain ⟨u, -, hu⟩ := mem_map.mp hupload
        cases hu
  refine ⟨[], uploadsRoot, _, [], rfl, trivial, by decide,
    shown_map _ fun part hpart => ?_, trivial⟩
  cases part with
  | field name text => exact ⟨name, hnames _ hpart name text rfl, rfl⟩
  | upload u =>
    refine ⟨"Upload", _, by decide, rfl, shown_map u.fields fun field hfield => ?_⟩
    exact ⟨field.1, hfields u field hfield, rfl⟩

def plainServer (uploads : List Upload) (size : Nat) (sorted : uploads.Pairwise Before)
    (size_pos : 0 < size) :
    Server where
  uploads
  size
  written := escape
  document r := [.element uploadsRoot (r.parts.map nodeOf)]
  bytes _ := 0
  sorted
  size_pos
  written_value := by
    intro c
    unfold escape
    split <;> rfl
  written_known := by
    intro c
    unfold escape
    split <;> rfl
  document_page := isPage_plain

def newlineServer : Server :=
  plainServer [⟨"a\nb".toList, ['1'], []⟩, ⟨['c'], ['2'], []⟩] 1 (by decide) (by decide)

def spaceServer : Server := plainServer [⟨" a".toList, ['1'], []⟩] 1 (by decide) (by decide)

/-- The cursor behind a key `"a\nb"` comes back to it, and the space of a key `" a"` is lost. -/
theorem newline_and_space_lost : ¬newlineServer.Complete [] ∧ ¬spaceServer.Complete [] := by
  constructor
  · rw [Server.complete_iff]
    intro hplain
    exact hplain.ends ⟨"a\nb".toList, ['1'], []⟩ ⟨0, by decide, by decide⟩ (by decide)
  · rw [Server.complete_iff]
    intro hplain
    have hkept := hplain.key ⟨" a".toList, ['1'], []⟩ (by decide)
    exact absurd (hkept.2.1 (.lit ' ') (by decide)) (by decide)

end Dctl.Store.S3.Multipart
