import Dctl.ProofKit.Json
import Dctl.Store.Error
import Mathlib.Data.List.Induction

/-! Reading a range of an object: the file backends cut it out of the size (`local/read.rs`,
`sftp/mod.rs`), the object stores ask for it in a header (`s3/client.rs`, `b2/download.rs`). -/

namespace Dctl.Store

open ProofKit List

/-- A byte range for random-access reads.  Without a length it goes to the end. -/
structure ByteRange where
  offset : UInt64
  length : Option UInt64
  deriving DecidableEq

namespace RangeRead

/-- The range of the object, cut off at its end, or an error where it begins beyond it. -/
def Answers (object : Bytes) (range : ByteRange) (answer : Except StoreError Bytes) : Prop :=
  if range.offset.toNat ≤ object.length then
    answer = .ok ((object.take (min (range.length.elim object.length (range.offset.toNat + ·.toNat))
      object.length)).drop range.offset.toNat)
  else answer = .error (.rangeOutOfBounds object.length)

def readExact (file : Bytes) (offset n : Nat) : Except StoreError Bytes :=
  let bytes := (file.drop offset).take n
  if bytes.length = n then .ok bytes else .error (.io ⟨.unexpectedEof, none⟩)

def readRange (file : Bytes) (size : Nat) (range : ByteRange) : Except StoreError Bytes :=
  if size < range.offset.toNat then .error (.rangeOutOfBounds size)
  else
    let available := size - range.offset.toNat
    let toRead := range.length.elim available fun len => min len.toNat available
    readExact file range.offset.toNat toRead

namespace LocalFs

def getRange (opened : Except IoError Bytes) (key : String) (range : ByteRange) :
    Except StoreError Bytes :=
  match opened with
  | .error e => .error (if e.kind = .notFound then .notFound key else .io e)
  | .ok file => readRange file file.length range

end LocalFs

namespace Sftp

/-- A handle that the session keeps, and the size the file had when it was opened. -/
structure Handle where
  file : Bytes
  size : Nat
  deriving DecidableEq

def getRange (opened : Except StoreError Bytes) (held : Option Handle) (range : ByteRange) :
    Except StoreError Bytes × Option Handle :=
  match held.elim (opened.map fun file => ⟨file, file.length⟩) Except.ok with
  | .error e => (.error e, held)
  | .ok handle =>
    match readRange handle.file handle.size range with
    | .ok bytes => (.ok bytes, some handle)
    | .error (.rangeOutOfBounds size) => (.error (.rangeOutOfBounds size), some handle)
    | .error e => (.error e, none)

def heldAfter (opened : Except StoreError Bytes) (ranges : List ByteRange) : Option Handle :=
  ranges.foldl (fun held range => (getRange opened held range).2) none

end Sftp

/-- What a store answers, with what the client reads of the body of an error. -/
structure Response where
  status : Nat
  body : Bytes
  code : String
  text : String
  retryAfterSecs : Option Nat
  deriving DecidableEq

def isSuccess (status : Nat) : Bool := 200 ≤ status && status < 300

def headerText (first : UInt64) (last : Option UInt64) : String :=
  "bytes=" ++ toString first.toNat ++ "-" ++ last.elim "" fun last => toString last.toNat

def rangeHeader (range : ByteRange) : String :=
  headerText range.offset (range.length.map fun len => range.offset + len - 1)

/-- The end of the range is computed within 64 bits. -/
def NoOverflow (range : ByteRange) : Prop :=
  ∀ len, range.length = some len → 1 ≤ range.offset.toNat + len.toNat ∧
    range.offset.toNat + len.toNat < 2 ^ 64

namespace S3

def s3BackendName : String := "s3"

def getRange (respond : Option String → Response) (key : String) (range : ByteRange) :
    Except StoreError Bytes :=
  let resp := respond (some (rangeHeader range))
  if resp.status = 404 then .error (.notFound key)
  else if ¬isSuccess resp.status then
    .error (.provider s3BackendName resp.status resp.code resp.retryAfterSecs)
  else .ok resp.body

end S3

namespace B2

def retryMaxAttempts : Nat := 6

def codeExpiredAuthToken : String := "expired_auth_token"

/-- Whether another attempt can change an answer with this status. -/
def retried (resp : Response) : Bool :=
  if resp.status = 401 then resp.code = codeExpiredAuthToken
  else resp.status = 408 || resp.status = 429 || 500 ≤ resp.status

def sendDownload (respond : Nat → Option String → Response) (key : String) (range : Option String)
    (number : Nat) : Except StoreError Response :=
  let resp := respond number range
  let record (e : StoreError) : StoreError := if number ≤ 1 then e else .retried number e
  if resp.status = 404 then .error (record (.notFound key))
  else if isSuccess resp.status then .ok resp
  else if retried resp ∧ number < retryMaxAttempts then sendDownload respond key range (number + 1)
  else .error
    (record (.backend ("b2 download error " ++ toString resp.status ++ ": " ++ resp.text)))
termination_by retryMaxAttempts - number

def getRange (respond : Nat → Option String → Response) (key : String) (range : ByteRange) :
    Except StoreError Bytes :=
  (sendDownload respond key (some (rangeHeader range)) 1).map (·.body)

end B2

/-- The store keeps to HTTP where it is asked for a range of the object: a range that ends before it
starts is none, one that starts behind the object cannot be satisfied. -/
structure KeepsRanges (object : Bytes) (respond : Option String → Response) : Prop where
  none : (respond none).status = 200 ∧ (respond none).body = object
  invalid : ∀ first last, last < first →
    (respond (some (headerText first (some last)))).status = 200 ∧
    (respond (some (headerText first (some last)))).body = object
  unsatisfiable : ∀ first last, (∀ l ∈ last, first ≤ l) → object.length ≤ first.toNat →
    (respond (some (headerText first last))).status = 416
  satisfiable : ∀ first last, (∀ l ∈ last, first ≤ l) → first.toNat < object.length →
    (respond (some (headerText first last))).status = 206 ∧
      (respond (some (headerText first last))).body =
        (object.take (min (last.elim object.length (·.toNat + 1)) object.length)).drop first.toNat

variable {object : Bytes} {range : ByteRange} {answer : Except StoreError Bytes}

theorem readRange_answers (object : Bytes) (range : ByteRange) :
    Answers object range (readRange object object.length range) := by
  rw [Answers, readRange]
  split
  next hin =>
    rw [if_neg (by omega), readExact]
    have hpart : (object.drop range.offset.toNat).take
        (range.length.elim (object.length - range.offset.toNat)
          fun len => min len.toNat (object.length - range.offset.toNat)) =
        (object.take (min (range.length.elim object.length (range.offset.toNat + ·.toNat))
          object.length)).drop range.offset.toNat := by
      rw [drop_take]
      congr 1
      cases range.length with
      | none => simp
      | some len =>
        simp only [Option.elim_some]
        omega
    rw [if_pos, hpart]
    rw [length_take, length_drop]
    cases range.length with
    | none => simp
    | some len =>
      simp only [Option.elim_some]
      omega
  next hout => rw [if_pos (by omega)]

theorem Sftp.getRange_fst {held : Option Sftp.Handle}
    (hheld : held = none ∨ held = some ⟨object, object.length⟩) :
    (Sftp.getRange (.ok object) held range).1 = readRange object object.length range := by
  rcases hheld with rfl | rfl <;>
  · simp only [Sftp.getRange, Option.elim, Except.map]
    split <;> simp_all

theorem Sftp.heldAfter_eq (object : Bytes) (ranges : List ByteRange) :
    Sftp.heldAfter (.ok object) ranges = none ∨
      Sftp.heldAfter (.ok object) ranges = some ⟨object, object.length⟩ := by
  induction ranges using List.reverseRecOn with
  | nil => exact .inl rfl
  | append_singleton ranges range ih =>
    have hlast : heldAfter (.ok object) (ranges ++ [range]) =
        (getRange (.ok object) (heldAfter (.ok object) ranges) range).2 := by
      rw [heldAfter, foldl_append]
      rfl
    rw [hlast]
    generalize heldAfter (.ok object) ranges = held at ih
    rcases ih with rfl | rfl <;>
    · simp only [getRange, Option.elim, Except.map]
      split <;> simp

theorem Sftp.getRange_answers (object : Bytes) (earlier : List ByteRange) (range : ByteRange) :
    Answers object range (Sftp.getRange (.ok object) (Sftp.heldAfter (.ok object) earlier)
      range).1 := by
  rw [Sftp.getRange_fst (Sftp.heldAfter_eq object earlier)]
  exact readRange_answers object range

/-- What a client makes of an answer. -/
structure Takes (resp : Response) (answer : Except StoreError Bytes) : Prop where
  success : resp.status = 200 ∨ resp.status = 206 → answer = .ok resp.body
  unsatisfiable : resp.status = 416 → ∃ e, answer = .error e ∧ ∀ size, e ≠ .rangeOutOfBounds size

theorem S3.getRange_takes (respond : Option String → Response) (key : String) (range : ByteRange) :
    Takes (respond (some (rangeHeader range))) (S3.getRange respond key range) where
  success := by
    rintro (hstatus | hstatus) <;> simp [S3.getRange, isSuccess, hstatus]
  unsatisfiable := by
    intro hstatus
    have hrefused : S3.getRange respond key range = .error (.provider s3BackendName 416
        (respond (some (rangeHeader range))).code
        (respond (some (rangeHeader range))).retryAfterSecs) := by
      simp [S3.getRange, isSuccess, hstatus]
    exact ⟨_, hrefused, nofun⟩

theorem B2.getRange_takes (respond : Nat → Option String → Response) (key : String)
    (range : ByteRange) :
    Takes (respond 1 (some (rangeHeader range))) (B2.getRange respond key range) where
  success := by
    rintro (hstatus | hstatus) <;> simp [B2.getRange, B2.sendDownload, isSuccess,
      hstatus, Except.map]
  unsatisfiable := by
    intro hstatus
    have hrefused : B2.getRange respond key range = .error (.backend ("b2 download error " ++
        toString (416 : Nat) ++ ": " ++ (respond 1 (some (rangeHeader range))).text)) := by
      simp [B2.getRange, B2.sendDownload, isSuccess, B2.retried, hstatus, Except.map]
    exact ⟨_, hrefused, nofun⟩

theorem last_toNat {len : UInt64} (hlow : 1 ≤ range.offset.toNat + len.toNat)
    (hhigh : range.offset.toNat + len.toNat < 2 ^ 64) :
    (range.offset + len - 1).toNat = range.offset.toNat + len.toNat - 1 := by
  rw [UInt64.toNat_sub_of_le, UInt64.toNat_add, Nat.mod_eq_of_lt hhigh]
  · rfl
  · rw [UInt64.le_iff_toNat_le, UInt64.toNat_add, Nat.mod_eq_of_lt hhigh]
    exact hlow

/-- The range is not empty and starts within the object, and its end is computed within 64 bits. -/
def Asked (object : Bytes) (range : ByteRange) : Prop :=
  range.offset.toNat < object.length ∧ ∀ len, range.length = some len →
    1 ≤ len.toNat ∧ range.offset.toNat + len.toNat < 2 ^ 64

theorem not_answers_of_unsatisfiable {resp : Response} (htakes : Takes resp answer)
    (hstatus : resp.status = 416) : ¬Answers object range answer := by
  obtain ⟨e, rfl, he⟩ := htakes.unsatisfiable hstatus
  rw [Answers]
  split
  · exact nofun
  · intro h
    exact he _ (Except.error.inj h)

variable {respond : Option String → Response}

theorem Asked.answers (h : Asked object range) (hkeeps : KeepsRanges object respond)
    (htakes : Takes (respond (some (rangeHeader range))) answer) : Answers object range answer := by
  obtain ⟨hin, hlen⟩ := h
  have hlast : ∀ l ∈ range.length.map fun len => range.offset + len - 1, range.offset ≤ l := by
    intro l hl
    obtain ⟨len, hsome, rfl⟩ := Option.map_eq_some_iff.mp hl
    obtain ⟨hpos, hhigh⟩ := hlen len hsome
    rw [UInt64.le_iff_toNat_le, last_toNat (by omega) hhigh]
    omega
  obtain ⟨hstatus, hbody⟩ := hkeeps.satisfiable _ _ hlast hin
  rw [Answers, if_pos (Nat.le_of_lt hin), htakes.success (.inr hstatus)]
  refine congrArg Except.ok (hbody.trans ?_)
  cases hsome : range.length with
  | none => rfl
  | some len =>
    obtain ⟨hpos, hhigh⟩ := hlen len hsome
    have hend : (range.offset + len - 1).toNat + 1 = range.offset.toNat + len.toNat := by
      rw [last_toNat (by omega) hhigh]
      omega
    simp only [Option.map_some, Option.elim_some, hend]

theorem asked_of_answers (hkeeps : KeepsRanges object respond)
    (htakes : Takes (respond (some (rangeHeader range))) answer)
    (hanswers : Answers object range answer) (hno : NoOverflow range) : Asked object range := by
  have hlen : ∀ len, range.length = some len → 1 ≤ len.toNat := by
    intro len hsome
    by_contra hzero
    have hzero : len.toNat = 0 := by omega
    obtain ⟨hlow, hhigh⟩ := hno len hsome
    have hlast := last_toNat hlow hhigh
    -- An empty range ends before it starts, and the whole object comes back.
    have hinvalid : range.offset + len - 1 < range.offset := by
      rw [UInt64.lt_iff_toNat_lt, hlast]
      omega
    have hheader : rangeHeader range = headerText range.offset (some (range.offset + len - 1)) := by
      rw [rangeHeader, hsome]
      rfl
    obtain ⟨hstatus, hbody⟩ := hkeeps.invalid _ _ hinvalid
    rw [hheader] at htakes
    rw [Answers, htakes.success (.inl hstatus), hbody] at hanswers
    split at hanswers
    next hle =>
      rw [hsome, Option.elim_some, hzero, Nat.add_zero, Nat.min_eq_left hle] at hanswers
      have hempty := congrArg List.length (Except.ok.inj hanswers)
      rw [length_drop, length_take] at hempty
      omega
    next => cases hanswers
  refine ⟨?_, fun len hsome => ⟨hlen len hsome, (hno len hsome).2⟩⟩
  by_contra hout
  refine not_answers_of_unsatisfiable htakes (hkeeps.unsatisfiable _ _ ?_ (by omega)) hanswers
  intro l hl
  obtain ⟨len, hsome, rfl⟩ := Option.map_eq_some_iff.mp hl
  obtain ⟨hlow, hhigh⟩ := hno len hsome
  rw [UInt64.le_iff_toNat_le, last_toNat hlow hhigh]
  have := hlen len hsome
  omega

/-- The file backends answer every range as they should; the object stores do for the ranges that
are not empty, start within the object and end within 64 bits, and for no others. -/
theorem getRange_answers_iff (object : Bytes) (key : String) (earlier : List ByteRange)
    (range : ByteRange) {s3 : Option String → Response} {b2 : Nat → Option String → Response}
    (hs3 : KeepsRanges object s3) (hb2 : ∀ number, KeepsRanges object (b2 number)) :
    Answers object range (LocalFs.getRange (.ok object) key range) ∧
    Answers object range
      (Sftp.getRange (.ok object) (Sftp.heldAfter (.ok object) earlier) range).1 ∧
    (Answers object range (S3.getRange s3 key range) ∧ NoOverflow range ↔ Asked object range) ∧
    (Answers object range (B2.getRange b2 key range) ∧ NoOverflow range ↔ Asked object range) := by
  have hno : Asked object range → NoOverflow range := by
    intro h len hsome
    have := h.2 len hsome
    omega
  refine ⟨readRange_answers object range, Sftp.getRange_answers object earlier range, ?_, ?_⟩
  · have htakes := S3.getRange_takes s3 key range
    exact ⟨fun h => asked_of_answers hs3 htakes h.1 h.2, fun h => ⟨h.answers hs3 htakes, hno h⟩⟩
  · have htakes := B2.getRange_takes b2 key range
    exact ⟨fun h => asked_of_answers (hb2 1) htakes h.1 h.2,
      fun h => ⟨h.answers (hb2 1) htakes, hno h⟩⟩

def parseHeader (header : String) : Option (Nat × Option Nat) :=
  match readNumber (header.toList.drop 6) with
  | some (first, '-' :: rest) => some (first, (readNumber rest).map (·.1))
  | _ => none

theorem parseHeader_headerText (first : UInt64) (last : Option UInt64) :
    parseHeader (headerText first last) = some (first.toNat, last.map (·.toNat)) := by
  have hdrop : (headerText first last).toList.drop 6 =
      first.toNat.repr.toList ++ '-' :: (last.elim "" fun last => toString last.toNat).toList := by
    simp only [headerText, String.toList_append, append_assoc]
    rfl
  rw [parseHeader, hdrop, readNumber_repr _ (by simp)]
  cases last with
  | none => rfl
  | some last =>
    have hlast := @readNumber_repr last.toNat [] (by simp)
    rw [append_nil] at hlast
    simp only [Option.elim_some, Option.map_some]
    rw [show (toString last.toNat).toList = last.toNat.repr.toList from rfl, hlast]
    rfl

def serveRange (object : Bytes) (header : Option String) : Response :=
  let whole : Response := ⟨200, object, "", "", none⟩
  match header.bind parseHeader with
  | none => whole
  | some (first, last) =>
    if last.any (· < first) then whole
    else if object.length ≤ first then ⟨416, [], "InvalidRange", "", none⟩
    else ⟨206, (object.take (min (last.elim object.length (· + 1)) object.length)).drop first,
      "", "",
      none⟩

theorem serveRange_keepsRanges (object : Bytes) : KeepsRanges object (serveRange object) where
  none := ⟨rfl, rfl⟩
  invalid first last hless := by
    have hless : last.toNat < first.toNat := UInt64.lt_iff_toNat_lt.mp hless
    simp [serveRange, parseHeader_headerText, hless]
  unsatisfiable first last hle hout := by
    have hno : (last.map (·.toNat)).any (· < first.toNat) = false := by
      cases last with
      | none => rfl
      | some last => simpa [UInt64.le_iff_toNat_le] using hle
    simp [serveRange, parseHeader_headerText, hno, hout]
  satisfiable first last hle hin := by
    have hno : (last.map (·.toNat)).any (· < first.toNat) = false := by
      cases last with
      | none => rfl
      | some last => simpa [UInt64.le_iff_toNat_le] using hle
    rw [serveRange, Option.bind_some, parseHeader_headerText]
    simp only [hno, if_neg (Nat.not_le.mpr hin)]
    exact ⟨rfl, by cases last <;> rfl⟩

/-- Three bytes of ten, from all four. -/
theorem getRange_answers_three :
    Asked [0, 1, 2, 3, 4, 5, 6, 7, 8, 9] ⟨4, some 3⟩ ∧
    Answers [0, 1, 2, 3, 4, 5, 6, 7, 8, 9] ⟨4, some 3⟩
      (S3.getRange (serveRange [0, 1, 2, 3, 4, 5, 6, 7, 8, 9]) "k" ⟨4, some 3⟩) ∧
    Answers [0, 1, 2, 3, 4, 5, 6, 7, 8, 9] ⟨4, some 3⟩
      (B2.getRange (fun _ => serveRange [0, 1, 2, 3, 4, 5, 6, 7, 8, 9]) "k" ⟨4, some 3⟩) := by
  have hasked : Asked [0, 1, 2, 3, 4, 5, 6, 7, 8, 9] ⟨4, some 3⟩ := by
    refine ⟨by decide, ?_⟩
    rintro len ⟨⟩
    decide
  obtain ⟨-, -, hs3, hb2⟩ := getRange_answers_iff [0, 1, 2, 3, 4, 5, 6, 7, 8, 9] "k" [] ⟨4, some 3⟩
    (serveRange_keepsRanges _) fun _ => serveRange_keepsRanges _
  exact ⟨hasked, (hs3.mpr hasked).1, (hb2.mpr hasked).1⟩

/-- An empty range comes back as the whole object, and one at the end as an error. -/
theorem empty_range_is_whole :
    S3.getRange (serveRange [7, 8, 9]) "k" ⟨1, some 0⟩ = .ok [7, 8, 9] ∧
    B2.getRange (fun _ => serveRange [7, 8, 9]) "k" ⟨1, some 0⟩ = .ok [7, 8, 9] ∧
    LocalFs.getRange (.ok [7, 8, 9]) "k" ⟨1, some 0⟩ = .ok [] ∧
    ¬Answers [7, 8, 9] ⟨1, some 0⟩ (S3.getRange (serveRange [7, 8, 9]) "k" ⟨1, some 0⟩) := by
  have hs3 : S3.getRange (serveRange [7, 8, 9]) "k" ⟨1, some 0⟩ = .ok [7, 8, 9] := by decide
  have hb2 : B2.getRange (fun _ => serveRange [7, 8, 9]) "k" ⟨1, some 0⟩ = .ok [7, 8, 9] := by
    decide +kernel
  refine ⟨hs3, hb2, by decide, ?_⟩
  rw [hs3]
  intro h
  exact absurd (Except.ok.inj h) (by decide)

end RangeRead

end Dctl.Store
