import Mathlib.Data.List.TakeWhile
import Dctl.ProofKit.Calendar
import Dctl.ProofKit.Machine
import Dctl.ProofKit.Text

/-! The timestamp that S3 dates open uploads with (`s3/instant.rs`), read by the positions of its
bytes. -/

namespace Dctl.Store.S3.Instant

open ProofKit Calendar List

abbrev Text := List Char

/-- `error ()` is the source's `None`. -/
abbrev Attempt (α : Type) : Type := Except (Trap Unit) α

def byteAt (s : Text) (i : Nat) : Option UInt8 := (s.flatMap String.utf8EncodeChar)[i]?

def get (s : Text) (first last : Nat) : Option Text :=
  (splitBytes last s).bind fun parts => (splitBytes first parts.1).map Prod.snd

def field (value : Text) (first last : Nat) : Attempt Int :=
  okOr (.error ()) ((get value first last).bind parseI64)

def afterFraction (tail : Text) : Attempt Text :=
  match tail with
  | '.' :: rest =>
    let after := rest.dropWhile Char.isDigit
    if byteLen after = byteLen rest then .error (.error ()) else .ok after
  | tail => .ok tail

/-- The bytes that every value has at fixed positions. -/
def punctuation : List (Nat × UInt8) := [(4, 45), (7, 45), (10, 84), (13, 58), (16, 58)]

def daysFromCivil (year month day : Int) : Attempt Int := eraDaysI64 .overflow year month day

/-- Whole unix seconds for an `<Initiated>` value. -/
def parseIso8601Utc (value : Text) : Attempt Int := do
  reject (byteLen value < 19) (.error ())
  reject (punctuation.any fun mark => byteAt value mark.1 ≠ some mark.2) (.error ())
  let year ← field value 0 4
  let month ← field value 5 7
  let day ← field value 8 10
  let hour ← field value 11 13
  let minute ← field value 14 16
  let second ← field value 17 19
  let parts ← okOr (.error ()) (splitBytes 19 value)
  let tail ← afterFraction parts.2
  reject (tail ≠ ['Z']) (.error ())
  reject (month < 1 ∨ 12 < month ∨ day < 1 ∨ 31 < day) (.error ())
  reject (23 < hour ∨ 59 < minute ∨ 60 < second) (.error ())
  let days ← daysFromCivil year month day
  let seconds ← fitI64 (.error ()) (days * 86400)
  let ofHours ← fitI64 .overflow (hour * 3600)
  let seconds ← fitI64 (.error ()) (seconds + ofHours)
  let ofMinutes ← fitI64 .overflow (minute * 60)
  let seconds ← fitI64 (.error ()) (seconds + ofMinutes)
  fitI64 (.error ()) (seconds + second)

example : parseIso8601Utc "2010-11-10T20:48:33.000Z".toList = .ok 1289422113 := by decide
example : parseIso8601Utc "2010-11-10T20:48:33".toList = .error (.error ()) := by decide

variable {a b a' b' s text : Text} {first last : Nat} {v year month day hour minute second : Int}

theorem split_unique (h : a ++ b = a' ++ b') (hlen : byteLen a = byteLen a') : a = a' ∧ b = b' := by
  have hsplit := splitBytes_append a b
  rw [h, hlen, splitBytes_append, Option.some.injEq, Prod.mk.injEq] at hsplit
  exact ⟨hsplit.1.symm, hsplit.2.symm⟩

theorem get_eq_some (hle : first ≤ last) : get s first last = some text ↔
    ∃ a b, s = a ++ (text ++ b) ∧ byteLen a = first ∧ byteLen text = last - first := by
  rw [get, Option.bind_eq_some_iff]
  constructor
  · rintro ⟨⟨front, back⟩, hfront, hsnd⟩
    obtain ⟨⟨a, f⟩, ha, rfl⟩ := Option.map_eq_some_iff.mp hsnd
    obtain ⟨rfl, hlast⟩ := splitBytes_eq_some.mp hfront
    obtain ⟨hcut, hfirst⟩ := splitBytes_eq_some.mp ha
    dsimp only at hcut
    subst hcut
    rw [byteLen_append] at hlast
    refine ⟨a, back, append_assoc .., hfirst, ?_⟩
    show byteLen f = last - first
    omega
  · rintro ⟨a, b, rfl, hfirst, hlen⟩
    refine ⟨(a ++ text, b), splitBytes_eq_some.mpr ⟨(append_assoc ..).symm, ?_⟩, ?_⟩
    · rw [byteLen_append]
      omega
    · rw [splitBytes_eq_some.mpr ⟨rfl, hfirst⟩]
      rfl

theorem length_bytes (s : Text) : (s.flatMap String.utf8EncodeChar).length = byteLen s := by
  induction s with
  | nil => rfl
  | cons c s ih => rw [flatMap_cons, length_append, String.length_utf8EncodeChar, ih, byteLen_cons]

theorem eq_cons_of_byteAt {c : Char} {x : UInt8} (hx : x.toNat < 0x80) (hc : c.toNat = x.toNat)
    (h : byteAt (a ++ b) (byteLen a) = some x) : ∃ rest, b = c :: rest := by
  rw [byteAt, flatMap_append, List.getElem?_append_right (by rw [length_bytes]), length_bytes,
    Nat.sub_self] at h
  cases b with
  | nil => cases h
  | cons d rest =>
    have hpos : 0 < (String.utf8EncodeChar d).length := by
      rw [String.length_utf8EncodeChar]
      exact d.utf8Size_pos
    rw [flatMap_cons, List.getElem?_append_left hpos] at h
    have hsame := mem_utf8EncodeChar hx (mem_of_getElem? h)
    exact ⟨rest, by rw [Char.toNat_inj.mp (hc.trans hsame.symm)]⟩

/-- What stands behind the seconds of a value: the marker for UTC, with a fraction in front of it or
without. -/
def Fraction (tail : Text) : Prop :=
  tail = ['Z'] ∨ ∃ f, f ≠ [] ∧ (∀ c ∈ f, c.isDigit = true) ∧ tail = '.' :: (f ++ ['Z'])

theorem fraction_of_ok (h : afterFraction text = .ok ['Z']) : Fraction text := by
  unfold afterFraction at h
  split at h
  next rest =>
    dsimp only at h
    split at h
    · cases h
    next hdigits =>
      rw [Except.ok.injEq] at h
      refine .inr ⟨rest.takeWhile Char.isDigit, fun hnil => hdigits ?_,
        fun c hc => mem_takeWhile_imp hc, ?_⟩
      · have hsplit := takeWhile_append_dropWhile (p := Char.isDigit) (l := rest)
        rw [hnil, nil_append] at hsplit
        rw [hsplit]
      · rw [← h, takeWhile_append_dropWhile]
  next => exact .inl (Except.ok.inj h)

/-- The text is a UTC instant, and `v` its seconds. -/
structure Read (value : Text) (v : Int) : Prop where
  fields : ∃ fy fm fd fh fi fs tail year month day hour minute second,
    value = fy ++ '-' :: (fm ++ '-' :: (fd ++ 'T' :: (fh ++ ':' :: (fi ++ ':' :: (fs ++ tail))))) ∧
    parseI64 fy = some year ∧ parseI64 fm = some month ∧ parseI64 fd = some day ∧
      parseI64 fh = some hour ∧
    parseI64 fi = some minute ∧ parseI64 fs = some second ∧ Fraction tail ∧ 1 ≤ month ∧
      month ≤ 12 ∧ 1 ≤ day ∧
    day ≤ 31 ∧ hour ≤ 23 ∧ minute ≤ 59 ∧ second ≤ 60 ∧
    v = eraDays year month day * 86400 + hour * 3600 + minute * 60 + second

section

variable {lo hi : Nat} {value front back : Text} (heq : value = front ++ back)
  (hlen : byteLen front = lo) (hle : lo ≤ hi) (h : field value lo hi = .ok v)
include heq hlen hle h

theorem field_eq_ok : ∃ f rest, back = f ++ rest ∧ parseI64 f = some v ∧
      byteLen (front ++ f) = hi := by
  rw [heq, field, okOr_eq_ok, Option.bind_eq_some_iff] at h
  obtain ⟨f, hget, hparse⟩ := h
  obtain ⟨a, b, hcut, ha, hf⟩ := (get_eq_some hle).mp hget
  obtain ⟨rfl, rfl⟩ := split_unique hcut (hlen.trans ha.symm)
  refine ⟨f, b, rfl, hparse, ?_⟩
  rw [byteLen_append]
  omega

theorem field_mark {c : Char} {x : UInt8} (hbyte : byteAt value hi = some x) (hx : x.toNat < 0x80)
    (hc : c.toNat = x.toNat) (hsize : c.utf8Size = 1) : ∃ f rest, back = f ++ c :: rest ∧
      parseI64 f = some v ∧ value = (front ++ f ++ [c]) ++ rest ∧
        byteLen (front ++ f ++ [c]) = hi + 1 := by
  obtain ⟨f, rest, rfl, hparse, hf⟩ := field_eq_ok heq hlen hle h
  rw [heq, ← append_assoc, ← hf] at hbyte
  obtain ⟨rest, rfl⟩ := eq_cons_of_byteAt hx hc hbyte
  refine ⟨f, rest, rfl, hparse, by rw [heq]; simp, ?_⟩
  rw [byteLen_append, hf, byteLen_cons, byteLen_nil, hsize]

end

theorem read_of_parse {value : Text} (h : parseIso8601Utc value = .ok v) : Read value v := by
  unfold parseIso8601Utc at h
  simp only [bind_eq_ok, reject_eq_ok, okOr_eq_ok] at h
  obtain ⟨_, -, _, hmarks, year, hy, month, hm, day, hd, hour, hh, minute, hi, second, hs,
    ⟨front, tail⟩, hsplit, after, hafter, _, hZ, _, hdate, _, htime, days, hdays, s1, h1, s2, h2,
    s3, h3, s4, h4, s5, h5, h6⟩ := h
  have hmark : ∀ mark ∈ punctuation, byteAt value mark.1 = some mark.2 := by
    intro mark hmark
    by_contra hne
    exact hmarks (any_eq_true.mpr ⟨mark, hmark, decide_eq_true hne⟩)
  obtain ⟨fy, r1, hr1, hfy, heq1, hlen1⟩ :=
    field_mark (c := '-') (x := 45) (nil_append value).symm rfl
    (by decide) hy (hmark (4, 45) (by decide)) (by decide) (by decide) (by decide)
  obtain ⟨fm, r2, rfl, hfm, heq2, hlen2⟩ :=
    field_mark (c := '-') (x := 45) heq1 hlen1 (by decide) hm
    (hmark (7, 45) (by decide)) (by decide) (by decide) (by decide)
  obtain ⟨fd, r3, rfl, hfd, heq3, hlen3⟩ :=
    field_mark (c := 'T') (x := 84) heq2 hlen2 (by decide) hd
    (hmark (10, 84) (by decide)) (by decide) (by decide) (by decide)
  obtain ⟨fh, r4, rfl, hfh, heq4, hlen4⟩ :=
    field_mark (c := ':') (x := 58) heq3 hlen3 (by decide) hh
    (hmark (13, 58) (by decide)) (by decide) (by decide) (by decide)
  obtain ⟨fi, r5, rfl, hfi, heq5, hlen5⟩ :=
    field_mark (c := ':') (x := 58) heq4 hlen4 (by decide) hi
    (hmark (16, 58) (by decide)) (by decide) (by decide) (by decide)
  obtain ⟨fs, rest, rfl, hfs, hlen6⟩ := field_eq_ok heq5 hlen5 (by decide) hs
  -- What is read as the tail begins behind the seconds.
  obtain ⟨hcut, hnineteen⟩ := splitBytes_eq_some.mp hsplit
  rw [heq5, ← append_assoc] at hcut
  obtain ⟨-, rfl⟩ := split_unique hcut (hlen6.trans hnineteen.symm)
  have hZ : after = ['Z'] := by simpa using hZ
  rw [hZ] at hafter
  refine ⟨fy, fm, fd, fh, fi, fs, rest, year, month, day, hour, minute, second, hr1, hfy, hfm, hfd,
    hfh, hfi, hfs, fraction_of_ok hafter, by omega, by omega, by omega, by omega, by omega, by
    omega, by omega, ?_⟩
  rw [eq_of_fitI64 h6, eq_of_fitI64 h5, eq_of_fitI64 h4, eq_of_fitI64 h3, eq_of_fitI64 h2,
    eq_of_fitI64 h1, eq_eraDays_of_ok (by omega) hdays]

end Dctl.Store.S3.Instant
