import Dctl.Cli.Error
import Dctl.ProofKit.Calendar
import Dctl.Store.SftpPath

/-! Point-in-time arguments (`recovery/timespec.rs`), with the two ways in which parsing can panic:
a result that does not fit its type, and a slice that does not begin and end between two characters.
The parser panics exactly on zones of four bytes that cannot be cut in the middle. -/

namespace Dctl.Recovery.Timespec

open ProofKit Calendar List
open Cli (CliError)
open Store.Sftp (Text trim)

inductive Panic where
  | overflow
  | boundary
  deriving DecidableEq, Repr

/-- Why there is no value: the source's own error, or a panic. -/
inductive Stop (ε : Type) where
  | error (e : ε)
  | panic (p : Panic)
  deriving DecidableEq, Repr

/-- A function that answers with an `Option`: `error ()` is its `None`. -/
abbrev Attempt (α : Type) : Type := Except (Stop Unit) α

def absent {α : Type} : Attempt α := .error (.error ())

/-- An unchecked operation on signed numbers of 64 bits. -/
def i64 (v : Int) : Attempt Int := fitI64 (.panic .overflow) v

def checked (v : Int) : Attempt Int := fitI64 (.error ()) v

def slice (s : Text) (i : Nat) : Attempt (Text × Text) := okOr (.panic .boundary) (splitBytes i s)

def isLeapYear (year : Int) : Bool := year.tmod 4 = 0 ∧ year.tmod 100 ≠ 0 ∨ year.tmod 400 = 0

def daysInMonth (year : Int) (month : Nat) : Nat :=
  if month = 0 then 0
  else match ([31, 28, 31, 30, 31, 30, 31, 31, 30, 31, 30, 31] : List Nat)[month - 1]? with
    | some days => if month = 2 ∧ isLeapYear year then days + 1 else days
    | none => 0

def daysFromCivil (year month day : Int) : Attempt Int :=
  eraDaysI64 (.panic .overflow) year month day

def digits (field : Text) : Attempt Nat := okOr (.error ()) (digitsBelow (2 ^ 63) field)

def relativeSuffixes : List (Char × Int) :=
  [('s', 1), ('m', 60), ('h', 3600), ('d', 86400), ('w', 604800)]

def parseRelative (input : Text) : Attempt Int := do
  let unit ← okOr (.error ()) input.getLast?
  let suffix ← okOr (.error ()) (relativeSuffixes.find? fun suffix => suffix.1 = unit)
  let parts ← slice input (byteLen input - unit.utf8Size)
  let count ← okOr (.error ()) (parseI64 parts.1)
  if count < 0 then absent else checked (count * suffix.2)

def parseDate (date : Text) : Attempt (Nat × Nat × Nat) :=
  match date.splitOn '-' with
  | [year, month, day] => do
    let year ← digits year
    let month ← digits month
    let day ← digits day
    if year < 1970 ∨ 9999 < year ∨ month < 1 ∨ 12 < month then absent
    else if day < 1 ∨ daysInMonth year month < day then absent
    else return (year, month, day)
  | _ => absent

def isOffsetSign (c : Char) : Bool := c ∈ ['+', '-']

/-- The offset that the digits of a zone spell: `+02:00`, `+0200` and `+02` are all in the wild. -/
def zoneFields (digitsOnly : Text) : Attempt (Nat × Nat) :=
  if byteLen digitsOnly = 2 then do
    let hours ← digits digitsOnly
    return (hours, 0)
  else if byteLen digitsOnly = 4 then do
    let parts ← slice digitsOnly 2
    let hours ← digits parts.1
    let minutes ← digits parts.2
    return (hours, minutes)
  else absent

def splitZone (clock : Text) : Attempt (Text × Int) :=
  if clock.getLast? = some 'Z' ∨ clock.getLast? = some 'z' then .ok (clock.dropLast, 0)
  else match rfindByte isOffsetSign clock with
    | none => .ok (clock, 0)
    | some index => do
      let (head, zone) ← slice clock index
      let sign : Int := if zone.head? = some '-' then -1 else 1
      let rest ← slice zone 1
      let (hours, minutes) ← zoneFields (rest.2.filter (· ≠ ':'))
      if 23 < hours ∨ 59 < minutes then absent
      else
        let seconds ← i64 ((hours : Int) * 3600)
        let ofMinutes ← i64 ((minutes : Int) * 60)
        let seconds ← i64 (seconds + ofMinutes)
        let offset ← i64 (sign * seconds)
        return (head, offset)

def secondsOf (hour minute second : Nat) : Attempt Int :=
  if 23 < hour ∨ 59 < minute ∨ 60 < second then absent
  else do
    let ofHours ← i64 ((hour : Int) * 3600)
    let ofMinutes ← i64 ((minute : Int) * 60)
    let seconds ← i64 (ofHours + ofMinutes)
    i64 (seconds + second)

def clockFields (clock : Text) : Attempt Int :=
  match clock.splitOn ':' with
  | [hour, minute] => do
    let hour ← digits hour
    let minute ← digits minute
    secondsOf hour minute 0
  | [hour, minute, second] => do
    let hour ← digits hour
    let minute ← digits minute
    let second ← digits (second.takeWhile (· ≠ '.'))
    secondsOf hour minute second
  | _ => absent

/-- Parse `HH:MM[:SS][.frac][Z|±HH:MM]` into the seconds into the day and the offset. -/
def parseClock (clock : Text) : Attempt (Int × Int) := do
  let (clock, offset) ← splitZone clock
  let seconds ← clockFields clock
  return (seconds, offset)

def isDateTimeSeparator (c : Char) : Bool := c ∈ ['T', 't', ' ']

def instantOf (date : Nat × Nat × Nat) (secondsOfDay offset : Int) : Attempt Int := do
  let days ← daysFromCivil date.1 date.2.1 date.2.2
  let seconds ← checked (days * 86400)
  let seconds ← checked (seconds + secondsOfDay)
  checked (seconds - offset)

/-- Parse a calendar spelling: `YYYY-MM-DD`, optionally followed by a time of day and a zone. -/
def parseCalendar (input : Text) : Attempt Int :=
  match findByte isDateTimeSeparator input with
  | some index => do
    let front ← slice input index
    let back ← slice input (index + 1)
    let date ← parseDate front.1
    let (seconds, offset) ← parseClock back.2
    instantOf date seconds offset
  | none => do
    let date ← parseDate input
    instantOf date 0 0

def unparseable (input : Text) : CliError :=
  (CliError.ofUsage ("'" ++ String.ofList input ++ "' is not a time")).withHint
    "Accepted spellings: 2026-07-26, 2026-07-26T14:30:00Z, 2d, @1753574400, or now. Times are UTC."

def tooFarBack (input : Text) : CliError :=
  (CliError.ofUsage ("'" ++ String.ofList input ++ "' is further back than time goes")).withHint
    "Name an absolute instant instead, for example 1970-01-01."

def parse (input : Text) (reference : Int) : Except (Stop CliError) Int :=
  let trimmed := trim input
  if trimmed = [] then .error (.error (unparseable input))
  else if trimmed.map Char.toLower = ['n', 'o', 'w'] then .ok reference
  else match trimmed with
    | '@' :: rest => okOr (.error (unparseable input)) (parseI64 (trim rest))
    | trimmed =>
      match parseRelative trimmed with
      | .ok seconds =>
        if FitsI64 (reference - seconds) then .ok (reference - seconds)
        else .error (.error (tooFarBack input))
      | .error (.panic p) => .error (.panic p)
      | .error (.error ()) =>
        (parseCalendar trimmed).mapError fun
          | .error () => .error (unparseable input)
          | .panic p => .panic p

open Store.Sftp (Text trim isWhitespace)

variable {ε α β : Type} {input text clock zone : Text} {year month day hour minute second n : Nat}

/-- The computation does not panic. -/
def Calm (x : Except (Stop ε) α) : Prop := ∀ p, x ≠ .error (.panic p)

theorem calm_ok (a : α) : Calm (.ok a : Except (Stop ε) α) := fun p h => by cases h

theorem calm_error (e : ε) : Calm (.error (.error e) : Except (Stop ε) α) := fun p h => by cases h

theorem Calm.bind {x : Except (Stop ε) α} {f : α → Except (Stop ε) β} (h : Calm x)
    (hf : ∀ a, x = .ok a → Calm (f a)) : Calm (x >>= f) := by
  cases x with
  | ok a => exact hf a rfl
  | error stop =>
    cases stop with
    | error e => exact calm_error e
    | panic p => exact absurd rfl (h p)

theorem calm_okOr (e : ε) (o : Option α) : Calm (okOr (.error e) o : Except (Stop ε) α) := by
  cases o with
  | none => exact calm_error e
  | some a => exact calm_ok a

theorem calm_checked (v : Int) : Calm (checked v) := by
  unfold checked fitI64
  split
  · exact calm_ok v
  · exact calm_error ()

theorem i64_of_fits {v : Int} (hlo : -2 ^ 62 ≤ v) (hhi : v < 2 ^ 62) : i64 v = .ok v :=
  fitI64_of_fits ⟨by omega, by omega⟩

theorem slice_append (a b : Text) : slice (a ++ b) (byteLen a) = .ok (a, b) := by
  rw [slice, splitBytes_append]
  rfl

theorem digits_eq_ok : digits text = .ok n ↔ Spells text n ∧ n < 2 ^ 63 := by
  rw [digits, okOr_eq_ok, digitsBelow_eq_some]

theorem calm_digits (text : Text) : Calm (digits text) := calm_okOr () _

theorem isLeapYear_eq (year : Int) : isLeapYear year = isLeap year := by
  unfold isLeapYear isLeap
  refine decide_eq_decide.mpr ?_
  rw [← Int.dvd_iff_tmod_eq_zero, Ne, ← Int.dvd_iff_tmod_eq_zero, ← Int.dvd_iff_tmod_eq_zero]
  omega

theorem daysInMonth_eq {year : Int} (hpos : 1 ≤ month) (hle : month ≤ 12) :
    daysInMonth year month = monthLength (isLeap year) month := by
  unfold daysInMonth
  rw [isLeapYear_eq]
  cases isLeap year <;> interval_cases month <;> rfl

theorem parseDate_eq_ok :
    parseDate text = .ok (year, month, day) ↔ SpellsDate text year month day ∧ 1970 ≤ year ∧
    year ≤ 9999 ∧ ∃ d : Date, d.year = year ∧ d.month = month ∧ d.day = day := by
  unfold parseDate
  constructor
  · intro h
    split at h
    next fy fm fd hsplit =>
      simp only [bind_eq_ok, digits_eq_ok] at h
      obtain ⟨y, ⟨hy, -⟩, m, ⟨hm, -⟩, d, ⟨hd, -⟩, h⟩ := h
      split at h
      · cases h
      next hrange =>
        split at h
        · cases h
        next hday =>
          rw [pure_eq_ok, Prod.mk.injEq, Prod.mk.injEq] at h
          obtain ⟨rfl, rfl, rfl⟩ := h
          rw [daysInMonth_eq (by omega) (by omega)] at hday
          refine ⟨⟨fy, fm, fd, (splitOn_eq_three.mp hsplit).1, hy, hm, hd⟩, by omega, by omega,
            ⟨y, m, d, by omega, by omega, by omega, by omega⟩, rfl, rfl, rfl⟩
    next => cases h
  · rintro ⟨hdate, hlo, hhi, d, hyear, rfl, rfl⟩
    obtain ⟨fy, fm, fd, hsplit, hy, hm, hd⟩ := hdate.splitOn
    have hmonth := d.month_pos
    have hmonth' := d.month_le
    have hday := d.day_pos
    have hday' := d.day_le
    have hmax := @monthLength_le d.month (isLeap d.year)
    rw [hsplit]
    dsimp only
    rw [digits_eq_ok.mpr ⟨hy, by omega⟩, ok_bind, digits_eq_ok.mpr ⟨hm, by omega⟩, ok_bind,
      digits_eq_ok.mpr ⟨hd, by omega⟩, ok_bind, if_neg (by omega), daysInMonth_eq hmonth hmonth',
      ← hyear, if_neg (by omega)]
    rfl

theorem calm_parseDate (text : Text) : Calm (parseDate text) := by
  unfold parseDate
  split
  · refine (calm_digits _).bind fun y _ => (calm_digits _).bind fun m _ =>
      (calm_digits _).bind fun d _ => ?_
    split
    · exact calm_error ()
    · split
      · exact calm_error ()
      · exact calm_ok _
  · exact calm_error ()

def ofClock (hour minute second : Nat) : Int := hour * 3600 + minute * 60 + second

theorem secondsOf_eq (hour minute second : Nat) : secondsOf hour minute second =
    if 23 < hour ∨ 59 < minute ∨ 60 < second then absent else .ok (ofClock hour minute second) := by
  unfold secondsOf ofClock
  split
  · rfl
  next hrange =>
    rw [i64_of_fits (by omega) (by omega), ok_bind, i64_of_fits (by omega) (by omega), ok_bind,
      i64_of_fits (by omega) (by omega), ok_bind, i64_of_fits (by omega) (by omega)]

theorem calm_secondsOf (hour minute second : Nat) : Calm (secondsOf hour minute second) := by
  rw [secondsOf_eq]
  split
  · exact calm_error ()
  · exact calm_ok _

theorem calm_clockFields (text : Text) : Calm (clockFields text) := by
  unfold clockFields
  split
  · exact (calm_digits _).bind fun h _ => (calm_digits _).bind fun m _ => calm_secondsOf h m 0
  · exact (calm_digits _).bind fun h _ => (calm_digits _).bind fun m _ =>
      (calm_digits _).bind fun s _ =>
      calm_secondsOf h m s
  · exact calm_error ()

theorem calm_instantOf {date : Nat × Nat × Nat} {seconds offset : Int}
    (h : parseDate text = .ok date) : Calm (instantOf date seconds offset) := by
  obtain ⟨year, month, day⟩ := date
  obtain ⟨-, hlo, hhi, d, hyear, rfl, rfl⟩ := parseDate_eq_ok.mp h
  have hmonth := d.month_pos
  have hmonth' := d.month_le
  have hday := d.day_le.trans monthLength_le
  unfold instantOf daysFromCivil
  dsimp only
  rw [eraDaysI64_eq (by omega) (by omega) (by omega), ok_bind]
  exact (calm_checked _).bind fun _ _ => (calm_checked _).bind fun _ _ => calm_checked _

/-- Behind the last sign of a clock that does not end in a marker for UTC stand, colons apart, four
bytes that no character boundary divides in the middle. -/
def TornZone (clock : Text) : Prop :=
  ∃ head sign zone, clock = head ++ sign :: zone ∧ isOffsetSign sign = true ∧
    (∀ c ∈ zone, isOffsetSign c = false) ∧
    clock.getLast? ≠ some 'Z' ∧ clock.getLast? ≠ some 'z' ∧ byteLen (zone.filter (· ≠ ':')) = 4 ∧
      ¬∃ a b, zone.filter (· ≠ ':') = a ++ b ∧ byteLen a = 2

theorem utf8Size_sign {sign : Char} (h : isOffsetSign sign = true) : sign.utf8Size = 1 := by
  have hcases : sign = '+' ∨ sign = '-' := by simpa [isOffsetSign] using h
  rcases hcases with rfl | rfl <;> decide

theorem splitBytes_eq_none {i : Nat} :
    splitBytes i text = none ↔ ¬∃ a b, text = a ++ b ∧ byteLen a = i := by
  rw [Option.eq_none_iff_forall_ne_some]
  constructor
  · rintro h ⟨a, b, heq, hlen⟩
    exact h (a, b) (splitBytes_eq_some.mpr ⟨heq, hlen⟩)
  · rintro h ⟨a, b⟩ hsome
    exact h ⟨a, b, splitBytes_eq_some.mp hsome⟩

theorem zoneFields_calm_iff :
    Calm (zoneFields text) ↔ ¬(byteLen text = 4 ∧ ¬∃ a b, text = a ++ b ∧ byteLen a = 2) := by
  unfold zoneFields
  split
  next htwo =>
    exact iff_of_true ((calm_digits text).bind fun h _ => calm_ok (h, 0)) fun hfour => by omega
  · split
    next hfour =>
      rw [slice]
      cases hsplit : splitBytes 2 text with
      | none =>
        refine iff_of_false (fun h => h .boundary rfl) fun h =>
          h ⟨hfour, splitBytes_eq_none.mp hsplit⟩
      | some parts =>
        refine iff_of_true ?_ fun h => ?_
        · exact (calm_ok parts).bind fun _ _ => (calm_digits _).bind fun h _ =>
            (calm_digits _).bind fun m _ =>
            calm_ok (h, m)
        · rw [splitBytes_eq_none.mpr h.2] at hsplit
          cases hsplit
    next hother => exact iff_of_true (calm_error ()) fun h => hother h.1

theorem splitZone_of_sign {head : Text} {sign : Char} (hsign : isOffsetSign sign = true)
    (hzone : ∀ c ∈ zone, isOffsetSign c = false) (hZ : (head ++ sign :: zone).getLast? ≠ some 'Z')
    (hz : (head ++ sign :: zone).getLast? ≠ some 'z') : splitZone (head ++ sign :: zone) = (do
      let (hours, minutes) ← zoneFields (zone.filter (· ≠ ':'))
      if 23 < hours ∨ 59 < minutes then absent
      else .ok (head,
        (if sign = '-' then -1 else 1) * ((hours : Int) * 3600 + (minutes : Int) * 60))) := by
  have hfind : rfindByte isOffsetSign (head ++ sign :: zone) = some (byteLen head) :=
    rfindByte_eq_some.mpr ⟨head, sign, zone, rfl, hzone, hsign, rfl⟩
  have hone : slice (sign :: zone) 1 = .ok ([sign], zone) := by
    have hslice := slice_append [sign] zone
    rwa [byteLen_cons, utf8Size_sign hsign, byteLen_nil] at hslice
  unfold splitZone
  rw [if_neg (by rw [not_or]; exact ⟨hZ, hz⟩), hfind]
  dsimp only
  rw [slice_append, ok_bind]
  dsimp only
  rw [hone, ok_bind]
  refine congrArg _ (funext fun fields => ?_)
  obtain ⟨hours, minutes⟩ := fields
  dsimp only
  split
  · rfl
  next hrange =>
    rw [i64_of_fits (by omega) (by omega), ok_bind, i64_of_fits (by omega) (by omega), ok_bind,
      i64_of_fits (by omega) (by omega), ok_bind, List.head?_cons]
    simp only [Option.some.injEq]
    split
    · rw [i64_of_fits (by omega) (by omega)]
      rfl
    · rw [i64_of_fits (by omega) (by omega)]
      rfl

theorem splitZone_calm_iff : Calm (splitZone clock) ↔ ¬TornZone clock := by
  by_cases hutc : clock.getLast? = some 'Z' ∨ clock.getLast? = some 'z'
  · refine iff_of_true ?_ ?_
    · unfold splitZone
      rw [if_pos hutc]
      exact calm_ok _
    · rintro ⟨-, -, -, -, -, -, hZ, hz, -⟩
      exact hutc.elim hZ hz
  · obtain ⟨hZ, hz⟩ := not_or.mp hutc
    cases hfind : rfindByte isOffsetSign clock with
    | none =>
      refine iff_of_true ?_ ?_
      · unfold splitZone
        rw [if_neg hutc, hfind]
        exact calm_ok _
      · rintro ⟨head, sign, zone, rfl, hsign, -⟩
        rw [rfindByte_eq_none.mp hfind sign (by simp)] at hsign
        cases hsign
    | some i =>
      obtain ⟨head, sign, zone, rfl, hzone, hsign, -⟩ := rfindByte_eq_some.mp hfind
      rw [splitZone_of_sign hsign hzone hZ hz]
      have hfields : Calm (zoneFields (zone.filter (· ≠ ':')) >>= fun fields =>
          if 23 < fields.1 ∨ 59 < fields.2 then absent
          else .ok (head,
            (if sign = '-' then -1 else 1) * ((fields.1 : Int) * 3600 + (fields.2 : Int) * 60))) ↔
          Calm (zoneFields (zone.filter (· ≠ ':'))) := by
        constructor
        · intro h p hp
          refine h p ?_
          rw [hp]
          rfl
        · intro h
          refine h.bind fun fields _ => ?_
          split
          · exact calm_error ()
          · exact calm_ok _
      refine hfields.trans (zoneFields_calm_iff.trans (not_congr ?_))
      constructor
      · rintro ⟨hfour, hmid⟩
        exact ⟨head, sign, zone, rfl, hsign, hzone, hZ, hz, hfour, hmid⟩
      · rintro ⟨head', sign', zone', heq, hsign', hzone', -, -, hfour, hmid⟩
        -- The last sign of the clock is in one place.
        have hsame := rfindByte_eq_some.mpr ⟨head', sign', zone', heq, hzone', hsign', rfl⟩
        have hsame' := rfindByte_eq_some.mpr ⟨head, sign, zone, rfl, hzone, hsign, rfl⟩
        rw [hsame', Option.some.injEq] at hsame
        have hcut := splitBytes_append head (sign :: zone)
        rw [heq, hsame, splitBytes_append, Option.some.injEq, Prod.mk.injEq] at hcut
        obtain ⟨-, rfl⟩ := List.cons.inj hcut.2
        exact ⟨hfour, hmid⟩

theorem parseRelative_concat (front : Text) (unit : Char) : parseRelative (front ++ [unit]) = (do
    let suffix ← okOr (.error ()) (relativeSuffixes.find? fun suffix => suffix.1 = unit)
    let count ← okOr (.error ()) (parseI64 front)
    if count < 0 then absent else checked (count * suffix.2)) := by
  have hlen : byteLen (front ++ [unit]) - unit.utf8Size = byteLen front := by
    rw [byteLen_append, byteLen_cons, byteLen_nil]
    omega
  unfold parseRelative
  rw [List.getLast?_concat, okOr, ok_bind, hlen, slice_append]
  rfl

theorem calm_parseRelative (text : Text) : Calm (parseRelative text) := by
  rcases eq_nil_or_concat text with rfl | ⟨front, unit, rfl⟩
  · exact calm_error ()
  · rw [concat_eq_append, parseRelative_concat]
    refine (calm_okOr () _).bind fun suffix _ => (calm_okOr () _).bind fun count _ => ?_
    split
    · exact calm_error ()
    · exact calm_checked _

/-- The text names a day from 1970 to 9999. -/
def NamesDay (text : Text) : Prop :=
  ∃ (d : Date) (year : Nat), SpellsDate text year d.month d.day ∧ d.year = year ∧
  1970 ≤ year ∧ year ≤ 9999

/-- A date, and behind it a clock whose zone cannot be cut. -/
def Torn (input : Text) : Prop :=
  ∃ date sep clock, trim input = date ++ sep :: clock ∧ NamesDay date ∧
    isDateTimeSeparator sep = true ∧ TornZone clock

theorem namesDay_iff : NamesDay text ↔ ∃ date, parseDate text = .ok date := by
  constructor
  · rintro ⟨d, year, hspells, hyear, hlo, hhi⟩
    exact ⟨_, parseDate_eq_ok.mpr ⟨hspells, hlo, hhi, d, hyear, rfl, rfl⟩⟩
  · rintro ⟨⟨year, month, day⟩, h⟩
    obtain ⟨hspells, hlo, hhi, d, hyear, rfl, rfl⟩ := parseDate_eq_ok.mp h
    exact ⟨d, year, hspells, hyear, hlo, hhi⟩

theorem not_separator {c : Char} (h : c.isDigit = true ∨ c = '-') :
    isDateTimeSeparator c = false := by
  by_contra hsep
  rw [Bool.not_eq_false] at hsep
  have hcases : c = 'T' ∨ c = 't' ∨ c = ' ' := by simpa [isDateTimeSeparator] using hsep
  rcases hcases with rfl | rfl | rfl <;> rcases h with h | h <;> cases h

theorem NamesDay.chars (h : NamesDay text) :
    ∃ c rest, text = c :: rest ∧ c.isDigit = true ∧ '-' ∈ rest ∧
    ∀ x ∈ text, isDateTimeSeparator x = false := by
  obtain ⟨d, year, hspells, -⟩ := h
  obtain ⟨⟨c, rest, heq, hc, hminus⟩, hplain⟩ := hspells.exists_cons
  exact ⟨c, rest, heq, hc, hminus, fun x hx => not_separator (hplain x hx)⟩

theorem utf8Size_separator {sep : Char} (h : isDateTimeSeparator sep = true) :
    sep.utf8Size = 1 := by
  have hcases : sep = 'T' ∨ sep = 't' ∨ sep = ' ' := by simpa [isDateTimeSeparator] using h
  rcases hcases with rfl | rfl | rfl <;> decide

theorem parseCalendar_of_separator {date clock : Text} {sep : Char}
    (hsep : isDateTimeSeparator sep = true) (hnone : ∀ c ∈ date, isDateTimeSeparator c = false) :
    parseCalendar (date ++ sep :: clock) = (do
      let day ← parseDate date
      let (seconds, offset) ← parseClock clock
      instantOf day seconds offset) := by
  have hfind : findByte isDateTimeSeparator (date ++ sep :: clock) = some (byteLen date) :=
    findByte_eq_some.mpr ⟨date, sep, clock, rfl, hnone, hsep, rfl⟩
  have hback : slice (date ++ sep :: clock) (byteLen date + 1) = .ok (date ++ [sep], clock) := by
    have hslice := slice_append (date ++ [sep]) clock
    rwa [byteLen_append, byteLen_cons, utf8Size_separator hsep, byteLen_nil, append_assoc,
      singleton_append] at hslice
  unfold parseCalendar
  rw [hfind]
  dsimp only
  rw [slice_append, ok_bind, hback, ok_bind]

theorem parseCalendar_of_none (h : ∀ c ∈ text, isDateTimeSeparator c = false) :
    parseCalendar text = (do
    let day ← parseDate text
    instantOf day 0 0) := by
  unfold parseCalendar
  rw [findByte_eq_none.mpr h]

theorem calm_parseClock (h : Calm (splitZone text)) : Calm (parseClock text) := by
  unfold parseClock
  refine h.bind fun parts _ => ?_
  exact (calm_clockFields _).bind fun seconds _ => calm_ok _

theorem parseCalendar_calm_iff : Calm (parseCalendar text) ↔
    ¬∃ date sep clock, text = date ++ sep :: clock ∧ NamesDay date ∧
      isDateTimeSeparator sep = true ∧ TornZone clock := by
  cases hfind : findByte isDateTimeSeparator text with
  | none =>
    have hnone := findByte_eq_none.mp hfind
    rw [parseCalendar_of_none hnone]
    refine iff_of_true ((calm_parseDate _).bind fun date hdate => calm_instantOf hdate) ?_
    rintro ⟨date, sep, clock, rfl, -, hsep, -⟩
    rw [hnone sep (by simp)] at hsep
    cases hsep
  | some i =>
    obtain ⟨date, sep, clock, rfl, hnone, hsep, -⟩ := findByte_eq_some.mp hfind
    rw [parseCalendar_of_separator hsep hnone]
    have honly :
        (∃ date' sep' clock', date ++ sep :: clock = date' ++ sep' :: clock' ∧ NamesDay date' ∧
        isDateTimeSeparator sep' = true ∧ TornZone clock') ↔ NamesDay date ∧ TornZone clock := by
      constructor
      · rintro ⟨date', sep', clock', heq, hday, hsep', htorn⟩
        obtain ⟨-, -, -, -, -, hplain⟩ := hday.chars
        obtain ⟨rfl, rfl, rfl⟩ := append_cons_inj hplain hnone hsep' hsep heq.symm
        exact ⟨hday, htorn⟩
      · rintro ⟨hday, htorn⟩
        exact ⟨date, sep, clock, rfl, hday, hsep, htorn⟩
    rw [honly, not_and]
    constructor
    · intro h hday
      obtain ⟨day, hparse⟩ := namesDay_iff.mp hday
      rw [hparse, ok_bind] at h
      rw [← splitZone_calm_iff]
      intro p hp
      refine h p ?_
      unfold parseClock
      rw [hp]
      rfl
    · intro h
      refine (calm_parseDate _).bind fun day hparse => ?_
      have hzone : Calm (splitZone clock) :=
        splitZone_calm_iff.mpr (h (namesDay_iff.mpr ⟨day, hparse⟩))
      exact (calm_parseClock hzone).bind fun parts _ => calm_instantOf hparse

section

variable {c : Char} {rest : Text} (hc : c.isDigit = true) (hminus : '-' ∈ rest)
include hc hminus

theorem parseI64_of_digit : parseI64 (c :: rest) = none := by
  rw [Option.eq_none_iff_forall_ne_some]
  intro v hv
  obtain ⟨n, hspells, -⟩ := parseI64_eq_some.mp hv
  have hsign : takeSign (c :: rest) = (false, c :: rest) := by
    rcases takeSign_cases (c :: rest) with ⟨heq, -⟩ | ⟨heq, -⟩ | heq
    · obtain ⟨rfl, -⟩ := List.cons.inj heq
      cases hc
    · obtain ⟨rfl, -⟩ := List.cons.inj heq
      cases hc
    · exact heq
  rw [hsign] at hspells
  exact hspells.not_mem (by decide) (mem_cons_of_mem c hminus)

theorem parseRelative_of_digit {x : Char} : parseRelative (c :: (rest ++ [x])) = absent := by
  rw [← cons_append, parseRelative_concat, parseI64_of_digit hc hminus]
  cases relativeSuffixes.find? fun suffix => decide (suffix.1 = x) <;> rfl

end

theorem parse_eq_calendar {c : Char} {rest : Text} (htrim : trim input = c :: rest)
    (hc : c.isDigit = true) (hrelative : parseRelative (trim input) = absent) (reference : Int) :
    parse input reference = (parseCalendar (trim input)).mapError fun
      | .error () => .error (unparseable input)
      | .panic p => .panic p := by
  have hlower : ¬(trim input).map Char.toLower = ['n', 'o', 'w'] := by
    rw [htrim, map_cons]
    intro heq
    have hhead := (List.cons.inj heq).1
    have hsmall : ¬(c.val ≥ 'A'.val ∧ c.val ≤ 'Z'.val) := by
      rw [Char.isDigit, Bool.and_eq_true, decide_eq_true_eq, decide_eq_true_eq] at hc
      exact fun hlarge => absurd (UInt32.le_trans hlarge.1 hc.2) (by decide)
    have hsame : c.toLower = c := dif_neg hsmall
    rw [hsame] at hhead
    rw [hhead] at hc
    cases hc
  unfold parse
  dsimp only
  rw [if_neg (by rw [htrim]; exact cons_ne_nil _ _), if_neg hlower]
  split
  next more heq =>
    rw [htrim] at heq
    rw [(List.cons.inj heq).1] at hc
    cases hc
  next => rw [hrelative]; rfl

theorem calm_mapError {x : Attempt α} (e : ε) : Calm (x.mapError fun
    | .error () => .error e
    | .panic p => .panic p : Except (Stop ε) α) ↔ Calm x := by
  cases x with
  | ok a => exact iff_of_true (calm_ok a) (calm_ok a)
  | error stop =>
    cases stop with
    | error u => exact iff_of_true (calm_error e) (calm_error u)
    | panic p => exact iff_of_false (fun h => h p rfl) fun h => h p rfl

theorem Torn.calendar (h : Torn input) (reference : Int) : parse input reference =
    (parseCalendar (trim input)).mapError fun
      | .error () => .error (unparseable input)
      | .panic p => .panic p := by
  obtain ⟨date, sep, clock, htrim, hday, -, head, sign, zone, rfl, -⟩ := h
  obtain ⟨c, rest, rfl, hc, hminus, -⟩ := hday.chars
  obtain ⟨back, x, hback⟩ := eq_nil_or_concat (head ++ sign :: zone) |>.resolve_left (by simp)
  rw [concat_eq_append] at hback
  have hbegin : trim input = c :: ((rest ++ sep :: back) ++ [x]) := by
    rw [htrim, hback]
    simp
  refine parse_eq_calendar hbegin hc ?_ reference
  rw [hbegin]
  exact parseRelative_of_digit hc (mem_append_left _ hminus)

/-- No text makes the parser panic but those with a torn zone, and these do. -/
theorem parse_calm_iff (input : Text) (reference : Int) :
    (∀ p, parse input reference ≠ .error (.panic p)) ↔
    ¬Torn input := by
  constructor
  · intro h htorn
    have hcalm : Calm (parse input reference) := h
    rw [htorn.calendar, calm_mapError, parseCalendar_calm_iff] at hcalm
    exact hcalm htorn
  · intro htorn
    have hcalendar : Calm (parseCalendar (trim input)) := parseCalendar_calm_iff.mpr htorn
    show Calm (parse input reference)
    unfold parse
    dsimp only
    split
    · exact calm_error _
    · split
      · exact calm_ok _
      · split
        · exact calm_okOr _ _
        · split
          · split
            · exact calm_ok _
            · exact calm_error _
          next p hpanic => exact absurd hpanic (calm_parseRelative _ p)
          · exact (calm_mapError _).mpr hcalendar

/-- A zone of a sign, a digit and a character of three bytes. -/
def tornInput : Text := "2026-07-26T00:00:00+0€".toList

/-- The zone is cut by bytes, inside its last character. -/
theorem parse_tornInput : parse tornInput 0 = .error (.panic .boundary) := by
  decide

end Dctl.Recovery.Timespec
