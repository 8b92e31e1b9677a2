import Mathlib.Data.List.DropRight
import Dctl.ProofKit.Calendar
import Dctl.ProofKit.Machine
import Dctl.Store.SftpPath

/-! Reading and writing the timestamps that `touch` accepts (`touch/timestamp.rs`).  Texts are
sequences of characters; an operation on 64-bit numbers whose result does not fit traps. -/

namespace Dctl.Cli.Touch

open ProofKit Calendar List
open Store.Sftp (Text trim)

@[ext] structure Timestamp where
  seconds : Int
  fits : FitsI64 seconds
  deriving DecidableEq

def examples : String := "2024-05-01T12:00:00Z, '2024-05-01 12:00', 2024-05-01, or @1714564800"

def malformed (input : Text) : String :=
  "'" ++ String.ofList input ++ "' is not a timestamp DCTL understands (try " ++ examples ++ ")"

def outOfRange (input : Text) : String :=
  "'" ++ String.ofList input ++
    "' is not a date DCTL can represent (years 1 to 9999, and the day must exist in its month)"

def notSeconds (input : Text) : String :=
  "'" ++ String.ofList input ++ "' is not a whole number of seconds since the Unix epoch (try " ++
    examples ++ ")"

def zoned (input : Text) : String :=
  "'" ++ String.ofList input ++
    "' carries a zone offset. DCTL timestamps are UTC: convert the time first, or append Z if " ++
    "it already is."

def fieldOutOfRange (input : Text) : String :=
  "'" ++ String.ofList input ++
    "' has a time field out of range (hours 0-23, minutes 0-59, seconds 0-59)"

def minYear : Int := 1

def maxYear : Int := 9999

def unixEpochYear : Int := 1970

def isLeapYear (year : Int) : Bool := year.tmod 4 = 0 ∧ (year.tmod 100 ≠ 0 ∨ year.tmod 400 = 0)

def yearLength (year : Int) : Int := if isLeapYear year then 365 + 1 else 365

def monthLength (year : Int) (month : Nat) : Option Int :=
  if month = 0 then none
  else ([31, 28, 31, 30, 31, 30, 31, 31, 30, 31, 30, 31] : List Int)[month - 1]?.map fun base =>
    if month = 2 ∧ isLeapYear year then base + 1 else base

/-- A calendar computation: `error ()` where the source answers that there is no such date. -/
abbrev Civil (α : Type) : Type := Except (Trap Unit) α

def none' {α : Type} : Civil α := .error (.error ())

def yearsBetween (first last : Int) : List Int :=
  (List.range (last - first).toNat).map fun k : Nat => first + k

def walkYears (year : Int) : Civil Int :=
  if unixEpochYear ≤ year then
    (yearsBetween unixEpochYear year).foldlM (fun days walked =>
      fitI64 .overflow (days + yearLength walked)) 0
  else
    (yearsBetween year unixEpochYear).foldlM (fun days walked =>
      fitI64 .overflow (days - yearLength walked)) 0

def walkMonths (year : Int) (month : Nat) (days : Int) : Civil Int :=
  (List.range' 1 (month - 1)).foldlM (fun days walked => do
    let length ← okOr (.error ()) (monthLength year walked)
    fitI64 .overflow (days + length)) days

def daysFromCivil (year : Int) (month day : Nat) : Civil Int :=
  if year < minYear ∨ maxYear < year then none'
  else if month = 0 ∨ 12 < month then none'
  else do
    let length ← okOr (.error ()) (monthLength year month)
    if day = 0 ∨ length < day then none'
    else
      let days ← walkYears year
      let days ← walkMonths year month days
      fitI64 .overflow (days + (day - 1 : Nat))

/-- While days are missing, a year earlier. -/
def backward (year remaining : Int) : Civil (Int × Int) :=
  if remaining < 0 then
    if year - 1 < minYear then none'
    else do
      let remaining ← fitI64 .overflow (remaining + yearLength (year - 1))
      backward (year - 1) remaining
  else .ok (year, remaining)
termination_by (year - minYear).toNat
decreasing_by omega

def forward (year remaining : Int) : Civil (Int × Int) :=
  if yearLength year ≤ remaining then do
    let remaining ← fitI64 .overflow (remaining - yearLength year)
    if maxYear < year + 1 then none' else forward (year + 1) remaining
  else .ok (year, remaining)
termination_by (maxYear - year).toNat
decreasing_by omega

theorem le_of_monthLength {year : Int} {month : Nat} {length : Int}
    (h : monthLength year month = some length) : 1 ≤ month ∧ month ≤ 12 := by
  unfold monthLength at h
  split at h
  · cases h
  · obtain ⟨base, hbase, -⟩ := Option.map_eq_some_iff.mp h
    have hlt := (List.getElem?_eq_some_iff.mp hbase).1
    simp only [length_cons, length_nil] at hlt
    omega

def monthWalk (year remaining : Int) (month : Nat) : Civil (Nat × Int) :=
  match h : monthLength year month with
  | none => none'
  | some length =>
    if remaining < length then .ok (month, remaining)
    else do
      let remaining ← fitI64 .overflow (remaining - length)
      monthWalk year remaining (month + 1)
termination_by 13 - month
decreasing_by
  have := le_of_monthLength h
  omega

def civilFromDays (days : Int) : Civil (Int × Nat × Nat) := do
  let (year, remaining) ← backward unixEpochYear days
  let (year, remaining) ← forward year remaining
  let (month, remaining) ← monthWalk year remaining 1
  if 0 ≤ remaining ∧ remaining < 2 ^ 32 then
    let day ← Machine.add 32 remaining.toNat 1
    return (year, month, day)
  else none'

abbrev Parse (α : Type) : Type := Except (Trap String) α

def refuse {α : Type} (message : String) : Parse α := .error (.error message)

def digits (bound : Nat) (text input : Text) : Parse Nat :=
  okOr (.error (malformed input)) (digitsBelow bound text)

def parseDate (text input : Text) : Parse (Int × Nat × Nat) :=
  match text.splitOn '-' with
  | [year, month, day] => do
    let year ← digits (2 ^ 63) year input
    let month ← digits (2 ^ 32) month input
    let day ← digits (2 ^ 32) day input
    return (year, month, day)
  | _ => refuse (malformed input)

def wholeSeconds (field input : Text) : Parse Nat := do
  let whole := field.takeWhile (· ≠ '.')
  let fraction := (field.dropWhile (· ≠ '.')).drop 1
  if fraction ≠ [] then
    let _ ← digits (2 ^ 64) fraction input
  digits (2 ^ 32) whole input

def timeFields (hour minute : Text) (second : Option Text) (input : Text) :
    Parse (Nat × Nat × Nat) := do
  let hour ← digits (2 ^ 32) hour input
  let minute ← digits (2 ^ 32) minute input
  let second ← match second with
    | some field => wholeSeconds field input
    | none => pure 0
  if 23 < hour ∨ 59 < minute ∨ 59 < second then refuse (fieldOutOfRange input)
  else return (hour, minute, second)

def parseTime (text input : Text) : Parse (Nat × Nat × Nat) :=
  if text.any fun c => c ∈ ['+', '-'] then refuse (zoned input)
  else match text.splitOn ':' with
    | [hour, minute] => timeFields hour minute none input
    | [hour, minute, second] => timeFields hour minute (some second) input
    | _ => refuse (malformed input)

def isDateTimeSeparator (c : Char) : Bool := c ∈ ['T', 't', ' ']

def isUtcSuffix (c : Char) : Bool := c ∈ ['Z', 'z']

def instantOf (input : Text) (date : Int × Nat × Nat) (time : Nat × Nat × Nat) :
    Parse Timestamp := do
  let days ← (daysFromCivil date.1 date.2.1 date.2.2).mapError fun
    | .error () => .error (outOfRange input)
    | .overflow => .overflow
  let ofDays ← fitI64 .overflow (days * 86400)
  let ofHours ← fitI64 .overflow ((time.1 : Int) * 3600)
  let upToHours ← fitI64 .overflow (ofDays + ofHours)
  let ofMinutes ← fitI64 .overflow ((time.2.1 : Int) * 60)
  let upToMinutes ← fitI64 .overflow (upToHours + ofMinutes)
  let seconds := upToMinutes + (time.2.2 : Int)
  if h : FitsI64 seconds then .ok ⟨seconds, h⟩ else .error .overflow

def timeOfDay (time input : Text) : Parse (Nat × Nat × Nat) :=
  if time = [] then .ok (0, 0, 0) else parseTime time input

def parseCalendar (text input : Text) : Parse Timestamp := do
  let body := text.rdropWhile isUtcSuffix
  let date ← parseDate (body.takeWhile fun c => !isDateTimeSeparator c) input
  let time ← timeOfDay (trim ((body.dropWhile fun c => !isDateTimeSeparator c).drop 1)) input
  instantOf input date time

def Timestamp.parse (input : Text) : Parse Timestamp :=
  match trim input with
  | [] => refuse (malformed input)
  | '@' :: rest =>
    match parseI64 (trim rest) with
    | some seconds => if h : FitsI64 seconds then .ok ⟨seconds, h⟩ else .error .overflow
    | none => refuse (notSeconds input)
  | text => parseCalendar text input

/-- Render as RFC 3339 in UTC.  A value without a four-digit year falls back to the `@seconds`
spelling. -/
def Timestamp.toRfc3339 (t : Timestamp) : Civil Text :=
  let days := t.seconds / 86400
  let rest := t.seconds % 86400
  match civilFromDays days with
  | .error (.error ()) => .ok ('@' :: printI64 t.seconds)
  | .error .overflow => .error .overflow
  | .ok (year, month, day) =>
    .ok (padI64 4 year ++ '-' ::
      (pad 2 month ++ '-' :: (pad 2 day ++ 'T' :: (padI64 2 (rest / 3600) ++
      ':' :: (padI64 2 (rest % 3600 / 60) ++ ':' :: (padI64 2 (rest % 60) ++ ['Z']))))))

variable {year days remaining : Int} {month day : Nat}

theorem isLeapYear_eq (year : Int) : isLeapYear year = isLeap year := by
  unfold isLeapYear isLeap
  refine decide_eq_decide.mpr ?_
  rw [← Int.dvd_iff_tmod_eq_zero, Ne, ← Int.dvd_iff_tmod_eq_zero, ← Int.dvd_iff_tmod_eq_zero]
  omega

theorem yearLength_eq (year : Int) : yearLength year = Calendar.yearLength year := by
  unfold yearLength Calendar.yearLength
  rw [isLeapYear_eq]
  split <;> rfl

theorem monthLength_eq (year : Int) (hpos : 1 ≤ month) (hle : month ≤ 12) :
    monthLength year month = some (Calendar.monthLength (isLeap year) month : Int) := by
  unfold monthLength
  rw [isLeapYear_eq]
  cases isLeap year <;> interval_cases month <;> rfl

theorem yearLength_bounds (year : Int) : 0 < yearLength year ∧ yearLength year ≤ 366 := by
  have hpos := yearLength_pos year
  have hle := yearLength_le year
  rw [yearLength_eq]
  omega

theorem backward_spec {year : Int} (hyear : minYear ≤ year) (hlo : -2 ^ 62 ≤ remaining)
    (hhi : remaining < 2 ^ 62) :
    if yearStart year + remaining < yearStart minYear then backward year remaining = none'
    else ∃ y r, backward year remaining = .ok (y, r) ∧ 0 ≤ r ∧ minYear ≤ y ∧ y ≤ year ∧
      yearStart y + r = yearStart year + remaining ∧ (y = year ∨ r < yearLength y) := by
  induction year, remaining using backward.induct with
  | case1 year remaining hneg hfirst =>
    have hmin : year = minYear := by omega
    rw [backward, if_pos hneg, if_pos hfirst, if_pos (by rw [← hmin]; omega)]
  | case2 year remaining hneg hnext ih =>
    have hbounds := yearLength_bounds (year - 1)
    have hstart := yearStart_succ (year - 1)
    rw [Int.sub_add_cancel, ← yearLength_eq] at hstart
    have ih := ih (remaining + yearLength (year - 1)) (by omega) (by omega) (by omega)
    have hfits : FitsI64 (remaining + yearLength (year - 1)) := by
      unfold FitsI64
      omega
    rw [backward, if_pos hneg, if_neg hnext, fitI64_of_fits hfits, ok_bind]
    rw [show yearStart (year - 1) + (remaining + yearLength (year - 1)) =
      yearStart year + remaining by omega] at ih
    split at ih
    next hout => rwa [if_pos hout]
    next hin =>
      rw [if_neg hin]
      obtain ⟨y, r, hrun, hr, hy, hle, hsum, hlast⟩ := ih
      refine ⟨y, r, hrun, hr, hy, by omega, hsum, .inr ?_⟩
      rcases hlast with rfl | hlt
      · omega
      · exact hlt
  | case3 year remaining hpos =>
    have hmono := yearStart_mono hyear
    rw [if_neg (by omega), backward, if_neg hpos]
    exact ⟨year, remaining, rfl, by omega, hyear, Int.le_refl _, rfl, .inl rfl⟩

theorem forward_spec (hyear : year ≤ maxYear) (hlo : 0 ≤ remaining) (hhi : remaining < 2 ^ 62) :
    if yearStart (maxYear + 1) ≤ yearStart year + remaining then forward year remaining = none'
    else ∃ y r, forward year remaining = .ok (y, r) ∧ 0 ≤ r ∧ r < yearLength y ∧
      year ≤ y ∧ y ≤ maxYear ∧
      yearStart y + r = yearStart year + remaining := by
  induction year, remaining using forward.induct with
  | case1 year remaining hfull ih =>
    have hbounds := yearLength_bounds year
    have hstart := yearStart_succ year
    rw [← yearLength_eq] at hstart
    have hfits : FitsI64 (remaining - yearLength year) := by
      unfold FitsI64
      omega
    rw [forward, if_pos hfull, fitI64_of_fits hfits, ok_bind]
    by_cases hlast : maxYear < year + 1
    · have hmax : year = maxYear := by omega
      rw [if_pos hlast, if_pos (by rw [← hmax]; omega)]
    · have ih := ih (remaining - yearLength year) hlast (by omega) (by omega) (by omega)
      rw [if_neg hlast]
      rw [show yearStart (year + 1) + (remaining - yearLength year) =
        yearStart year + remaining by omega] at ih
      split at ih
      next hout => rwa [if_pos hout]
      next hin =>
        rw [if_neg hin]
        obtain ⟨y, r, hrun, hr, hlt, hle, hy, hsum⟩ := ih
        exact ⟨y, r, hrun, hr, hlt, by omega, hy, hsum⟩
  | case2 year remaining hrest =>
    have hmono := yearStart_mono (Int.add_le_add_right hyear 1)
    have hstart := yearStart_succ year
    rw [← yearLength_eq] at hstart
    rw [if_neg (by omega), forward, if_neg hrest]
    exact ⟨year, remaining, rfl, hlo, by omega, Int.le_refl _, hyear, rfl⟩

theorem monthWalk_spec (hpos : 1 ≤ month) (hle : month ≤ 12) (hlo : 0 ≤ remaining)
    (hin : monthStart (isLeap year) month + remaining < Calendar.yearLength year) :
    ∃ m r, monthWalk year remaining month = .ok (m, r) ∧ 1 ≤ m ∧ m ≤ 12 ∧ 0 ≤ r ∧
      r < (Calendar.monthLength (isLeap year) m : Int) ∧
      monthStart (isLeap year) m + r = monthStart (isLeap year) month + remaining := by
  induction remaining, month using monthWalk.induct year with
  | case1 remaining month hnone =>
    rw [monthLength_eq year hpos hle] at hnone
    cases hnone
  | case2 remaining month length hlength hlt =>
    have hsame := hlength
    rw [monthLength_eq year hpos hle, Option.some.injEq] at hsame
    rw [monthWalk]
    split
    next h => rw [hlength] at h; cases h
    next length' h =>
      rw [hlength, Option.some.injEq] at h
      subst h
      rw [if_pos hlt]
      exact ⟨month, remaining, rfl, hpos, hle, hlo, by omega, rfl⟩
  | case3 remaining month length hlength hge ih =>
    have hsame := hlength
    rw [monthLength_eq year hpos hle, Option.some.injEq] at hsame
    have hnext := monthStart_succ (isLeap year) hpos
    have hyear := yearLength_le year
    have hmore : month + 1 ≤ 12 := by
      by_contra hlast
      obtain rfl : month = 12 := by omega
      have hend : monthStart (isLeap year) (12 + 1) = Calendar.yearLength year :=
        monthStart_end year
      omega
    have hfits : FitsI64 (remaining - length) := by
      unfold FitsI64
      omega
    obtain ⟨m, r, hrun, hm, hm', hr, hlt, hsum⟩ :=
      ih (remaining - length) (by omega) hmore (by omega) (by omega)
    rw [monthWalk]
    split
    next h => rw [hlength] at h; cases h
    next length' h =>
      rw [hlength, Option.some.injEq] at h
      subst h
      rw [if_neg hge, fitI64_of_fits hfits, ok_bind]
      exact ⟨m, r, hrun, hm, hm', hr, hlt, by omega⟩

def Printable (days : Int) : Prop := yearStart minYear ≤ days ∧ days < yearStart (maxYear + 1)

theorem Printable.bounds (h : Printable days) : -2 ^ 62 ≤ days ∧ days < 2 ^ 62 := by
  have hlo : -2 ^ 62 ≤ yearStart minYear := by decide
  have hhi : yearStart (maxYear + 1) < 2 ^ 62 := by decide
  exact ⟨hlo.trans h.1, h.2.trans hhi⟩

theorem civilFromDays_eq_ok (h : Printable days) : ∃ d : Date, d.number = days ∧ minYear ≤ d.year ∧
    d.year ≤ maxYear ∧ civilFromDays days = .ok (d.year, d.month, d.day) := by
  have hepoch : yearStart unixEpochYear = 0 := rfl
  have hback := backward_spec (by decide : minYear ≤ unixEpochYear) h.bounds.1 h.bounds.2
  rw [hepoch, Int.zero_add, if_neg (Int.not_lt.mpr h.1)] at hback
  obtain ⟨y, r, hrun, hr, hy, hle, hsum, hlast⟩ := hback
  have hrlt : r < 2 ^ 62 := by
    have hbounds := yearLength_bounds y
    have hfits := h.bounds.2
    rcases hlast with rfl | hlt <;> omega
  have hforth := forward_spec (hle.trans (by decide : unixEpochYear ≤ maxYear)) hr hrlt
  rw [hsum, if_neg (Int.not_le.mpr h.2)] at hforth
  obtain ⟨y', r', hrun', hr', hlt', hle', hmax', hsum'⟩ := hforth
  rw [yearLength_eq] at hlt'
  have hfirst : monthStart (isLeap y') 1 + r' < Calendar.yearLength y' := by
    rw [monthStart_one]
    omega
  obtain ⟨m, q, hrun'', hm, hm', hq, hqlt, hsum''⟩ :=
    monthWalk_spec (Nat.le_refl 1) (by decide) hr' hfirst
  rw [monthStart_one] at hsum''
  have hlength := @monthLength_le m (isLeap y')
  refine ⟨⟨y', m, q.toNat + 1, hm, hm', by omega, by omega⟩, ?_, hy.trans hle', hmax', ?_⟩
  · show dayNumber y' m (q.toNat + 1) = days
    unfold dayNumber
    omega
  · unfold civilFromDays
    rw [hrun, ok_bind]
    dsimp only
    rw [hrun', ok_bind]
    dsimp only
    rw [hrun'', ok_bind, if_pos (by omega), Machine.add_of_lt (by omega)]
    rfl

theorem civilFromDays_eq_none (h : ¬Printable days) (hlo : -2 ^ 62 ≤ days) (hhi : days < 2 ^ 62) :
    civilFromDays days = none' := by
  have hepoch : yearStart unixEpochYear = 0 := rfl
  have hback := backward_spec (by decide : minYear ≤ unixEpochYear) hlo hhi
  rw [hepoch, Int.zero_add] at hback
  unfold civilFromDays
  split at hback
  next hearly =>
    rw [hback]
    rfl
  next hlate =>
    obtain ⟨y, r, hrun, hr, hy, hle, hsum, hlast⟩ := hback
    have hrlt : r < 2 ^ 62 := by
      have hbounds := yearLength_bounds y
      rcases hlast with rfl | hlt <;> omega
    have hforth := forward_spec (hle.trans (by decide : unixEpochYear ≤ maxYear)) hr hrlt
    rw [hsum, if_pos (Int.not_lt.mp fun hin => h ⟨Int.not_lt.mp hlate, hin⟩)] at hforth
    rw [hrun, ok_bind]
    dsimp only
    rw [hforth]
    rfl

theorem foldlM_sum {α : Type} {f : Int → α → Civil Int} {g : α → Int} {l : List α}
    (hf : ∀ x ∈ l, ∀ days, f days x = fitI64 .overflow (days + g x))
    (hg : ∀ x ∈ l, -366 ≤ g x ∧ g x ≤ 366) (hlo : -2 ^ 62 + 366 * l.length ≤ days)
    (hhi : days + 366 * l.length < 2 ^ 62) : l.foldlM f days = .ok (days + (l.map g).sum) := by
  induction l generalizing days with
  | nil =>
    rw [map_nil, sum_nil, Int.add_zero]
    rfl
  | cons x l ih =>
    obtain ⟨hge, hle⟩ := hg x mem_cons_self
    rw [length_cons] at hlo hhi
    have hfits : FitsI64 (days + g x) := by
      unfold FitsI64
      omega
    have hrest := @ih (days + g x) (fun y hy => hf y (mem_cons_of_mem x hy))
      (fun y hy => hg y (mem_cons_of_mem x hy)) (by omega) (by omega)
    rw [foldlM_cons, hf x mem_cons_self, fitI64_of_fits hfits, ok_bind, hrest, map_cons,
      sum_cons, Int.add_assoc]

theorem length_yearsBetween (first last : Int) :
    (yearsBetween first last).length = (last - first).toNat := by
  rw [yearsBetween, length_map, length_range]

theorem sum_years {first last : Int} (h : first ≤ last) :
    ((yearsBetween first last).map yearLength).sum = yearStart last - yearStart first := by
  obtain ⟨n, rfl⟩ : ∃ n : Nat, last = first + n := ⟨(last - first).toNat, by omega⟩
  rw [yearsBetween, show (first + (n : Int) - first).toNat = n by omega]
  clear h
  induction n with
  | zero =>
    rw [Int.natCast_zero, Int.add_zero, Int.sub_self]
    rfl
  | succ n ih =>
    have hnext := yearStart_succ (first + n)
    rw [← yearLength_eq] at hnext
    rw [range_succ, map_append, map_append, sum_append, ih, map_singleton,
      map_singleton, sum_singleton, Int.natCast_succ, ← Int.add_assoc, hnext]
    omega

theorem sum_months (leap : Bool) (month : Nat) :
    ((List.range' 1 (month - 1)).map fun walked => (Calendar.monthLength leap walked : Int)).sum =
      monthStart leap month := by
  rw [monthStart, List.range'_eq_map_range, map_map]
  induction List.range (month - 1) with
  | nil => rfl
  | cons k l ih =>
    rw [map_cons, sum_cons, ih, map_cons, sum_cons, Int.natCast_add, Function.comp_apply,
      Nat.add_comm 1 k]

theorem walkYears_eq (hlo : minYear ≤ year) (hhi : year ≤ maxYear) :
    walkYears year = .ok (yearStart year) := by
  have hyear : 1 ≤ year ∧ year ≤ 9999 := ⟨hlo, hhi⟩
  have hepoch : unixEpochYear = 1970 := rfl
  have hstart : yearStart unixEpochYear = 0 := rfl
  unfold walkYears
  split
  next hlate =>
    have hsum := sum_years hlate
    have hlen := length_yearsBetween unixEpochYear year
    have hrun :=
      @foldlM_sum 0 Int (fun days walked => fitI64 .overflow (days + yearLength walked)) yearLength
      (yearsBetween unixEpochYear year) (fun _ _ _ => rfl)
      (fun x _ => ⟨by have := yearLength_bounds x; omega, (yearLength_bounds x).2⟩)
        (by omega) (by omega)
    rw [hrun, hsum]
    congr 1
    omega
  next hearly =>
    have hsum := sum_years (Int.le_of_lt (Int.not_le.mp hearly))
    have hlen := length_yearsBetween year unixEpochYear
    have hrun := @foldlM_sum 0 Int (fun days walked => fitI64 .overflow (days - yearLength walked))
      (fun walked => -yearLength walked) (yearsBetween year unixEpochYear) (fun _ _ _ => rfl)
      (fun x _ => ⟨by have := (yearLength_bounds x).2; omega,
        by have := (yearLength_bounds x).1; omega⟩)
      (by omega) (by omega)
    have hneg : ((yearsBetween year unixEpochYear).map fun walked => -yearLength walked).sum =
        -((yearsBetween year unixEpochYear).map yearLength).sum := by
      induction yearsBetween year unixEpochYear with
      | nil => rfl
      | cons x l ih =>
        rw [map_cons, sum_cons, ih, map_cons, sum_cons]
        omega
    rw [hrun, hneg, hsum]
    congr 1
    omega

theorem walkMonths_eq (hpos : 1 ≤ month) (hle : month ≤ 12) (hlo : -2 ^ 61 ≤ days)
    (hhi : days < 2 ^ 61) :
    walkMonths year month days = .ok (days + monthStart (isLeap year) month) := by
  have hlen : (List.range' 1 (month - 1)).length = month - 1 := length_range'
  unfold walkMonths
  rw [← sum_months]
  refine foldlM_sum (fun walked hwalked days => ?_) (fun walked _ => ?_) (by omega) (by omega)
  · obtain ⟨k, hk, rfl⟩ := mem_range'.mp hwalked
    rw [monthLength_eq year (by omega) (by omega)]
    rfl
  · have hle := @monthLength_le walked (isLeap year)
    omega

theorem daysFromCivil_eq_ok (d : Date) (hlo : minYear ≤ d.year) (hhi : d.year ≤ maxYear) :
    daysFromCivil d.year d.month d.day = .ok d.number := by
  have hmonth := d.month_pos
  have hle := d.month_le
  have hpos := d.day_pos
  have hday := d.day_le
  have hmax := @monthLength_le d.month (isLeap d.year)
  have hbefore : monthStart (isLeap d.year) d.month ≤ Calendar.yearLength d.year := by
    rw [← monthStart_end]
    exact monthStart_le (Nat.le_succ_of_le hle)
  have hlength := yearLength_le d.year
  have hstart : -2 ^ 40 ≤ yearStart d.year ∧ yearStart d.year ≤ 2 ^ 40 :=
    ⟨le_trans (by decide) (yearStart_mono hlo), (yearStart_mono hhi).trans (by decide)⟩
  have hfits :
      FitsI64 (yearStart d.year + monthStart (isLeap d.year) d.month + (d.day - 1 : Nat)) := by
    unfold FitsI64
    omega
  unfold daysFromCivil
  rw [if_neg (by omega), if_neg (by omega), monthLength_eq d.year hmonth hle]
  simp only [okOr, ok_bind]
  rw [if_neg (by omega), walkYears_eq hlo hhi, ok_bind,
    walkMonths_eq hmonth hle (by omega) (by omega), ok_bind, fitI64_of_fits hfits]
  unfold Date.number dayNumber
  congr 1
  omega

theorem exists_date_of_daysFromCivil (h : daysFromCivil year month day = .ok days) : ∃ d : Date,
    d.year = year ∧ d.month = month ∧ d.day = day ∧ minYear ≤ year ∧ year ≤ maxYear ∧
      days = d.number := by
  have hrun := h
  unfold daysFromCivil at h
  split at h
  · cases h
  next hyear =>
    split at h
    · cases h
    next hmonth =>
      rw [monthLength_eq year (by omega) (by omega)] at h
      simp only [okOr, ok_bind] at h
      split at h
      · cases h
      next hday =>
        have hlo : minYear ≤ year := by omega
        have hhi : year ≤ maxYear := by omega
        have hnumber :=
          daysFromCivil_eq_ok ⟨year, month, day, by omega, by omega, by omega, by omega⟩ hlo hhi
        rw [hrun] at hnumber
        exact ⟨_, rfl, rfl, rfl, hlo, hhi, Except.ok.inj hnumber⟩

end Dctl.Cli.Touch
