import Dctl.ProofKit.Checks
import Dctl.ProofKit.Components
import Dctl.ProofKit.Decimal

/-! The proleptic Gregorian calendar: leap years, the lengths of months, and the number of each
date's day, counted from 1 January 1970.  Dates and day numbers correspond one to one, in order.
And how dates and times of day are spelled, with one reading for each text. -/

namespace Dctl.ProofKit.Calendar

open List

def isLeap (year : Int) : Bool := year % 4 = 0 ∧ (year % 100 ≠ 0 ∨ year % 400 = 0)

def yearLength (year : Int) : Nat := if isLeap year then 366 else 365

def lengths : List Nat := [31, 28, 31, 30, 31, 30, 31, 31, 30, 31, 30, 31]

def monthLength (leap : Bool) (month : Nat) : Nat :=
  lengths.getD (month - 1) 0 + if month = 2 ∧ leap then 1 else 0

def monthStart (leap : Bool) (month : Nat) : Nat :=
  ((List.range (month - 1)).map fun k => monthLength leap (k + 1)).sum

def yearStart (year : Int) : Int :=
  365 * (year - 1970) + ((year - 1) / 4 - (year - 1) / 100 + (year - 1) / 400) - 477

@[ext] structure Date where
  year : Int
  month : Nat
  day : Nat
  month_pos : 1 ≤ month
  month_le : month ≤ 12
  day_pos : 1 ≤ day
  day_le : day ≤ monthLength (isLeap year) month

def dayNumber (year : Int) (month day : Nat) : Int :=
  yearStart year + (monthStart (isLeap year) month + day) - 1

def Date.number (d : Date) : Int := dayNumber d.year d.month d.day

example : dayNumber 1970 1 1 = 0 := by decide
example : dayNumber 2026 7 26 = 20660 := by decide

variable {year year' : Int} {month month' day : Nat} {leap : Bool}

theorem isLeap_iff : isLeap year = true ↔ year % 4 = 0 ∧ (year % 100 ≠ 0 ∨ year % 400 = 0) :=
  decide_eq_true_iff

theorem yearStart_succ (year : Int) : yearStart (year + 1) = yearStart year + yearLength year := by
  unfold yearStart yearLength
  split
  next h =>
    rw [isLeap_iff] at h
    omega
  next h =>
    rw [isLeap_iff] at h
    omega

theorem yearStart_mono (h : year ≤ year') : yearStart year ≤ yearStart year' := by
  unfold yearStart
  omega

theorem yearLength_pos (year : Int) : 0 < yearLength year := by
  unfold yearLength
  split <;> decide

theorem yearLength_le (year : Int) : yearLength year ≤ 366 := by
  unfold yearLength
  split <;> decide

theorem monthStart_one (leap : Bool) : monthStart leap 1 = 0 := rfl

theorem monthStart_succ (leap : Bool) (h : 1 ≤ month) :
    monthStart leap (month + 1) = monthStart leap month + monthLength leap month := by
  obtain ⟨k, rfl⟩ : ∃ k, month = k + 1 := ⟨month - 1, by omega⟩
  rw [monthStart, monthStart, Nat.add_sub_cancel, Nat.add_sub_cancel, range_succ, map_append,
    sum_append, map_singleton, sum_singleton]

theorem monthStart_le (h : month ≤ month') : monthStart leap month ≤ monthStart leap month' := by
  induction h with
  | refl => exact Nat.le_refl _
  | step h ih =>
    rename_i m
    rcases Nat.eq_zero_or_pos m with rfl | hpos
    · exact ih
    · rw [monthStart_succ leap hpos]
      exact Nat.le_add_right_of_le ih

theorem monthStart_end (year : Int) : monthStart (isLeap year) 13 = yearLength year := by
  unfold yearLength
  cases isLeap year <;> rfl

theorem monthLength_le : monthLength leap month ≤ 31 := by
  rcases Nat.lt_or_ge 12 month with hout | hle
  · have hnone : lengths.getD (month - 1) 0 = 0 := by
      rw [getD_eq_getElem?_getD, List.getElem?_eq_none (Nat.le_sub_one_of_lt hout)]
      rfl
    rw [monthLength, hnone, if_neg (by omega)]
    decide
  · cases leap <;> interval_cases month <;> decide

variable {d d' : Date}

theorem Date.bounds (d : Date) :
    yearStart d.year ≤ d.number ∧ d.number < yearStart (d.year + 1) := by
  have hmonth : monthStart (isLeap d.year) (d.month + 1) ≤ yearLength d.year := by
    rw [← monthStart_end]
    exact monthStart_le (Nat.succ_le_succ d.month_le)
  rw [monthStart_succ _ d.month_pos] at hmonth
  have hpos := d.day_pos
  have hle := d.day_le
  rw [yearStart_succ]
  unfold number dayNumber
  omega

theorem Date.number_lt_iff : d.number < d'.number ↔
    d.year < d'.year ∨ d.year = d'.year ∧
      (d.month < d'.month ∨ d.month = d'.month ∧ d.day < d'.day) := by
  have hyear : ∀ {d d' : Date}, d.year < d'.year → d.number < d'.number := by
    intro d d' h
    have hnext : yearStart (d.year + 1) ≤ yearStart d'.year := yearStart_mono h
    exact lt_of_lt_of_le d.bounds.2 (hnext.trans d'.bounds.1)
  have hmonth : ∀ {d d' : Date}, d.year = d'.year → d.month < d'.month → d.number < d'.number := by
    intro d d' hsame h
    have hnext : monthStart (isLeap d'.year) (d.month + 1) ≤ monthStart (isLeap d'.year) d'.month :=
      monthStart_le h
    rw [monthStart_succ _ d.month_pos] at hnext
    have hle := d.day_le
    have hpos := d'.day_pos
    rw [hsame] at hle
    unfold number dayNumber
    rw [hsame]
    omega
  have hday : ∀ {d d' : Date}, d.year = d'.year → d.month = d'.month →
      (d.number < d'.number ↔ d.day < d'.day) := by
    intro d d' hsame hsame'
    unfold number dayNumber
    rw [hsame, hsame']
    omega
  rcases lt_trichotomy d.year d'.year with h | h | h
  · exact iff_of_true (hyear h) (.inl h)
  · rcases Nat.lt_trichotomy d.month d'.month with h' | h' | h'
    · exact iff_of_true (hmonth h h') (.inr ⟨h, .inl h'⟩)
    · rw [hday h h']
      omega
    · have hlt := hmonth h.symm h'
      omega
  · have hlt := hyear h
    omega

theorem Date.number_injective (h : d.number = d'.number) : d = d' := by
  have hnot : ¬d.number < d'.number := by omega
  have hnot' : ¬d'.number < d.number := by omega
  rw [number_lt_iff] at hnot hnot'
  ext <;> omega

/-- Years that begin in March are put together to eras of 400. -/
def eraDays (year month day : Int) : Int :=
  let y := if month ≤ 2 then year - 1 else year
  let era := y / 400
  let yearOfEra := y - era * 400
  let monthShifted := if month > 2 then month - 3 else month + 9
  let dayOfYear := (153 * monthShifted + 2) / 5 + day - 1
  let dayOfEra := yearOfEra * 365 + yearOfEra / 4 - yearOfEra / 100 + dayOfYear
  era * 146097 + dayOfEra - 719468

theorem eraYears (y : Int) :
    y / 400 * 146097 + ((y - y / 400 * 400) * 365 + (y - y / 400 * 400) / 4 -
    (y - y / 400 * 400) / 100) - 719468 = yearStart (y + 1) - 306 := by
  unfold yearStart
  omega

theorem marchStart (hlo : 3 ≤ month) (hle : month ≤ 12) :
    (153 * (month - 3) + 2) / 5 + (if leap then 60 else 59) = monthStart leap month := by
  cases leap <;> interval_cases month <;> decide

theorem winterStart (hpos : 1 ≤ month) (hle : month ≤ 2) :
    (153 * (month + 9) + 2) / 5 = 306 + monthStart leap month := by
  cases leap <;> interval_cases month <;> decide

theorem eraDays_eq (hpos : 1 ≤ month) (hle : month ≤ 12) :
    eraDays year month day = dayNumber year month day := by
  unfold eraDays dayNumber
  rcases Nat.lt_or_ge 2 month with hlate | hearly
  · have hyears := eraYears year
    have hmonth := @marchStart month (isLeap year) hlate hle
    have hlength := yearStart_succ year
    rw [if_neg (by omega), if_pos (by omega)]
    dsimp only
    unfold yearLength at hlength
    split at hmonth
    next hleap =>
      rw [if_pos hleap] at hlength
      omega
    next hleap =>
      rw [if_neg hleap] at hlength
      omega
  · have hyears := eraYears (year - 1)
    have hmonth := @winterStart month (isLeap year) hpos hearly
    rw [Int.sub_add_cancel] at hyears
    rw [if_pos (by omega), if_neg (by omega)]
    dsimp only
    omega

/-- The formula on numbers of 64 bits, whose division rounds towards zero. -/
def eraDaysI64 {ε : Type} (fault : ε) (year month day : Int) : Except ε Int := do
  let y ← fitI64 fault (if month ≤ 2 then year - 1 else year)
  let floored ← fitI64 fault (if 0 ≤ y then y else y - 399)
  let era := floored.tdiv 400
  let ofEra ← fitI64 fault (era * 400)
  let yearOfEra ← fitI64 fault (y - ofEra)
  let monthShifted ← fitI64 fault (if 2 < month then month - 3 else month + 9)
  let scaled ← fitI64 fault (153 * monthShifted)
  let scaled ← fitI64 fault (scaled + 2)
  let dayOfYear ← fitI64 fault (scaled.tdiv 5 + day)
  let dayOfYear ← fitI64 fault (dayOfYear - 1)
  let days ← fitI64 fault (yearOfEra * 365)
  let days ← fitI64 fault (days + yearOfEra.tdiv 4)
  let days ← fitI64 fault (days - yearOfEra.tdiv 100)
  let dayOfEra ← fitI64 fault (days + dayOfYear)
  let ofEras ← fitI64 fault (era * 146097)
  let days ← fitI64 fault (ofEras + dayOfEra)
  fitI64 fault (days - 719468)

theorem tdiv_era (y : Int) : (if 0 ≤ y then y else y - 399).tdiv 400 = y / 400 := by
  split
  next hpos => exact Int.tdiv_eq_ediv_of_nonneg hpos
  next hneg =>
    rw [Int.tdiv_eq_ediv, show Int.sign 400 = 1 from rfl]
    split <;> omega

theorem eraDaysI64_eq {ε : Type} {fault : ε} {year month day : Int}
    (hyear : -2 ^ 32 < year ∧ year < 2 ^ 32) (hmonth : 1 ≤ month ∧ month ≤ 12)
    (hday : -2 ^ 32 < day ∧ day < 2 ^ 32) :
    eraDaysI64 fault year month day = .ok (eraDays year month day) := by
  have hfit : ∀ {v : Int}, -2 ^ 62 ≤ v → v < 2 ^ 62 → fitI64 fault v = .ok v := fun hlo hhi =>
    fitI64_of_fits ⟨by omega, by omega⟩
  obtain ⟨y, hy⟩ : ∃ y, y = if month ≤ 2 then year - 1 else year := ⟨_, rfl⟩
  have hybound : -2 ^ 32 ≤ y ∧ y < 2 ^ 32 := by
    rw [hy]
    split <;> omega
  obtain ⟨m, hm⟩ : ∃ m, m = if 2 < month then month - 3 else month + 9 := ⟨_, rfl⟩
  have hmbound : 0 ≤ m ∧ m ≤ 11 := by
    rw [hm]
    split <;> omega
  have hfive : (153 * m + 2).tdiv 5 = (153 * m + 2) / 5 := Int.tdiv_eq_ediv_of_nonneg (by omega)
  have hofEra : 0 ≤ y - y / 400 * 400 ∧ y - y / 400 * 400 < 400 := by omega
  have hfour : (y - y / 400 * 400).tdiv 4 = (y - y / 400 * 400) / 4 :=
    Int.tdiv_eq_ediv_of_nonneg hofEra.1
  have hhundred : (y - y / 400 * 400).tdiv 100 = (y - y / 400 * 400) / 100 :=
    Int.tdiv_eq_ediv_of_nonneg hofEra.1
  have hfloor : -2 ^ 62 ≤ (if 0 ≤ y then y else y - 399) ∧
      (if 0 ≤ y then y else y - 399) < 2 ^ 62 := by
    split <;> omega
  unfold eraDaysI64 eraDays
  rw [← hy, ← hm, hfit (by omega) (by omega), ok_bind, hfit hfloor.1 hfloor.2, ok_bind]
  dsimp only
  rw [tdiv_era]
  rw [hfit (by omega) (by omega), ok_bind, hfit (by omega) (by omega), ok_bind, hfit (by omega)
    (by omega), ok_bind, hfit (by omega) (by omega), ok_bind, hfit (by omega) (by omega), ok_bind,
    hfive, hfour, hhundred]
  rw [hfit (by omega) (by omega), ok_bind, hfit (by omega) (by omega), ok_bind, hfit (by omega)
    (by omega), ok_bind, hfit (by omega) (by omega), ok_bind, hfit (by omega) (by omega), ok_bind,
    hfit (by omega) (by omega), ok_bind, hfit (by omega) (by omega), ok_bind,
    hfit (by omega) (by omega), ok_bind, hfit (by omega) (by omega)]

theorem eq_eraDays_of_ok {ε : Type} {fault : ε} {year month day v : Int}
    (hmonth : 1 ≤ month ∧ month ≤ 12) (h : eraDaysI64 fault year month day = .ok v) :
    v = eraDays year month day := by
  unfold eraDaysI64 at h
  simp only [bind_eq_ok] at h
  obtain ⟨y, hy, floored, hfloored, ofEra, hofEra, yearOfEra, hyearOfEra, m, hm, scaled, hscaled,
    scaled', hscaled', dayOfYear, hday, dayOfYear', hday', d1, hd1, d2, hd2, d3, hd3, d4, hd4, d5,
    hd5, d6, hd6, h⟩ := h
  have hera : floored.tdiv 400 = y / 400 := by
    rw [eq_of_fitI64 hfloored, tdiv_era]
  rw [hera] at hofEra hd5
  have hyears : 0 ≤ yearOfEra := by
    rw [eq_of_fitI64 hyearOfEra, eq_of_fitI64 hofEra]
    omega
  have hmonths : 0 ≤ scaled' := by
    rw [eq_of_fitI64 hscaled', eq_of_fitI64 hscaled, eq_of_fitI64 hm]
    split <;> omega
  rw [Int.tdiv_eq_ediv_of_nonneg hmonths] at hday
  rw [Int.tdiv_eq_ediv_of_nonneg hyears] at hd2 hd3
  unfold eraDays
  dsimp only
  rw [eq_of_fitI64 h, eq_of_fitI64 hd6, eq_of_fitI64 hd5, eq_of_fitI64 hd4, eq_of_fitI64 hd3,
    eq_of_fitI64 hd2, eq_of_fitI64 hd1, eq_of_fitI64 hday', eq_of_fitI64 hday,
    eq_of_fitI64 hscaled', eq_of_fitI64 hscaled, eq_of_fitI64 hm, eq_of_fitI64 hyearOfEra,
    eq_of_fitI64 hofEra, eq_of_fitI64 hy]

section Spellings

variable {text extra rest f g l : List Char} {sep : Char}
  {n n' y y' m m' d d' hour minute second hour' minute' second' : Nat}

theorem of_splitOn_eq {ls : List (List Char)} (h : text.splitOn sep = ls) :
    text = [sep].intercalate ls ∧ ∀ l ∈ ls, sep ∉ l := by
  subst h
  exact ⟨(intercalate_splitOn sep).symm, fun l => not_mem_of_mem_splitOn⟩

theorem splitOn_eq_two : text.splitOn sep = [f, g] ↔ text = f ++ sep :: g ∧ sep ∉ f ∧ sep ∉ g := by
  constructor
  · intro h
    obtain ⟨htext, hnot⟩ := of_splitOn_eq h
    refine ⟨htext.trans ?_, hnot f (by simp), hnot g (by simp)⟩
    simp [List.intercalate]
  · rintro ⟨rfl, hf, hg⟩
    rw [splitOn_append_cons_self_of_not_mem hf, splitOn_eq_singleton hg]

theorem splitOn_eq_three : text.splitOn sep = [f, g, l] ↔
    text = f ++ sep :: (g ++ sep :: l) ∧ sep ∉ f ∧ sep ∉ g ∧ sep ∉ l := by
  constructor
  · intro h
    obtain ⟨htext, hnot⟩ := of_splitOn_eq h
    refine ⟨htext.trans ?_, hnot f (by simp), hnot g (by simp), hnot l (by simp)⟩
    simp [List.intercalate]
  · rintro ⟨rfl, hf, hg, hl⟩
    rw [splitOn_append_cons_self_of_not_mem hf, splitOn_append_cons_self_of_not_mem hg,
      splitOn_eq_singleton hl]

/-- A date, as `YYYY-MM-DD` of any width. -/
def SpellsDate (text : List Char) (year month day : Nat) : Prop :=
  ∃ y m d, text = y ++ '-' :: (m ++ '-' :: d) ∧ Spells y year ∧ Spells m month ∧ Spells d day

/-- Seconds, with any fraction behind a point. -/
def SpellsSeconds (text : List Char) (second : Nat) : Prop :=
  ∃ s fraction, text = s ++ fraction ∧ Spells s second ∧ (fraction = [] ∨ ∃ f, fraction = '.' :: f)

/-- A time of day, as `HH:MM` or `HH:MM:SS` of any width. -/
def SpellsClock (text : List Char) (hour minute second : Nat) : Prop :=
  ∃ h m, Spells h hour ∧ Spells m minute ∧ (text = h ++ ':' :: m ∧ second = 0 ∨
    ∃ s, ':' ∉ s ∧ SpellsSeconds s second ∧ text = h ++ ':' :: (m ++ ':' :: s))

theorem SpellsDate.splitOn (h : SpellsDate text y m d) :
    ∃ fy fm fd, text.splitOn '-' = [fy, fm, fd] ∧
    Spells fy y ∧ Spells fm m ∧ Spells fd d := by
  obtain ⟨fy, fm, fd, rfl, hy, hm, hd⟩ := h
  exact ⟨fy, fm, fd, splitOn_eq_three.mpr ⟨rfl, hy.not_mem (by decide), hm.not_mem (by decide),
    hd.not_mem (by decide)⟩, hy, hm, hd⟩

theorem SpellsDate.unique (h : SpellsDate text y m d) (h' : SpellsDate text y' m' d') :
    y = y' ∧ m = m' ∧ d = d' := by
  obtain ⟨fy, fm, fd, hsplit, hy, hm, hd⟩ := h.splitOn
  obtain ⟨fy', fm', fd', hsplit', hy', hm', hd'⟩ := h'.splitOn
  rw [hsplit, List.cons.injEq, List.cons.injEq, List.cons.injEq] at hsplit'
  obtain ⟨rfl, rfl, rfl, -⟩ := hsplit'
  exact ⟨hy.unique hy', hm.unique hm', hd.unique hd'⟩

theorem dropWhile_point (text : List Char) :
    text.dropWhile (· ≠ '.') = [] ∨ ∃ f, text.dropWhile (· ≠ '.') = '.' :: f := by
  cases hdrop : text.dropWhile (· ≠ '.') with
  | nil => exact .inl rfl
  | cons c f =>
    have hpoint := head_dropWhile_not (fun c => decide (c ≠ '.')) (l := text) (by rw [hdrop]; simp)
    simp only [hdrop, head_cons, decide_eq_false_iff_not, ne_eq, not_not] at hpoint
    exact .inr ⟨f, by rw [hpoint]⟩

theorem spellsSeconds_of_whole (h : Spells (text.takeWhile (· ≠ '.')) n) : SpellsSeconds text n :=
  ⟨_, _, takeWhile_append_dropWhile.symm, h, dropWhile_point text⟩

theorem takeWhile_of_spells (h : Spells f n) (hrest : ∀ c ∈ rest.head?, c.isDigit = false) :
    (f ++ rest).takeWhile Char.isDigit = f := by
  rw [takeWhile_append_of_pos h.digits]
  cases rest with
  | nil => exact append_nil f
  | cons c rest =>
    rw [takeWhile_cons_of_neg, append_nil]
    rw [hrest c rfl]
    decide

theorem SpellsSeconds.unique (h : SpellsSeconds text n) (h' : SpellsSeconds (text ++ extra) n')
    (hextra : ∀ c ∈ extra, c.isDigit = false) : n = n' := by
  obtain ⟨s, fraction, rfl, hs, hfraction⟩ := h
  obtain ⟨s', fraction', heq, hs', hfraction'⟩ := h'
  have hrest : ∀ c ∈ (fraction ++ extra).head?, c.isDigit = false := by
    intro c hc
    rcases hfraction with rfl | ⟨f, rfl⟩
    · exact hextra c (mem_of_mem_head? hc)
    · obtain rfl : '.' = c := Option.some.inj hc
      decide
  have hrest' : ∀ c ∈ fraction'.head?, c.isDigit = false := by
    intro c hc
    rcases hfraction' with rfl | ⟨f, rfl⟩
    · cases hc
    · obtain rfl : '.' = c := Option.some.inj hc
      decide
  have htake := takeWhile_of_spells hs hrest
  rw [← append_assoc, heq, takeWhile_of_spells hs' hrest'] at htake
  rw [htake] at hs'
  exact hs.unique hs'

theorem SpellsClock.unique (h : SpellsClock text hour minute second)
    (h' : SpellsClock (text ++ extra) hour' minute' second')
    (hextra : ∀ c ∈ extra, c.isDigit = false ∧ c ≠ ':') :
    hour = hour' ∧ minute = minute' ∧ second = second' := by
  have hcolon : ':' ∉ extra := fun hmem => (hextra _ hmem).2 rfl
  have hdigit : ∀ {f g : List Char} {n n' : Nat}, Spells f n → Spells g n' →
      g = f ++ extra → n = n' := by
    intro f g n n' hf hg heq
    cases extra with
    | nil =>
      rw [heq, append_nil] at hg
      exact hf.unique hg
    | cons c extra =>
      have hin := hg.digits c (by rw [heq]; simp)
      rw [(hextra c mem_cons_self).1] at hin
      cases hin
  obtain ⟨fh, fm, hh, hm, hcase⟩ := h
  obtain ⟨fh', fm', hh', hm', hcase'⟩ := h'
  have hnh : ':' ∉ fh := hh.not_mem (by decide)
  have hnm : ':' ∉ fm := hm.not_mem (by decide)
  have hnh' : ':' ∉ fh' := hh'.not_mem (by decide)
  have hnm' : ':' ∉ fm' := hm'.not_mem (by decide)
  have hsplit : (text ++ extra).splitOn ':' = [fh, fm ++ extra] ∧ second = 0 ∨
      ∃ s, SpellsSeconds s second ∧ (text ++ extra).splitOn ':' = [fh, fm, s ++ extra] := by
    rcases hcase with ⟨rfl, rfl⟩ | ⟨s, hs, hseconds, rfl⟩
    · refine .inl ⟨splitOn_eq_two.mpr ⟨by simp, hnh, ?_⟩, rfl⟩
      simp [hnm, hcolon]
    · refine .inr ⟨s, hseconds, splitOn_eq_three.mpr ⟨by simp, hnh, hnm, ?_⟩⟩
      simp [hs, hcolon]
  rcases hcase' with ⟨htext, rfl⟩ | ⟨s', hs', hseconds', htext⟩
  · have hsplit' := splitOn_eq_two.mpr ⟨htext, hnh', hnm'⟩
    rcases hsplit with ⟨hsplit, rfl⟩ | ⟨s, -, hsplit⟩
    · rw [hsplit, List.cons.injEq, List.cons.injEq] at hsplit'
      obtain ⟨rfl, heq, -⟩ := hsplit'
      exact ⟨hh.unique hh', hdigit hm hm' heq.symm, rfl⟩
    · rw [hsplit] at hsplit'
      cases congrArg List.length hsplit'
  · have hsplit' := splitOn_eq_three.mpr ⟨htext, hnh', hnm', hs'⟩
    rcases hsplit with ⟨hsplit, -⟩ | ⟨s, hseconds, hsplit⟩
    · rw [hsplit] at hsplit'
      cases congrArg List.length hsplit'
    · rw [hsplit, List.cons.injEq, List.cons.injEq, List.cons.injEq] at hsplit'
      obtain ⟨rfl, rfl, rfl, -⟩ := hsplit'
      exact ⟨hh.unique hh', hm.unique hm', hseconds.unique hseconds' fun c hc => (hextra c hc).1⟩

theorem SpellsDate.exists_cons (h : SpellsDate text y m d) :
    (∃ c more, text = c :: more ∧ c.isDigit = true ∧ '-' ∈ more) ∧ ∀ c ∈ text,
      c.isDigit = true ∨ c = '-' := by
  obtain ⟨fy, fm, fd, rfl, hy, hm, hd⟩ := h
  refine ⟨?_, fun c hc => ?_⟩
  · cases fy with
    | nil => exact absurd rfl hy.nonempty
    | cons c fy => exact ⟨c, _, rfl, hy.digits c mem_cons_self, mem_append_right _ mem_cons_self⟩
  · simp only [mem_append, mem_cons] at hc
    rcases hc with hc | rfl | hc | rfl | hc
    · exact .inl (hy.digits c hc)
    · exact .inr rfl
    · exact .inl (hm.digits c hc)
    · exact .inr rfl
    · exact .inl (hd.digits c hc)

theorem SpellsClock.exists_cons (h : SpellsClock text hour minute second) :
    ∃ c more, text = c :: more ∧ c.isDigit = true ∧ ':' ∈ more := by
  obtain ⟨fh, fm, hh, hm, hcase⟩ := h
  cases fh with
  | nil => exact absurd rfl hh.nonempty
  | cons c fh =>
    have hc := hh.digits c mem_cons_self
    rcases hcase with ⟨rfl, -⟩ | ⟨s, -, -, rfl⟩
    · exact ⟨c, _, rfl, hc, mem_append_right _ mem_cons_self⟩
    · exact ⟨c, _, rfl, hc, mem_append_right _ mem_cons_self⟩

theorem SpellsDate.eq_of_parseI64 {fy fm fd : List Char} {year month day : Int}
    (h : SpellsDate (fy ++ '-' :: (fm ++ '-' :: fd)) y m d) (hy : parseI64 fy = some year)
    (hm : parseI64 fm = some month) (hd : parseI64 fd = some day) :
    year = y ∧ month = m ∧ day = d := by
  obtain ⟨gy, gm, gd, heq, hgy, hgm, hgd⟩ := h
  have hnone : ∀ {f : List Char} {n : Nat}, Spells f n → f.count '-' = 0 := fun hf =>
    count_eq_zero.mpr (hf.not_mem (by decide))
  have hcount := congrArg (List.count '-') heq
  simp only [count_append, count_cons_self, hnone hgy, hnone hgm, hnone hgd] at hcount
  have hsplit := splitOn_eq_three.mpr ⟨heq, hgy.not_mem (by decide), hgm.not_mem (by decide),
    hgd.not_mem (by decide)⟩
  rw [splitOn_eq_three.mpr ⟨rfl, count_eq_zero.mp (by omega), count_eq_zero.mp (by omega),
    count_eq_zero.mp (by omega)⟩, List.cons.injEq, List.cons.injEq, List.cons.injEq] at hsplit
  obtain ⟨rfl, rfl, rfl, -⟩ := hsplit
  exact ⟨hgy.eq_of_parseI64 hy, hgm.eq_of_parseI64 hm, hgd.eq_of_parseI64 hd⟩

theorem SpellsClock.eq_of_parseI64 {fh fm fs tail : List Char} {u v w : Int}
    (h : SpellsClock text hour minute second) (hextra : ∀ c ∈ extra, c.isDigit = false ∧ c ≠ ':')
    (heq : text ++ extra = fh ++ ':' :: (fm ++ ':' :: (fs ++ tail))) (hh : parseI64 fh = some u)
    (hm : parseI64 fm = some v) (hs : parseI64 fs = some w) (hcolon : ':' ∉ tail)
    (htail : ∀ c ∈ tail.head?, c.isDigit = false) : u = hour ∧ v = minute ∧ w = second := by
  have hplain : ∀ {f : List Char} {z : Int}, parseI64 f = some z → ':' ∉ f := by
    intro f z hf hmem
    rcases mem_of_parseI64 hf hmem with hc | hc | hc <;> cases hc
  have hextra' : ':' ∉ extra := fun hmem => (hextra _ hmem).2 rfl
  have hsplit := splitOn_eq_three.mpr ⟨heq, hplain hh, hplain hm, by simp [hplain hs, hcolon]⟩
  obtain ⟨gh, gm, hgh, hgm, ⟨rfl, rfl⟩ | ⟨s, hcs, ⟨gs, fraction, rfl, hgs, hfraction⟩, rfl⟩⟩ := h
  · rw [splitOn_eq_two.mpr ⟨by rw [append_assoc, cons_append], hgh.not_mem (by decide),
      by simp [hgm.not_mem (c := ':') (by decide), hextra']⟩] at hsplit
    simp at hsplit
  · rw [splitOn_eq_three.mpr ⟨by simp only [append_assoc, cons_append]; rfl, hgh.not_mem
      (by decide), hgm.not_mem (by decide), by simpa [hextra'] using hcs⟩, List.cons.injEq,
        List.cons.injEq, List.cons.injEq] at hsplit
    obtain ⟨rfl, rfl, hseconds, -⟩ := hsplit
    -- The seconds begin with a digit, so no sign is read in front of them.
    have hrest : ∀ c ∈ (fraction ++ extra).head?, c.isDigit = false := by
      intro c hc
      rcases hfraction with rfl | ⟨f, rfl⟩
      · exact (hextra c (mem_of_mem_head? hc)).1
      · obtain rfl : '.' = c := Option.some.inj hc
        decide
    have htake := takeWhile_of_spells hgs hrest
    rw [hseconds] at htake
    obtain ⟨n, hn, -, -⟩ := parseI64_eq_some.mp hs
    have hsign : takeSign fs = (false, fs) := by
      rcases takeSign_cases fs with ⟨hminus, -⟩ | ⟨hplus, -⟩ | hnone
      · rw [hminus, cons_append, takeWhile_cons_of_neg (by decide)] at htake
        exact absurd htake.symm hgs.nonempty
      · rw [hplus, cons_append, takeWhile_cons_of_neg (by decide)] at htake
        exact absurd htake.symm hgs.nonempty
      · exact hnone
    rw [hsign] at hn
    rw [takeWhile_of_spells hn htail] at htake
    subst htake
    exact ⟨hgh.eq_of_parseI64 hh, hgm.eq_of_parseI64 hm, hgs.eq_of_parseI64 hs⟩

end Spellings

end Dctl.ProofKit.Calendar
