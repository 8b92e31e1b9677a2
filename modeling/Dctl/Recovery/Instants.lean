import Dctl.Cli.TimestampParse
import Dctl.Recovery.Timespec
import Dctl.Store.Instant

/-! What the parser of points in time reads, and that it agrees with the parser of `touch` and with
that of S3's timestamps on every text that two of them read. -/

namespace Dctl.Recovery.Timespec

open ProofKit Calendar List
open Cli (CliError)
open Store.Sftp (Text trim isWhitespace)
open Store.S3.Instant (parseIso8601Utc Fraction Read read_of_parse)

variable {input text rest date tail clock zone head : Text} {hour minute second : Nat}
  {v seconds offset reference : Int}
  {d : Date}

/-- The zone behind a clock: none, a marker for UTC, or an offset whose hours and minutes are
digits. -/
def ZoneSpells (zone : Text) (offset : Int) : Prop :=
  (zone = [] ∨ zone = ['Z'] ∨ zone = ['z']) ∧ offset = 0 ∨
    ∃ sign rest fh fm hours minutes, isOffsetSign sign = true ∧ zone = sign :: rest ∧
      rest.filter (· ≠ ':') = fh ++ fm ∧ Spells fh hours ∧
        (fm = [] ∧ minutes = 0 ∨ Spells fm minutes) ∧
      hours ≤ 23 ∧ minutes ≤ 59 ∧
        offset = (if sign = '-' then -1 else 1) * ((hours : Int) * 3600 + (minutes : Int) * 60)

/-- What is behind a date: none is midnight in UTC. -/
def TailSpells (tail : Text) (hour minute second : Nat) (offset : Int) : Prop :=
  tail = [] ∧ hour = 0 ∧ minute = 0 ∧ second = 0 ∧ offset = 0 ∨
    ∃ sep clock zone, isDateTimeSeparator sep = true ∧ tail = sep :: (clock ++ zone) ∧
      SpellsClock clock hour minute second ∧ ZoneSpells zone offset

/-- A date that exists, spelled in digits, and the time of day behind it. -/
structure CalendarSpelled (text : Text) (d : Date) (hour minute second : Nat) (offset : Int) :
    Prop where
  spelled : ∃ date tail year, text = date ++ tail ∧ SpellsDate date year d.month d.day ∧
    d.year = year ∧
    TailSpells tail hour minute second offset
  hour_le : hour ≤ 23
  minute_le : minute ≤ 59
  second_le : second ≤ 60
  minYear_le : 1970 ≤ d.year
  le_maxYear : d.year ≤ 9999

/-- A count and a unit, as the relative form spells a duration. -/
def RelativeSpelled (text : Text) (seconds : Int) : Prop :=
  ∃ front unit length count, text = front ++ [unit] ∧ (unit, length) ∈ relativeSuffixes ∧
    parseI64 front = some count ∧ 0 ≤ count ∧ seconds = count * length

theorem exists_of_zoneFields {hours minutes : Nat} (h : zoneFields text = .ok (hours, minutes)) :
    ∃ fh fm, text = fh ++ fm ∧ Spells fh hours ∧ (fm = [] ∧ minutes = 0 ∨ Spells fm minutes) := by
  unfold zoneFields at h
  split at h
  · simp only [bind_eq_ok, digits_eq_ok, pure_eq_ok, Prod.mk.injEq] at h
    obtain ⟨n, ⟨hspells, -⟩, rfl, rfl⟩ := h
    exact ⟨text, [], (append_nil text).symm, hspells, .inl ⟨rfl, rfl⟩⟩
  · split at h
    · simp only [bind_eq_ok, digits_eq_ok, pure_eq_ok, Prod.mk.injEq, slice, okOr_eq_ok] at h
      obtain ⟨⟨fh, fm⟩, hsplit, n, ⟨hh, -⟩, m, ⟨hm, -⟩, rfl, rfl⟩ := h
      exact ⟨fh, fm, (splitBytes_eq_some.mp hsplit).1, hh, .inr hm⟩
    · cases h

theorem zoneSpells_of_splitZone (h : splitZone clock = .ok (head, offset)) :
    ∃ zone, clock = head ++ zone ∧ ZoneSpells zone offset := by
  by_cases hutc : clock.getLast? = some 'Z' ∨ clock.getLast? = some 'z'
  · unfold splitZone at h
    rw [if_pos hutc, Except.ok.injEq, Prod.mk.injEq] at h
    obtain ⟨rfl, rfl⟩ := h
    rcases hutc with hZ | hz
    · exact ⟨['Z'], (dropLast_append_getLast? 'Z' hZ).symm, .inl ⟨.inr (.inl rfl), rfl⟩⟩
    · exact ⟨['z'], (dropLast_append_getLast? 'z' hz).symm, .inl ⟨.inr (.inr rfl), rfl⟩⟩
  · obtain ⟨hZ, hz⟩ := not_or.mp hutc
    cases hfind : rfindByte isOffsetSign clock with
    | none =>
      unfold splitZone at h
      rw [if_neg hutc, hfind, Except.ok.injEq, Prod.mk.injEq] at h
      obtain ⟨rfl, rfl⟩ := h
      exact ⟨[], (append_nil clock).symm, .inl ⟨.inl rfl, rfl⟩⟩
    | some i =>
      obtain ⟨front, sign, zone, rfl, hzone, hsign, -⟩ := rfindByte_eq_some.mp hfind
      rw [splitZone_of_sign hsign hzone hZ hz, bind_eq_ok] at h
      obtain ⟨⟨hours, minutes⟩, hfields, h⟩ := h
      dsimp only at h
      split at h
      · cases h
      next hrange =>
        rw [Except.ok.injEq, Prod.mk.injEq] at h
        obtain ⟨rfl, rfl⟩ := h
        obtain ⟨fh, fm, hfilter, hh, hm⟩ := exists_of_zoneFields hfields
        exact ⟨sign :: zone, rfl, .inr ⟨sign, zone, fh, fm, hours, minutes, hsign, rfl, hfilter, hh,
          hm, by omega, by omega, rfl⟩⟩

theorem spellsClock_of_clockFields (h : clockFields text = .ok seconds) : ∃ hour minute second,
    SpellsClock text hour minute second ∧ hour ≤ 23 ∧ minute ≤ 59 ∧ second ≤ 60 ∧
      seconds = ofClock hour minute second := by
  have hsecondsOf : ∀ {hour minute second : Nat}, secondsOf hour minute second = .ok seconds →
      hour ≤ 23 ∧ minute ≤ 59 ∧ second ≤ 60 ∧ seconds = ofClock hour minute second := by
    intro hour minute second h
    rw [secondsOf_eq] at h
    split at h
    · cases h
    next hrange => exact ⟨by omega, by omega, by omega, (Except.ok.inj h).symm⟩
  unfold clockFields at h
  split at h
  next fh fm hsplit =>
    simp only [bind_eq_ok, digits_eq_ok] at h
    obtain ⟨hour, ⟨hh, -⟩, minute, ⟨hm, -⟩, h⟩ := h
    obtain ⟨htext, -⟩ := splitOn_eq_two.mp hsplit
    exact ⟨hour, minute, 0, ⟨fh, fm, hh, hm, .inl ⟨htext, rfl⟩⟩, hsecondsOf h⟩
  next fh fm fs hsplit =>
    simp only [bind_eq_ok, digits_eq_ok] at h
    obtain ⟨hour, ⟨hh, -⟩, minute, ⟨hm, -⟩, second, ⟨hs, -⟩, h⟩ := h
    obtain ⟨htext, -, -, hcolon⟩ := splitOn_eq_three.mp hsplit
    exact ⟨hour, minute, second,
      ⟨fh, fm, hh, hm, .inr ⟨fs, hcolon, spellsSeconds_of_whole hs, htext⟩⟩, hsecondsOf h⟩
  next => cases h

theorem eq_of_instantOf {year month day : Nat} (hdate : parseDate text = .ok (year, month, day))
    (h : instantOf (year, month, day) seconds offset = .ok v) :
    ∃ d : Date, SpellsDate text year d.month d.day ∧
      d.year = year ∧ 1970 ≤ d.year ∧ d.year ≤ 9999 ∧ v = d.number * 86400 + seconds - offset := by
  obtain ⟨hspells, hlo, hhi, d, hyear, rfl, rfl⟩ := parseDate_eq_ok.mp hdate
  have hmonth := d.month_pos
  have hmonth' := d.month_le
  unfold instantOf daysFromCivil at h
  simp only [bind_eq_ok] at h
  obtain ⟨days, hdays, s1, h1, s2, h2, h⟩ := h
  refine ⟨d, hspells, hyear, by omega, by omega, ?_⟩
  rw [eq_of_fitI64 h, eq_of_fitI64 h2, eq_of_fitI64 h1, eq_eraDays_of_ok (by omega) hdays,
    eraDays_eq hmonth hmonth', ← hyear]
  rfl

theorem calendarSpelled_of_parse (h : parseCalendar text = .ok v) : ∃ d hour minute second offset,
    CalendarSpelled text d hour minute second offset ∧
      v = d.number * 86400 + ofClock hour minute second - offset := by
  cases hfind : findByte isDateTimeSeparator text with
  | none =>
    rw [parseCalendar_of_none (findByte_eq_none.mp hfind), bind_eq_ok] at h
    obtain ⟨⟨year, month, day⟩, hdate, h⟩ := h
    obtain ⟨d, hspells, hyear, hlo, hhi, hv⟩ := eq_of_instantOf hdate h
    exact ⟨d, 0, 0, 0, 0, ⟨⟨text, [], year, (append_nil text).symm, hspells, hyear,
      .inl ⟨rfl, rfl, rfl, rfl, rfl⟩⟩, Nat.zero_le _, Nat.zero_le _, Nat.zero_le _, hlo, hhi⟩, hv⟩
  | some i =>
    obtain ⟨date, sep, clock, rfl, hnone, hsep, -⟩ := findByte_eq_some.mp hfind
    rw [parseCalendar_of_separator hsep hnone, bind_eq_ok] at h
    obtain ⟨⟨year, month, day⟩, hdate, h⟩ := h
    rw [bind_eq_ok] at h
    obtain ⟨⟨seconds, offset⟩, hclock, h⟩ := h
    unfold parseClock at hclock
    simp only [bind_eq_ok, pure_eq_ok, Prod.mk.injEq] at hclock
    obtain ⟨⟨head, offset'⟩, hsplit, seconds', hfields, rfl, rfl⟩ := hclock
    obtain ⟨zone, rfl, hzone⟩ := zoneSpells_of_splitZone hsplit
    obtain ⟨hour, minute, second, hspelled, hhour, hminute, hsecond, rfl⟩ :=
      spellsClock_of_clockFields hfields
    obtain ⟨d, hspells, hyear, hlo, hhi, hv⟩ := eq_of_instantOf hdate h
    exact ⟨d, hour, minute, second, offset', ⟨⟨date, _, year, rfl, hspells, hyear,
      .inr ⟨sep, head, zone, hsep, rfl, hspelled, hzone⟩⟩, hhour, hminute, hsecond, hlo, hhi⟩, hv⟩

theorem relativeSpelled_of_parse (h : parseRelative text = .ok seconds) :
    RelativeSpelled text seconds := by
  rcases eq_nil_or_concat text with rfl | ⟨front, unit, rfl⟩
  · cases h
  · rw [concat_eq_append, parseRelative_concat] at h
    simp only [bind_eq_ok, okOr_eq_ok] at h
    obtain ⟨⟨letter, length⟩, hsuffix, count, hcount, h⟩ := h
    have hunit : letter = unit := by simpa using List.find?_some hsuffix
    subst hunit
    split at h
    · cases h
    next hpos =>
      exact ⟨front, letter, length, count, concat_eq_append, mem_of_find?_eq_some hsuffix, hcount,
        by omega, eq_of_fitI64 h⟩

theorem spelled_of_parse (h : parse input reference = .ok v) :
    (trim input).map Char.toLower = ['n', 'o', 'w'] ∧ v = reference ∨
      (∃ rest, trim input = '@' :: rest ∧ parseI64 (trim rest) = some v) ∨
      (∃ seconds, RelativeSpelled (trim input) seconds ∧ v = reference - seconds) ∨
      ∃ d hour minute second offset, CalendarSpelled (trim input) d hour minute second offset ∧
        v = d.number * 86400 + ofClock hour minute second - offset := by
  unfold parse at h
  dsimp only at h
  split at h
  · cases h
  · split at h
    next hnow => exact .inl ⟨hnow, (Except.ok.inj h).symm⟩
    · split at h
      next rest hrest => exact .inr (.inl ⟨rest, hrest, okOr_eq_ok.mp h⟩)
      · split at h
        next seconds hseconds =>
          split at h
          · exact .inr
              (.inr (.inl ⟨seconds, relativeSpelled_of_parse hseconds, (Except.ok.inj h).symm⟩))
          · cases h
        · cases h
        · exact .inr (.inr (.inr (calendarSpelled_of_parse (mapError_eq_ok.mp h))))

theorem ZoneSpells.cases (h : ZoneSpells zone offset) :
    (∀ c ∈ zone, c.isDigit = false ∧ c ≠ ':') ∧ offset = 0 ∨
    ∃ sign rest, zone = sign :: rest ∧ isOffsetSign sign = true ∧ ∀ c ∈ rest,
      c.isDigit = true ∨ c = ':' := by
  rcases h with ⟨hutc, rfl⟩ | ⟨sign, rest, fh, fm, hours, minutes, hsign, rfl, hfilter, hh, hm, -⟩
  · refine .inl ⟨?_, rfl⟩
    have hplain : ∀ c ∈ zone, (!c.isDigit && c != ':') = true := by
      rw [← all_eq_true]
      rcases hutc with rfl | rfl | rfl <;> decide
    exact fun c hc => by simpa using hplain c hc
  · refine .inr ⟨sign, rest, rfl, hsign, fun c hc => ?_⟩
    by_cases hcolon : c = ':'
    · exact .inr hcolon
    · have hmem : c ∈ fh ++ fm := hfilter ▸ mem_filter.mpr ⟨hc, decide_eq_true hcolon⟩
      left
      rcases mem_append.mp hmem with hmem | hmem
      · exact hh.digits c hmem
      · rcases hm with ⟨rfl, -⟩ | hm
        · cases hmem
        · exact hm.digits c hmem

theorem exists_around (clock : Text) : ∃ front back,
    clock = front ++ (trim (clock.rdropWhile Cli.Touch.isUtcSuffix) ++ back) ∧
      (∀ c ∈ front, isWhitespace c = true) ∧
      ∀ c ∈ back, isWhitespace c = true ∨ Cli.Touch.isUtcSuffix c = true := by
  obtain ⟨front, back, heq, hfront, hback⟩ :=
    Cli.Touch.exists_trim (clock.rdropWhile Cli.Touch.isUtcSuffix)
  refine ⟨front, back ++ clock.rtakeWhile Cli.Touch.isUtcSuffix, ?_, hfront, fun c hc => ?_⟩
  · conv_lhs => rw [← rdropWhile_append_rtakeWhile (p := Cli.Touch.isUtcSuffix) (l := clock), heq]
    simp only [append_assoc]
  · exact (mem_append.mp hc).imp (hback c) mem_rtakeWhile_imp

theorem not_field_of_edge {c : Char} (h : isWhitespace c = true ∨ Cli.Touch.isUtcSuffix c = true) :
    c.isDigit = false ∧ c ≠ ':' ∧ isOffsetSign c = false := by
  rcases h with h | h
  · refine ⟨?_, ?_, ?_⟩
    · by_contra hdigit
      rw [Cli.Touch.not_whitespace_of_digit (Bool.not_eq_false _ ▸ hdigit)] at h
      cases h
    · rintro rfl
      exact absurd h (by decide)
    · by_contra hsign
      rw [Bool.not_eq_false] at hsign
      have hcases : c = '+' ∨ c = '-' := by simpa [isOffsetSign] using hsign
      rcases hcases with rfl | rfl
      · exact absurd h (by decide)
      · exact absurd h (by decide)
  · have hcases : c = 'Z' ∨ c = 'z' := by simpa [Cli.Touch.isUtcSuffix] using h
    rcases hcases with rfl | rfl <;> decide

theorem eq_nil_of_front {front a b : Text} {c : Char} (hfront : ∀ x ∈ front, isWhitespace x = true)
    (hc : isWhitespace c = false) (h : front ++ a = c :: b) : front = [] := by
  cases front with
  | nil => rfl
  | cons x front =>
    obtain ⟨rfl, -⟩ := List.cons.inj h
    rw [hfront x mem_cons_self] at hc
    cases hc

theorem CalendarSpelled.split {a b : Text} {sep : Char}
    (h : CalendarSpelled text d hour minute second offset) (htext : text = a ++ sep :: b)
    (ha : ∀ c ∈ a, isDateTimeSeparator c = false) (hsep : isDateTimeSeparator sep = true) :
    ∃ year clock zone, SpellsDate a year d.month d.day ∧ d.year = year ∧
      b = clock ++ zone ∧ SpellsClock clock hour minute second ∧ ZoneSpells zone offset := by
  obtain ⟨⟨date, tail, year, rfl, hdate, hyear, htail⟩, -, -, -, -, -⟩ := h
  have hplain : ∀ c ∈ date, isDateTimeSeparator c = false :=
    fun c hc => not_separator (hdate.exists_cons.2 c hc)
  rcases htail with ⟨rfl, -⟩ | ⟨sep', clock, zone, hsep', rfl, hclock, hzone⟩
  · rw [append_nil] at htext
    rw [hplain sep (by rw [htext]; simp)] at hsep
    cases hsep
  · obtain ⟨rfl, -, rfl⟩ := append_cons_inj hplain ha hsep' hsep htext
    exact ⟨year, clock, zone, hdate, hyear, rfl, hclock, hzone⟩

theorem split_of_touch {a b : Text} {sep : Char}
    (h : Cli.Touch.CalendarSpelled text d hour minute second) (htext : text = a ++ sep :: b)
    (ha : ∀ c ∈ a, isDateTimeSeparator c = false) (hsep : isDateTimeSeparator sep = true) :
    ∃ year, SpellsDate a year d.month d.day ∧ d.year = year ∧
      ((∀ c ∈ b, isWhitespace c = true ∨ Cli.Touch.isUtcSuffix c = true) ∧ hour = 0 ∧
        minute = 0 ∧ second = 0 ∨
        ∃ front time back, b = front ++ (time ++ back) ∧ (∀ c ∈ front, isWhitespace c = true) ∧
          (∀ c ∈ back, isWhitespace c = true ∨ Cli.Touch.isUtcSuffix c = true) ∧
          Cli.Touch.ClockSpelled time hour minute second) := by
  obtain ⟨⟨date, tail, year, rfl, hdate, hyear, htail⟩, -, -, -, -, -⟩ := h
  have hplain : ∀ c ∈ date, isDateTimeSeparator c = false :=
    fun c hc => not_separator (hdate.exists_cons.2 c hc)
  rcases htail with ⟨hutc, -⟩ | ⟨sep', clock, hsep', rfl, htime⟩
  · have hmem : sep ∈ date ++ tail := by rw [htext]; simp
    rcases mem_append.mp hmem with hmem | hmem
    · rw [hplain sep hmem] at hsep
      cases hsep
    · have hcases : sep = 'Z' ∨ sep = 'z' := by simpa [Cli.Touch.isUtcSuffix] using hutc sep hmem
      rcases hcases with rfl | rfl <;> cases hsep
  · obtain ⟨rfl, -, rfl⟩ := append_cons_inj hplain ha hsep' hsep htext
    obtain ⟨front, back, hclock, hfront, hback⟩ := exists_around clock
    refine ⟨year, hdate, hyear, ?_⟩
    rcases htime with ⟨hnil, hzero⟩ | htime
    · rw [hnil, nil_append] at hclock
      refine .inl ⟨fun c hc => ?_, hzero⟩
      rw [hclock] at hc
      exact (mem_append.mp hc).elim (fun hc => .inl (hfront c hc)) (hback c)
    · exact .inr ⟨front, _, back, hclock, hfront, hback, htime⟩

theorem date_eq {d' : Date} {year year' : Nat} (h : SpellsDate date year d.month d.day)
    (h' : SpellsDate date year' d'.month d'.day) (hyear : d.year = year)
      (hyear' : d'.year = year') :
    d = d' := by
  obtain ⟨rfl, hmonth, hday⟩ := h.unique h'
  exact Date.ext (hyear.trans hyear'.symm) hmonth hday

theorem clock_eq {a b x y : Text} {hour' minute' second' : Nat}
    (h : SpellsClock a hour minute second) (h' : SpellsClock b hour' minute' second')
    (hx : ∀ c ∈ x, c.isDigit = false ∧ c ≠ ':') (hy : ∀ c ∈ y, c.isDigit = false ∧ c ≠ ':')
    (heq : a ++ x = b ++ y) : hour = hour' ∧ minute = minute' ∧ second = second' := by
  rcases append_eq_append_iff.mp heq with ⟨e, rfl, rfl⟩ | ⟨e, rfl, rfl⟩
  · exact h.unique h' fun c hc => hx c (mem_append_left _ hc)
  · obtain ⟨hh, hm, hs⟩ := h'.unique h fun c hc => hy c (mem_append_left _ hc)
    exact ⟨hh.symm, hm.symm, hs.symm⟩

theorem calendar_of_parse {c : Char} {more : Text} (htrim : trim input = c :: more)
    (hc : c.isDigit = true) (hminus : '-' ∈ more) (h : parse input reference = .ok v) :
    ∃ d hour minute second offset,
      CalendarSpelled (trim input) d hour minute second offset ∧
        v = d.number * 86400 + ofClock hour minute second - offset := by
  rcases spelled_of_parse h with ⟨hnow, -⟩ | ⟨rest, hat, -⟩ |
    ⟨seconds, ⟨front, unit, length, count, hfront, hunit, hcount, -⟩, -⟩ |
    hcalendar
  · rw [htrim, map_cons] at hnow
    have hlower : ∀ x ∈ more.map Char.toLower, x ≠ '-' := by
      rw [(List.cons.inj hnow).2]
      simp
    exact absurd rfl (hlower '-' (mem_map.mpr ⟨'-', hminus, by decide⟩))
  · rw [htrim] at hat
    rw [(List.cons.inj hat).1] at hc
    cases hc
  · rw [htrim] at hfront
    cases front with
    | nil =>
      obtain ⟨-, rfl⟩ := List.cons.inj hfront
      cases hminus
    | cons x front =>
      obtain ⟨rfl, rfl⟩ := List.cons.inj hfront
      have hmem : '-' ∈ front := by
        rcases mem_append.mp hminus with hmem | hmem
        · exact hmem
        · rw [← mem_singleton.mp hmem] at hunit
          revert hunit
          simp [relativeSuffixes]
      rw [parseI64_of_digit hc hmem] at hcount
      cases hcount
  · exact hcalendar

theorem touch_agrees {t : Cli.Touch.Timestamp} (ht : Cli.Touch.Timestamp.parse input = .ok t)
    (h : parse input reference = .ok v) : t.seconds = v := by
  rcases Cli.Touch.spelled_of_parse ht with ⟨rest, hat, hseconds⟩ |
    ⟨d, hour, minute, second, hspelled, hseconds⟩
  · rcases spelled_of_parse h with ⟨hnow, -⟩ | ⟨rest', hat', hv⟩ |
      ⟨seconds, ⟨front, unit, length, count, hfront, -, hcount, -⟩, -⟩ |
      ⟨d, hour, minute, second, offset, hspelled, -⟩
    · rw [hat, map_cons] at hnow
      exact absurd (List.cons.inj hnow).1 (by decide)
    · rw [hat] at hat'
      rw [← (List.cons.inj hat').2, hseconds] at hv
      exact Option.some.inj hv
    · obtain ⟨c, more, rfl, hc⟩ := exists_cons_of_parseI64 hcount
      rw [hat] at hfront
      obtain ⟨rfl, -⟩ := List.cons.inj hfront
      rcases hc with hc | hc | hc <;> cases hc
    · obtain ⟨date, tail, year, htext, hdate, -⟩ := hspelled.spelled
      obtain ⟨⟨c, more, rfl, hc, -⟩, -⟩ := hdate.exists_cons
      rw [hat] at htext
      rw [← (List.cons.inj htext).1] at hc
      cases hc
  · obtain ⟨date, tail, year, htext, hdate, hyear, htail⟩ := hspelled.spelled
    obtain ⟨⟨c, more, rfl, hc, hminus⟩, hplain⟩ := hdate.exists_cons
    obtain ⟨d', hour', minute', second', offset, hspelled', hv⟩ := calendar_of_parse htext hc
      (mem_append_left _ hminus) h
    rw [hseconds, hv]
    have hcases : (∀ c ∈ trim input, isDateTimeSeparator c = false) ∨
        ∃ a sep b, trim input = a ++ sep :: b ∧
        (∀ c ∈ a, isDateTimeSeparator c = false) ∧ isDateTimeSeparator sep = true :=
          Cli.Touch.separator_cases _
    rcases hcases with hnone | ⟨a, sep, b, hsplit, ha, hsep⟩
    · obtain ⟨date', tail', year', htext', hdate', hyear', htail'⟩ := hspelled'.spelled
      rcases htail with ⟨hutc, rfl, rfl, rfl⟩ | ⟨sep, clock, hsep, rfl, -⟩
      · rcases htail' with ⟨rfl, rfl, rfl, rfl, rfl⟩ | ⟨sep, clock, zone, hsep, rfl, -⟩
        · -- Markers for UTC are part of no date.
          have hnil : tail = [] := by
            refine eq_nil_iff_forall_not_mem.mpr fun x hx => ?_
            have hcases : x = 'Z' ∨ x = 'z' := by simpa [Cli.Touch.isUtcSuffix] using hutc x hx
            have hin : x ∈ date' := by
              rw [append_nil] at htext'
              rw [← htext', htext]
              exact mem_append_right _ hx
            rcases hcases with rfl | rfl <;> rcases hdate'.exists_cons.2 _ hin with hx |
              hx <;> cases hx
          rw [hnil, append_nil] at htext
          rw [append_nil, htext] at htext'
          subst htext'
          rw [date_eq hdate hdate' hyear hyear']
          show _ = _ + ofClock 0 0 0 - 0
          rw [Int.sub_zero]
          rfl
        · rw [hnone sep (by rw [htext']; simp)] at hsep
          cases hsep
      · have hsep' : isDateTimeSeparator sep = true := hsep
        rw [hnone sep (by rw [htext]; simp)] at hsep'
        cases hsep'
    · obtain ⟨year₁, hdate₁, hyear₁, htime⟩ := split_of_touch hspelled hsplit ha hsep
      obtain ⟨year₂, clock, zone, hdate₂, hyear₂, rfl, hclock, hzone⟩ :=
        hspelled'.split hsplit ha hsep
      obtain ⟨x, xs, hx, hdigit, hcolon⟩ := hclock.exists_cons
      rw [date_eq hdate₁ hdate₂ hyear₁ hyear₂]
      rcases htime with ⟨hedge, -⟩ | ⟨front, time, back, heq, hfront, hback, htime⟩
      · have hin := hedge ':' (by rw [hx]; simp [hcolon])
        exact absurd rfl (not_field_of_edge hin).2.1
      · have hwhite := Cli.Touch.not_whitespace_of_digit hdigit
        obtain rfl : front = [] := eq_nil_of_front hfront hwhite (heq.symm.trans (by rw [hx]; rfl))
        rw [nil_append] at heq
        rcases hzone.cases with ⟨hzoneless, rfl⟩ | ⟨sign, rest, rfl, hsign, -⟩
        · obtain ⟨rfl, rfl, rfl⟩ := clock_eq htime.spelled hclock
            (fun c hc => ⟨(not_field_of_edge (hback c hc)).1, (not_field_of_edge (hback c hc)).2.1⟩)
              hzoneless heq.symm
          rw [Int.sub_zero]
          rfl
        · have hin : sign ∈ time ++ back := by rw [← heq]; simp
          rcases mem_append.mp hin with hin | hin
          · have hcases : sign = '+' ∨ sign = '-' := by simpa [isOffsetSign] using hsign
            rcases hcases with rfl | rfl <;> rcases htime.plain _ hin with h | h | h <;> cases h
          · rw [(not_field_of_edge (hback sign hin)).2.2] at hsign
            cases hsign

theorem fraction_plain (h : Fraction tail) : ':' ∉ tail ∧ (∀ c ∈ tail.head?, c.isDigit = false) ∧
    tail.getLast? = some 'Z' := by
  rcases h with rfl | ⟨f, -, hdigits, rfl⟩
  · refine ⟨by decide, ?_, rfl⟩
    rintro c ⟨⟩
    decide
  · refine ⟨?_, ?_, ?_⟩
    · simp only [mem_cons, mem_append]
      rintro (h | h | h | h)
      · cases h
      · cases hdigits ':' h
      · cases h
      · cases h
    · intro c hc
      obtain rfl : '.' = c := Option.some.inj hc
      decide
    · rw [← cons_append, List.getLast?_concat]

theorem split_of_read (h : Read input v) :
    ∃ fy fm fd fh fi fs tail year month day hour minute second,
    trim input = (fy ++ '-' :: (fm ++ '-' :: fd)) ++ 'T' ::
      (fh ++ ':' :: (fi ++ ':' :: (fs ++ tail))) ∧
      (∀ c ∈ fy ++ '-' :: (fm ++ '-' :: fd), isDateTimeSeparator c = false) ∧
        parseI64 fy = some year ∧
      parseI64 fm = some month ∧ parseI64 fd = some day ∧ parseI64 fh = some hour ∧
        parseI64 fi = some minute ∧
      parseI64 fs = some second ∧ Fraction tail ∧
      v = eraDays year month day * 86400 + hour * 3600 + minute * 60 + second := by
  obtain ⟨fy, fm, fd, fh, fi, fs, tail, year, month, day, hour, minute, second, htext, hy, hm, hd,
    hh, hi, hs, htail, -, -, -, -, -, -, -, hv⟩ := h.fields
  refine ⟨fy, fm, fd, fh, fi, fs, tail, year, month, day, hour, minute, second, ?_, fun c hc => ?_,
    hy, hm, hd, hh, hi, hs, htail, hv⟩
  · rw [Cli.Touch.trim_eq_self, htext]
    · simp only [append_assoc, cons_append]
    · intro c hc
      obtain ⟨x, more, rfl, hx⟩ := exists_cons_of_parseI64 hy
      rw [htext] at hc
      obtain rfl : x = c := Option.some.inj hc
      rcases hx with hx | rfl | rfl
      · exact Cli.Touch.not_whitespace_of_digit hx
      · decide
      · decide
    · intro c hc
      have hlast : input.getLast? = some 'Z' := by
        obtain ⟨front, hfront⟩ := List.getLast?_eq_some_iff.mp (fraction_plain htail).2.2
        rw [htext, hfront]
        refine List.getLast?_eq_some_iff.mpr
          ⟨fy ++ '-' :: (fm ++ '-' :: (fd ++ 'T' :: (fh ++ ':' :: (fi ++ ':' ::
          (fs ++ front))))), ?_⟩
        simp only [append_assoc, cons_append]
      obtain rfl : 'Z' = c := Option.some.inj (hlast.symm.trans hc)
      decide
  · have hplain : ∀ {f : Text} {z : Int}, parseI64 f = some z → c ∈ f →
        isDateTimeSeparator c = false := by
      intro f z hf hmem
      rcases mem_of_parseI64 hf hmem with hc | rfl | rfl
      · exact not_separator (.inl hc)
      · decide
      · decide
    simp only [mem_append, mem_cons] at hc
    rcases hc with hc | rfl | hc | rfl | hc
    · exact hplain hy hc
    · decide
    · exact hplain hm hc
    · decide
    · exact hplain hd hc

theorem instant_eq {y : Nat} {fy fm fd : Text} {year month day u u' u'' : Int}
    (hdate : SpellsDate (fy ++ '-' :: (fm ++ '-' :: fd)) y d.month d.day) (hyear : d.year = y)
    (hy : parseI64 fy = some year) (hm : parseI64 fm = some month) (hd : parseI64 fd = some day)
    (hclock : u = hour ∧ u' = minute ∧ u'' = second) :
    d.number * 86400 + ofClock hour minute second = eraDays year month day * 86400 + u * 3600 +
      u' * 60 + u'' := by
  obtain ⟨rfl, rfl, rfl⟩ := hdate.eq_of_parseI64 hy hm hd
  obtain ⟨rfl, rfl, rfl⟩ := hclock
  rw [eraDays_eq d.month_pos d.month_le, ← hyear]
  unfold ofClock Date.number
  omega

theorem not_whitespace_of_parseI64 {f : Text} {c : Char} {more : Text} {z : Int}
    (h : parseI64 f = some z) (hf : f = c :: more) : isWhitespace c = false := by
  rcases mem_of_parseI64 h (c := c) (by rw [hf]; exact mem_cons_self) with hc | rfl | rfl
  · exact Cli.Touch.not_whitespace_of_digit hc
  · decide
  · decide

theorem touch_agrees_s3 {t : Cli.Touch.Timestamp} (ht : Cli.Touch.Timestamp.parse input = .ok t)
    (h : parseIso8601Utc input = .ok v) : t.seconds = v := by
  obtain ⟨fy, fm, fd, fh, fi, fs, tail, year, month, day, u, u', u'', htext, ha, hy, hm, hd, hh, hi,
    hs, htail, rfl⟩ :=
    split_of_read (read_of_parse h)
  rcases Cli.Touch.spelled_of_parse ht with ⟨rest, hat, -⟩ |
    ⟨d, hour, minute, second, hspelled, hseconds⟩
  · obtain ⟨c, more, rfl, hc⟩ := exists_cons_of_parseI64 hy
    rw [hat] at htext
    obtain ⟨rfl, -⟩ := List.cons.inj htext
    rcases hc with hc | hc | hc <;> cases hc
  · obtain ⟨y, hdate, hyear, htime⟩ := split_of_touch hspelled htext ha (by decide)
    rw [hseconds]
    rcases htime with ⟨hedge, -⟩ | ⟨front, time, back, heq, hfront, hback, htime⟩
    · exact absurd rfl (not_field_of_edge (hedge ':' (by simp))).2.1
    · obtain ⟨c, more, hfh, -⟩ := exists_cons_of_parseI64 hh
      obtain rfl : front = [] := eq_nil_of_front hfront (not_whitespace_of_parseI64 hh hfh)
        (heq.symm.trans (by rw [hfh]; rfl))
      have hplain := fraction_plain htail
      exact instant_eq hdate hyear hy hm hd (htime.spelled.eq_of_parseI64
        (fun c hc => ⟨(not_field_of_edge (hback c hc)).1, (not_field_of_edge (hback c hc)).2.1⟩)
          heq.symm hh hi hs
        hplain.1 hplain.2.1)

/-- What the parser of points in time and S3's both read is one instant. -/
theorem agrees_s3 {b : Int} (hb : parse input reference = .ok b)
    (h : parseIso8601Utc input = .ok v) :
    b = v := by
  obtain ⟨fy, fm, fd, fh, fi, fs, tail, year, month, day, u, u', u'', htext, ha, hy, hm, hd, hh, hi,
    hs, htail, rfl⟩ :=
    split_of_read (read_of_parse h)
  have hplain := fraction_plain htail
  obtain ⟨front, rfl⟩ := List.getLast?_eq_some_iff.mp hplain.2.2
  rcases spelled_of_parse hb with ⟨hnow, -⟩ | ⟨rest, hat, -⟩ |
    ⟨seconds, ⟨before, unit, length, count, hbefore, hunit, -⟩, -⟩ |
    ⟨d, hour, minute, second, offset, hspelled, rfl⟩
  · have hlower : '-' ∈ (trim input).map Char.toLower :=
      mem_map.mpr ⟨'-', by rw [htext]; simp, by decide⟩
    rw [hnow] at hlower
    exact absurd hlower (by decide)
  · obtain ⟨c, more, rfl, hc⟩ := exists_cons_of_parseI64 hy
    rw [hat] at htext
    obtain ⟨rfl, -⟩ := List.cons.inj htext
    rcases hc with hc | hc | hc <;> cases hc
  · -- The last character of the value is no unit.
    have hlast : (trim input).getLast? = some 'Z' := by
      rw [htext]
      refine List.getLast?_eq_some_iff.mpr ⟨(fy ++ '-' :: (fm ++ '-' :: fd)) ++ 'T' ::
        (fh ++ ':' :: (fi ++ ':' :: (fs ++ front))), ?_⟩
      simp only [append_assoc, cons_append]
    rw [hbefore, List.getLast?_concat, Option.some.injEq] at hlast
    rw [hlast] at hunit
    revert hunit
    simp [relativeSuffixes]
  · obtain ⟨y, clock, zone, hdate, hyear, heq, hclock, hzone⟩ := hspelled.split htext ha (by decide)
    rcases hzone.cases with ⟨hzoneless, rfl⟩ | ⟨sign, rest, rfl, hsign, hrest⟩
    · rw [Int.sub_zero]
      exact instant_eq hdate hyear hy hm hd
        (hclock.eq_of_parseI64 hzoneless heq.symm hh hi hs hplain.1 hplain.2.1)
    · -- An offset does not end in the marker for UTC.
      have hlast : (clock ++ sign :: rest).getLast? = some 'Z' := by
        rw [← heq]
        refine List.getLast?_eq_some_iff.mpr ⟨fh ++ ':' :: (fi ++ ':' :: (fs ++ front)), ?_⟩
        simp only [append_assoc, cons_append]
      rw [List.getLast?_append_of_ne_nil _ (cons_ne_nil sign rest)] at hlast
      rcases mem_cons.mp (mem_of_getLast? hlast) with rfl | hmem
      · cases hsign
      · rcases hrest 'Z' hmem with hZ | hZ <;> cases hZ

/-- Any two of the parsers read one instant from a text that both read; and `touch` and the parser
of points in time read no date but those that exist, in fields of digits. -/
theorem parsers_agree (input : Text) (reference : Int) :
    (∀ t v, Cli.Touch.Timestamp.parse input = .ok t → parse input reference = .ok v →
      t.seconds = v) ∧
    (∀ t v, Cli.Touch.Timestamp.parse input = .ok t → parseIso8601Utc input = .ok v →
      t.seconds = v) ∧
    (∀ u v, parse input reference = .ok u → parseIso8601Utc input = .ok v → u = v) ∧
    (∀ t, Cli.Touch.Timestamp.parse input = .ok t →
      (∃ rest, trim input = '@' :: rest ∧ parseI64 (trim rest) = some t.seconds) ∨
      ∃ d hour minute second, Cli.Touch.CalendarSpelled (trim input) d hour minute second ∧
        t.seconds = d.number * 86400 + ofClock hour minute second) ∧
    ∀ v, parse input reference = .ok v →
      (trim input).map Char.toLower = ['n', 'o', 'w'] ∧ v = reference ∨
      (∃ rest, trim input = '@' :: rest ∧ parseI64 (trim rest) = some v) ∨
      (∃ seconds, RelativeSpelled (trim input) seconds ∧ v = reference - seconds) ∨
      ∃ d hour minute second offset, CalendarSpelled (trim input) d hour minute second offset ∧
        v = d.number * 86400 + ofClock hour minute second - offset :=
  ⟨fun _ _ ht h => touch_agrees ht h, fun _ _ ht h => touch_agrees_s3 ht h,
    fun _ _ hu h => agrees_s3 hu h,
    fun _ ht => Cli.Touch.spelled_of_parse ht, fun _ h => spelled_of_parse h⟩

/-- A second of the year 2010. -/
def sharedInput : Text := "2010-11-10T20:48:33Z".toList

theorem parsers_agree_sharedInput : ∃ t, Cli.Touch.Timestamp.parse sharedInput = .ok t ∧
    parse sharedInput 0 = .ok 1289422113 ∧ parseIso8601Utc sharedInput = .ok 1289422113 ∧
      t.seconds = 1289422113 := by
  obtain ⟨htouch, -⟩ := parsers_agree sharedInput 0
  have hparse : parse sharedInput 0 = .ok 1289422113 := by decide
  have ht : Cli.Touch.Timestamp.parse sharedInput = .ok ⟨1289422113, by decide⟩ := by decide
  exact ⟨_, ht, hparse, by decide, htouch _ _ ht hparse⟩

/-- A number of seconds with a sign, a day that February does not have, and a year with a sign are
read. -/
theorem read_signed_or_impossible :
    (∃ t, Cli.Touch.Timestamp.parse "@-5".toList = .ok t) ∧ (∃ v, parse "@-5".toList 0 = .ok v) ∧
    (∃ v, parseIso8601Utc "2023-02-31T00:00:00Z".toList = .ok v) ∧
      (¬∃ d : Date, d.year = 2023 ∧ d.month = 2 ∧ d.day = 31) ∧
    ∃ v, parseIso8601Utc "+123-05-01T00:00:00Z".toList = .ok v := by
  refine ⟨⟨⟨-5, by decide⟩, by decide⟩, ⟨-5, by decide⟩, ⟨1677801600, by decide⟩, ?_,
    ⟨-58275331200, by decide⟩⟩
  rintro ⟨d, hyear, hmonth, hday⟩
  have hle := d.day_le
  rw [hyear, hmonth, hday] at hle
  exact absurd hle (by decide)

end Dctl.Recovery.Timespec
