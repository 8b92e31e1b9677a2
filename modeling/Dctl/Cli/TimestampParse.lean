import Dctl.Cli.Timestamp

/-! What the parser of `touch` reads: the instants that a text can spell, and that each instant that
is printed is read back. -/

namespace Dctl.Cli.Touch

open ProofKit Calendar List
open Store.Sftp (Text trim isWhitespace)

variable {text input rest : Text} {year month day hour minute second n bound : Nat} {t : Timestamp}

theorem exists_trim (text : Text) : ∃ front back, text = front ++ (trim text ++ back) ∧
    (∀ c ∈ front, isWhitespace c = true) ∧ ∀ c ∈ back, isWhitespace c = true := by
  obtain ⟨rest, hrest⟩ : ∃ rest, rest = (text.dropWhile isWhitespace).reverse := ⟨_, rfl⟩
  refine ⟨text.takeWhile isWhitespace, (rest.takeWhile isWhitespace).reverse, ?_, fun c hc => ?_,
    fun c hc => ?_⟩
  · rw [trim, ← hrest, ← reverse_append, takeWhile_append_dropWhile, hrest, reverse_reverse,
      takeWhile_append_dropWhile]
  · exact mem_takeWhile_imp hc
  · exact mem_takeWhile_imp (mem_reverse.mp hc)

theorem trim_eq_self (hfirst : ∀ c ∈ text.head?, isWhitespace c = false)
    (hlast : ∀ c ∈ text.getLast?, isWhitespace c = false) : trim text = text := by
  have hdrop : ∀ {l : Text}, (∀ c ∈ l.head?, isWhitespace c = false) →
      l.dropWhile isWhitespace = l := by
    intro l hl
    cases l with
    | nil => rfl
    | cons c l =>
      rw [dropWhile_cons_of_neg]
      rw [hl c rfl]
      decide
  rw [trim, hdrop hfirst, hdrop, reverse_reverse]
  rwa [List.head?_reverse]

theorem digits_eq_ok : digits bound text input = .ok n ↔ Spells text n ∧ n < bound := by
  rw [digits, okOr_eq_ok, digitsBelow_eq_some]

theorem parseDate_eq_ok {y : Int} :
    parseDate text input = .ok (y, month, day) ↔ ∃ year : Nat, y = year ∧
    SpellsDate text year month day ∧ year < 2 ^ 63 ∧ month < 2 ^ 32 ∧ day < 2 ^ 32 := by
  unfold parseDate
  constructor
  · intro h
    split at h
    next fy fm fd hsplit =>
      simp only [bind_eq_ok, pure_eq_ok, digits_eq_ok, Prod.mk.injEq] at h
      obtain ⟨n, ⟨hy, hyear⟩, m, ⟨hm, hmonth⟩, d, ⟨hd, hday⟩, rfl, rfl, rfl⟩ := h
      exact ⟨n, rfl, ⟨fy, fm, fd, (splitOn_eq_three.mp hsplit).1, hy, hm, hd⟩, hyear, hmonth, hday⟩
    next => cases h
  · rintro ⟨n, rfl, hdate, hyear, hmonth, hday⟩
    obtain ⟨fy, fm, fd, hsplit, hy, hm, hd⟩ := hdate.splitOn
    rw [hsplit]
    simp only [bind_eq_ok, pure_eq_ok, digits_eq_ok, Prod.mk.injEq]
    exact ⟨n, ⟨hy, hyear⟩, month, ⟨hm, hmonth⟩, day, ⟨hd, hday⟩, rfl, rfl, rfl⟩

theorem spellsSeconds_of_wholeSeconds (h : wholeSeconds text input = .ok n) :
    SpellsSeconds text n ∧ ∀ c ∈ text, c.isDigit = true ∨ c = '.' := by
  have hfields : Spells (text.takeWhile (· ≠ '.')) n ∧
      ∀ c ∈ (text.dropWhile (· ≠ '.')).drop 1, c.isDigit = true := by
    unfold wholeSeconds at h
    dsimp only at h
    split at h
    · simp only [bind_eq_ok, digits_eq_ok] at h
      obtain ⟨m, ⟨hfraction, -⟩, hspells, -⟩ := h
      exact ⟨hspells, hfraction.digits⟩
    next hnone =>
      simp only [digits_eq_ok] at h
      rw [not_not.mp hnone]
      exact ⟨h.1, forall_mem_nil _⟩
  refine ⟨spellsSeconds_of_whole hfields.1, fun x hx => ?_⟩
  rw [← takeWhile_append_dropWhile (p := (· ≠ '.')) (l := text), mem_append] at hx
  rcases hx with hx | hx
  · exact .inl (hfields.1.digits x hx)
  · rcases dropWhile_point text with hnil | ⟨f, hf⟩
    · rw [hnil] at hx
      cases hx
    · rw [hf] at hx hfields
      rcases mem_cons.mp hx with rfl | hx
      · exact .inr rfl
      · exact .inl (hfields.2 x hx)

/-- A time of day in its range, and nothing in it but digits and what separates them. -/
structure ClockSpelled (text : Text) (hour minute second : Nat) : Prop where
  spelled : SpellsClock text hour minute second
  hour_le : hour ≤ 23
  minute_le : minute ≤ 59
  second_le : second ≤ 59
  plain : ∀ c ∈ text, c.isDigit = true ∨ c = ':' ∨ c = '.'

theorem clockSpelled_of_parseTime (h : parseTime text input = .ok (hour, minute, second)) :
    ClockSpelled text hour minute second := by
  unfold parseTime at h
  split at h
  · cases h
  · have hfields : ∀ fh fm second', timeFields fh fm second' input = .ok (hour, minute, second) →
        Spells fh hour ∧ Spells fm minute ∧ hour ≤ 23 ∧ minute ≤ 59 ∧ second ≤ 59 ∧
          (second' = none ∧ second = 0 ∨ ∃ s, second' = some s ∧ SpellsSeconds s second ∧
            ∀ c ∈ s, c.isDigit = true ∨ c = '.') := by
      intro fh fm second' h
      unfold timeFields at h
      cases second' with
      | none =>
        simp only [bind_eq_ok, digits_eq_ok, pure_eq_ok] at h
        obtain ⟨n, ⟨hh, -⟩, m, ⟨hm, -⟩, s, rfl, h⟩ := h
        split at h
        · cases h
        next hrange =>
          rw [pure_eq_ok, Prod.mk.injEq, Prod.mk.injEq] at h
          obtain ⟨rfl, rfl, rfl⟩ := h
          exact ⟨hh, hm, by omega, by omega, by omega, .inl ⟨rfl, rfl⟩⟩
      | some f =>
        simp only [bind_eq_ok, digits_eq_ok] at h
        obtain ⟨n, ⟨hh, -⟩, m, ⟨hm, -⟩, s, hs, h⟩ := h
        split at h
        · cases h
        next hrange =>
          rw [pure_eq_ok, Prod.mk.injEq, Prod.mk.injEq] at h
          obtain ⟨rfl, rfl, rfl⟩ := h
          exact ⟨hh, hm, by omega, by omega, by omega,
            .inr ⟨f, rfl, spellsSeconds_of_wholeSeconds hs⟩⟩
    split at h
    next fh fm hsplit =>
      obtain ⟨hh, hm, hour_le, minute_le, second_le, hcase⟩ := hfields fh fm none h
      obtain ⟨-, rfl⟩ := hcase.resolve_right (by simp)
      obtain ⟨rfl, -⟩ := splitOn_eq_two.mp hsplit
      refine ⟨⟨fh, fm, hh, hm, .inl ⟨rfl, rfl⟩⟩, hour_le, minute_le, second_le, fun c hc => ?_⟩
      rcases mem_append.mp hc with hc | hc
      · exact .inl (hh.digits c hc)
      · rcases mem_cons.mp hc with rfl | hc
        · exact .inr (.inl rfl)
        · exact .inl (hm.digits c hc)
    next fh fm fs hsplit =>
      obtain ⟨hh, hm, hour_le, minute_le, second_le, hcase⟩ := hfields fh fm (some fs) h
      obtain ⟨s, hsome, hs, hplain⟩ := hcase.resolve_left (by simp)
      obtain rfl := Option.some.inj hsome
      obtain ⟨rfl, -, -, hcolon⟩ := splitOn_eq_three.mp hsplit
      refine ⟨⟨fh, fm, hh, hm, .inr ⟨fs, hcolon, hs, rfl⟩⟩, hour_le, minute_le, second_le,
        fun c hc => ?_⟩
      simp only [mem_append, mem_cons] at hc
      rcases hc with hc | rfl | hc | rfl | hc
      · exact .inl (hh.digits c hc)
      · exact .inr (.inl rfl)
      · exact .inl (hm.digits c hc)
      · exact .inr (.inl rfl)
      · exact (hplain c hc).imp_right .inr
    next => cases h

def ofClock (hour minute second : Nat) : Int := hour * 3600 + minute * 60 + second

section

variable {d : Date} (hlo : minYear ≤ d.year) (hhi : d.year ≤ maxYear)
include hlo hhi

theorem number_bounds : -2 ^ 40 ≤ d.number ∧ d.number ≤ 2 ^ 40 := by
  have hmin : -2 ^ 40 ≤ yearStart minYear := by decide
  have hmax : yearStart (maxYear + 1) ≤ 2 ^ 40 := by decide
  have hfirst := yearStart_mono hlo
  have hlast := yearStart_mono (Int.add_le_add_right hhi 1)
  have hyear := d.bounds
  omega

theorem fits_of_bounds (hhour : hour ≤ 23) (hminute : minute ≤ 59) (hsecond : second ≤ 59) :
    FitsI64 (d.number * 86400 + ofClock hour minute second) := by
  have hnumber := number_bounds hlo hhi
  unfold FitsI64 ofClock
  omega

theorem instantOf_of_days {y : Int} (hhour : hour ≤ 23) (hminute : minute ≤ 59)
    (hsecond : second ≤ 59) (hdays : daysFromCivil y month day = .ok d.number) :
    instantOf input (y, month, day) (hour, minute, second) =
      .ok ⟨d.number * 86400 + ofClock hour minute second,
        fits_of_bounds hlo hhi hhour hminute hsecond⟩ := by
  have hnumber := number_bounds hlo hhi
  have hassoc : d.number * 86400 + (hour : Int) * 3600 + (minute : Int) * 60 + (second : Int) =
      d.number * 86400 + ofClock hour minute second := by
    unfold ofClock
    omega
  have hdate : FitsI64 (d.number * 86400) := by
    unfold FitsI64
    omega
  have hhours : FitsI64 ((hour : Int) * 3600) := by
    unfold FitsI64
    omega
  have hupToHours : FitsI64 (d.number * 86400 + (hour : Int) * 3600) := by
    unfold FitsI64
    omega
  have hminutes : FitsI64 ((minute : Int) * 60) := by
    unfold FitsI64
    omega
  have hupToMinutes : FitsI64 (d.number * 86400 + (hour : Int) * 3600 + (minute : Int) * 60) := by
    unfold FitsI64
    omega
  have hfits :
      FitsI64 (d.number * 86400 + (hour : Int) * 3600 + (minute : Int) * 60 + (second : Int)) := by
    rw [hassoc]
    exact fits_of_bounds hlo hhi hhour hminute hsecond
  unfold instantOf
  rw [hdays, Except.mapError, ok_bind, fitI64_of_fits hdate, ok_bind, fitI64_of_fits hhours,
    ok_bind, fitI64_of_fits hupToHours, ok_bind, fitI64_of_fits hminutes, ok_bind,
    fitI64_of_fits hupToMinutes, ok_bind, dif_pos hfits, Except.ok.injEq]
  exact Timestamp.ext hassoc

end

theorem instantOf_eq_ok {y : Int} (hhour : hour ≤ 23) (hminute : minute ≤ 59)
    (hsecond : second ≤ 59) :
    instantOf input (y, month, day) (hour, minute, second) = .ok t ↔
      ∃ d : Date, d.year = y ∧ d.month = month ∧
      d.day = day ∧ minYear ≤ y ∧ y ≤ maxYear ∧
        t.seconds = d.number * 86400 + ofClock hour minute second := by
  constructor
  · intro h
    have hdays : ∃ days, daysFromCivil y month day = .ok days := by
      unfold instantOf at h
      simp only [bind_eq_ok, mapError_eq_ok] at h
      obtain ⟨days, hdays, -⟩ := h
      exact ⟨days, hdays⟩
    obtain ⟨days, hdays⟩ := hdays
    obtain ⟨d, rfl, rfl, rfl, hlo, hhi, rfl⟩ := exists_date_of_daysFromCivil hdays
    rw [instantOf_of_days hlo hhi hhour hminute hsecond hdays, Except.ok.injEq] at h
    exact ⟨d, rfl, rfl, rfl, hlo, hhi, by rw [← h]⟩
  · rintro ⟨d, rfl, rfl, rfl, hlo, hhi, hseconds⟩
    rw [instantOf_of_days hlo hhi hhour hminute hsecond (daysFromCivil_eq_ok d hlo hhi),
      Except.ok.injEq]
    exact Timestamp.ext hseconds.symm

/-- The time of day behind a date: none is midnight, and the markers for UTC mean nothing. -/
def TailSpells (tail : Text) (hour minute second : Nat) : Prop :=
  (∀ c ∈ tail, isUtcSuffix c = true) ∧ hour = 0 ∧ minute = 0 ∧ second = 0 ∨
    ∃ sep clock, isDateTimeSeparator sep = true ∧ tail = sep :: clock ∧
      (trim (clock.rdropWhile isUtcSuffix) = [] ∧ hour = 0 ∧ minute = 0 ∧ second = 0 ∨
        ClockSpelled (trim (clock.rdropWhile isUtcSuffix)) hour minute second)

/-- The text spells the date and the time of day, both within their ranges. -/
structure CalendarSpelled (text : Text) (d : Date) (hour minute second : Nat) : Prop where
  spelled : ∃ date tail year, text = date ++ tail ∧ SpellsDate date year d.month d.day ∧
    d.year = year ∧
    TailSpells tail hour minute second
  hour_le : hour ≤ 23
  minute_le : minute ≤ 59
  second_le : second ≤ 59
  minYear_le : minYear ≤ d.year
  le_maxYear : d.year ≤ maxYear

theorem rdropWhile_append_cons {p : Char → Bool} {a b : Text} {c : Char} (hc : p c = false) :
    (a ++ c :: b).rdropWhile p = a ++ c :: b.rdropWhile p := by
  induction b using List.reverseRecOn with
  | nil =>
    rw [rdropWhile_nil, rdropWhile_concat_neg]
    rw [hc]
    decide
  | append_singleton b x ih =>
    rw [← cons_append, ← append_assoc, rdropWhile_concat, rdropWhile_concat]
    split
    · exact ih
    · rw [append_assoc, cons_append]

theorem separator_cases (text : Text) : (∀ c ∈ text, isDateTimeSeparator c = false) ∨
    ∃ a sep b, text = a ++ sep :: b ∧ (∀ c ∈ a, isDateTimeSeparator c = false) ∧
      isDateTimeSeparator sep = true := by
  induction text with
  | nil => exact .inl (forall_mem_nil _)
  | cons x text ih =>
    cases hx : isDateTimeSeparator x with
    | true => exact .inr ⟨[], x, text, rfl, forall_mem_nil _, hx⟩
    | false =>
      rcases ih with hnone | ⟨a, sep, b, rfl, ha, hsep⟩
      · exact .inl (forall_mem_cons.mpr ⟨hx, hnone⟩)
      · exact .inr ⟨x :: a, sep, b, rfl, forall_mem_cons.mpr ⟨hx, ha⟩, hsep⟩

section

variable {a b : Text} {sep : Char} (ha : ∀ c ∈ a, isDateTimeSeparator c = false)
  (hsep : isDateTimeSeparator sep = true)
include ha hsep

theorem takeWhile_separator :
    (a ++ sep :: b).takeWhile (fun c => !isDateTimeSeparator c) = a ∧
      (a ++ sep :: b).dropWhile (fun c => !isDateTimeSeparator c) = sep :: b := by
  have hpos : ∀ c ∈ a, (!isDateTimeSeparator c) = true := fun c hc => by rw [ha c hc]; rfl
  rw [takeWhile_append_of_pos hpos, dropWhile_append_of_pos hpos, takeWhile_cons, dropWhile_cons,
    hsep, Bool.not_true]
  exact ⟨append_nil a, rfl⟩

theorem parseCalendar_of_separator : parseCalendar (a ++ sep :: b) input = (do
      let date ← parseDate a input
      let time ← timeOfDay (trim (b.rdropWhile isUtcSuffix)) input
      instantOf input date time) := by
  have hutc : isUtcSuffix sep = false := by
    have hcases : sep = 'T' ∨ sep = 't' ∨ sep = ' ' := by simpa [isDateTimeSeparator] using hsep
    rcases hcases with rfl | rfl | rfl <;> decide
  unfold parseCalendar
  rw [rdropWhile_append_cons hutc]
  dsimp only
  rw [(takeWhile_separator ha hsep).1, (takeWhile_separator ha hsep).2, drop_one, tail_cons]

end

theorem parseCalendar_of_none (h : ∀ c ∈ text, isDateTimeSeparator c = false) :
    parseCalendar text input = (do
      let date ← parseDate (text.rdropWhile isUtcSuffix) input
      instantOf input date (0, 0, 0)) := by
  have hbody : ∀ c ∈ text.rdropWhile isUtcSuffix, (!isDateTimeSeparator c) = true := fun c hc => by
    rw [h c ((List.rdropWhile_prefix isUtcSuffix text).subset hc)]
    rfl
  unfold parseCalendar
  dsimp only
  rw [takeWhile_eq_self_iff.mpr hbody, dropWhile_eq_nil_iff.mpr hbody]
  rfl

theorem calendarSpelled_of_parse (h : parseCalendar text input = .ok t) : ∃ d hour minute second,
    CalendarSpelled text d hour minute second ∧
      t.seconds = d.number * 86400 + ofClock hour minute second := by
  rcases separator_cases text with hnone | ⟨a, sep, b, rfl, ha, hsep⟩
  · rw [parseCalendar_of_none hnone, bind_eq_ok] at h
    obtain ⟨⟨y, month, day⟩, hdate, h⟩ := h
    obtain ⟨year, rfl, hspells, -⟩ := parseDate_eq_ok.mp hdate
    obtain ⟨d, hyear, rfl, rfl, hlo, hhi, hseconds⟩ :=
      (instantOf_eq_ok (Nat.zero_le _) (Nat.zero_le _) (Nat.zero_le _)).mp h
    rw [← hyear] at hlo hhi
    refine ⟨d, 0, 0, 0, ⟨⟨_, text.rtakeWhile isUtcSuffix, year, ?_, hspells, hyear,
      .inl ⟨fun c hc => ?_, rfl, rfl, rfl⟩⟩, Nat.zero_le _, Nat.zero_le _, Nat.zero_le _, hlo, hhi⟩,
        hseconds⟩
    · exact rdropWhile_append_rtakeWhile.symm
    · exact mem_rtakeWhile_imp hc
  · rw [parseCalendar_of_separator ha hsep, bind_eq_ok] at h
    obtain ⟨⟨y, month, day⟩, hdate, h⟩ := h
    obtain ⟨year, rfl, hspells, -⟩ := parseDate_eq_ok.mp hdate
    rw [bind_eq_ok] at h
    obtain ⟨⟨hour, minute, second⟩, htime, h⟩ := h
    have hclock : (trim (b.rdropWhile isUtcSuffix) = [] ∧ hour = 0 ∧ minute = 0 ∧ second = 0 ∨
        ClockSpelled (trim (b.rdropWhile isUtcSuffix)) hour minute second) := by
      unfold timeOfDay at htime
      split at htime
      next hnil =>
        rw [Except.ok.injEq, Prod.mk.injEq, Prod.mk.injEq] at htime
        obtain ⟨rfl, rfl, rfl⟩ := htime
        exact .inl ⟨hnil, rfl, rfl, rfl⟩
      · exact .inr (clockSpelled_of_parseTime htime)
    obtain ⟨hhour, hminute, hsecond⟩ : hour ≤ 23 ∧ minute ≤ 59 ∧ second ≤ 59 := by
      rcases hclock with ⟨-, rfl, rfl, rfl⟩ | hclock
      · decide
      · exact ⟨hclock.hour_le, hclock.minute_le, hclock.second_le⟩
    obtain ⟨d, hyear, rfl, rfl, hlo, hhi, hseconds⟩ := (instantOf_eq_ok hhour hminute hsecond).mp h
    rw [← hyear] at hlo hhi
    exact ⟨d, hour, minute, second, ⟨⟨a, sep :: b, year, rfl, hspells, hyear,
      .inr ⟨sep, b, hsep, rfl, hclock⟩⟩, hhour, hminute, hsecond, hlo, hhi⟩, hseconds⟩

theorem spelled_of_parse (h : Timestamp.parse input = .ok t) :
    (∃ rest, trim input = '@' :: rest ∧ parseI64 (trim rest) = some t.seconds) ∨
      ∃ d hour minute second, CalendarSpelled (trim input) d hour minute second ∧
        t.seconds = d.number * 86400 + ofClock hour minute second := by
  unfold Timestamp.parse at h
  split at h
  · cases h
  next rest htrim =>
    left
    refine ⟨rest, htrim, ?_⟩
    split at h
    next seconds hseconds =>
      split at h
      · rw [hseconds, ← Except.ok.inj h]
      · cases h
    · cases h
  next htrim =>
    right
    exact calendarSpelled_of_parse h

def rendered (year month day hour minute second : Nat) : Text :=
  pad 4 year ++ '-' ::
    (pad 2 month ++ '-' :: (pad 2 day ++ 'T' :: (pad 2 hour ++ ':' :: (pad 2 minute ++ ':' ::
    (pad 2 second ++ ['Z'])))))

theorem Printable.rendered {t : Timestamp} (h : Printable (t.seconds / 86400)) :
    ∃ (d : Date) (year : Nat),
    d.number = t.seconds / 86400 ∧ d.year = year ∧ minYear ≤ d.year ∧ d.year ≤ maxYear ∧
      t.toRfc3339 = .ok (Touch.rendered year d.month d.day ((t.seconds % 86400).toNat / 3600)
        ((t.seconds % 86400).toNat % 3600 / 60) ((t.seconds % 86400).toNat % 60)) := by
  obtain ⟨d, hnumber, hlo, hhi, hcivil⟩ := civilFromDays_eq_ok h
  have hpos : (1 : Int) ≤ d.year := hlo
  obtain ⟨year, hyear⟩ : ∃ year : Nat, d.year = year := ⟨d.year.toNat, by omega⟩
  refine ⟨d, year, hnumber, hyear, hlo, hhi, ?_⟩
  obtain ⟨r, hr⟩ : ∃ r : Nat, t.seconds % 86400 = r := ⟨(t.seconds % 86400).toNat, by omega⟩
  unfold Timestamp.toRfc3339
  dsimp only
  rw [hcivil, hr, hyear, Int.toNat_natCast]
  show Except.ok (padI64 4 (year : Int) ++ '-' ::
      (pad 2 d.month ++ '-' :: (pad 2 d.day ++ 'T' :: (padI64 2 ((r / 3600 : Nat) : Int) ++
    ':' :: (padI64 2 ((r % 3600 / 60 : Nat) : Int) ++ ':' ::
      (padI64 2 ((r % 60 : Nat) : Int) ++ ['Z'])))))) = _
  rw [padI64_natCast, padI64_natCast, padI64_natCast, padI64_natCast]
  rfl

theorem pad_cons (width n : Nat) : ∃ c rest, pad width n = c :: rest ∧ c.isDigit = true := by
  have hspells := spells_pad width n
  cases hpad : pad width n with
  | nil => exact absurd hpad hspells.nonempty
  | cons c rest => exact ⟨c, rest, rfl, hspells.digits c (by rw [hpad]; exact mem_cons_self)⟩

theorem not_whitespace_of_digit {c : Char} (h : c.isDigit = true) : isWhitespace c = false := by
  by_contra hwhite
  rw [Bool.not_eq_false, isWhitespace, Bool.or_eq_true, decide_eq_true_eq, Bool.and_eq_true,
    decide_eq_true_eq] at hwhite
  rcases hwhite with hmem | ⟨hge, -⟩
  · have hall :
        ['\t', '\n', '\x0b', '\x0c', '\r', ' ', '\u0085', '\u00a0', '\u1680', '\u2028', '\u2029',
        '\u202f', '\u205f', '\u3000'].all (!·.isDigit) = true := by decide
    have hnot := all_eq_true.mp hall c hmem
    rw [h] at hnot
    cases hnot
  · rw [Char.isDigit, Bool.and_eq_true, decide_eq_true_eq, decide_eq_true_eq] at h
    have hle : c ≤ '9' := h.2
    exact absurd (hge.trans hle) (by decide)

theorem parse_eq_calendar {c : Char} (htrim : trim input = c :: rest) (hc : c.isDigit = true) :
    Timestamp.parse input = parseCalendar (trim input) input := by
  unfold Timestamp.parse
  split
  next hnil => rw [htrim] at hnil; cases hnil
  next more hat =>
    rw [htrim] at hat
    rw [(List.cons.inj hat).1] at hc
    cases hc
  next => rfl

theorem parseTime_of_spells {fh fm fs : Text} (hh : Spells fh hour) (hm : Spells fm minute)
    (hs : Spells fs second) (hhour : hour ≤ 23) (hminute : minute ≤ 59) (hsecond : second ≤ 59) :
    parseTime (fh ++ ':' :: (fm ++ ':' :: fs)) input = .ok (hour, minute, second) := by
  have hsign : (fh ++ ':' :: (fm ++ ':' :: fs)).any (fun c => c ∈ ['+', '-']) = false := by
    rw [any_eq_false]
    intro c hc
    have hplain : c.isDigit = true ∨ c = ':' := by
      simp only [mem_append, mem_cons] at hc
      rcases hc with hc | rfl | hc | rfl | hc
      · exact .inl (hh.digits c hc)
      · exact .inr rfl
      · exact .inl (hm.digits c hc)
      · exact .inr rfl
      · exact .inl (hs.digits c hc)
    rw [decide_eq_true_eq]
    intro hmem
    rcases mem_pair.mp hmem with rfl | rfl
    · rcases hplain with hplain | hplain <;> cases hplain
    · rcases hplain with hplain | hplain <;> cases hplain
  have hsplit :=
    splitOn_eq_three.mpr ⟨(rfl : fh ++ ':' :: (fm ++ ':' :: fs) = _), hh.not_mem (by decide),
    hm.not_mem (by decide), hs.not_mem (by decide)⟩
  have hpoint : '.' ∉ fs := hs.not_mem (by decide)
  have hall : ∀ c ∈ fs, decide (c ≠ '.') = true :=
    fun c hc => decide_eq_true fun heq => hpoint (heq ▸ hc)
  have hwhole : wholeSeconds fs input = .ok second := by
    unfold wholeSeconds
    rw [takeWhile_eq_self_iff.mpr hall, dropWhile_eq_nil_iff.mpr hall]
    exact digits_eq_ok.mpr ⟨hs, by omega⟩
  have hfields : timeFields fh fm (some fs) input = .ok (hour, minute, second) := by
    unfold timeFields
    rw [digits_eq_ok.mpr ⟨hh, by omega⟩, ok_bind, digits_eq_ok.mpr ⟨hm, by omega⟩, ok_bind]
    dsimp only
    rw [hwhole, ok_bind, if_neg (by omega)]
    rfl
  unfold parseTime
  rw [hsign, if_neg Bool.false_ne_true, hsplit]
  exact hfields

theorem parse_rendered {d : Date} {year : Nat} (hyear : d.year = year) (hlo : minYear ≤ d.year)
    (hhi : d.year ≤ maxYear) (hhour : hour ≤ 23) (hminute : minute ≤ 59) (hsecond : second ≤ 59)
    (hseconds : t.seconds = d.number * 86400 + ofClock hour minute second) :
    Timestamp.parse (rendered year d.month d.day hour minute second) = .ok t := by
  obtain ⟨c, more, hpad, hdigit⟩ := pad_cons 4 year
  obtain ⟨date, hdate⟩ :
    ∃ date, date = pad 4 year ++ '-' :: (pad 2 d.month ++ '-' :: pad 2 d.day) := ⟨_, rfl⟩
  obtain ⟨clock, hclock⟩ :
    ∃ clock, clock = pad 2 hour ++ ':' :: (pad 2 minute ++ ':' :: pad 2 second) := ⟨_, rfl⟩
  have htext : rendered year d.month d.day hour minute second =
      date ++ 'T' :: (clock ++ ['Z']) := by
    rw [rendered, hdate, hclock]
    simp
  have hplain : ∀ x, x ∈ date ∨ x ∈ clock → x.isDigit = true ∨ x = '-' ∨ x = ':' := by
    intro x hx
    have hpads : ∀ w n, x ∈ pad w n → x.isDigit = true := fun w n => (spells_pad w n).digits x
    simp only [hdate, hclock, mem_append, mem_cons] at hx
    grind
  have hseparator : ∀ x ∈ date, isDateTimeSeparator x = false := by
    intro x hx
    rcases hplain x (.inl hx) with hx | rfl | rfl
    · by_contra hsep
      rw [Bool.not_eq_false] at hsep
      have hcases : x = 'T' ∨ x = 't' ∨ x = ' ' := by simpa [isDateTimeSeparator] using hsep
      rcases hcases with rfl | rfl | rfl <;> cases hx
    · decide
    · decide
  have hedge : ∀ x ∈ clock, isWhitespace x = false ∧ isUtcSuffix x = false := by
    intro x hx
    rcases hplain x (.inr hx) with hx | rfl | rfl
    · refine ⟨not_whitespace_of_digit hx, ?_⟩
      by_contra hutc
      rw [Bool.not_eq_false] at hutc
      have hcases : x = 'Z' ∨ x = 'z' := by simpa [isUtcSuffix] using hutc
      rcases hcases with rfl | rfl <;> cases hx
    · decide
    · decide
  have hne : clock ≠ [] := by
    rw [hclock]
    exact append_ne_nil_of_left_ne_nil (spells_pad 2 hour).nonempty _
  have hbody : (clock ++ ['Z']).rdropWhile isUtcSuffix = clock := by
    rw [rdropWhile_concat_pos _ _ _ (by decide), rdropWhile_eq_self_iff]
    intro hl
    rw [(hedge _ (getLast_mem hl)).2]
    exact Bool.false_ne_true
  have htrim' : trim clock = clock := trim_eq_self (fun x hx => (hedge x (mem_of_mem_head? hx)).1)
    fun x hx => (hedge x (mem_of_mem_getLast? hx)).1
  have htrim : trim (rendered year d.month d.day hour minute second) =
      rendered year d.month d.day hour minute second := by
    refine trim_eq_self (fun x hx => ?_) (fun x hx => ?_)
    · rw [rendered, hpad] at hx
      obtain rfl : c = x := Option.some.inj hx
      exact not_whitespace_of_digit hdigit
    · rw [htext, ← cons_append, ← append_assoc, List.getLast?_concat] at hx
      obtain rfl : 'Z' = x := Option.some.inj hx
      decide
  have hbegin : trim (rendered year d.month d.day hour minute second) =
      c :: (more ++ '-' :: (pad 2 d.month ++ '-' ::
      (pad 2 d.day ++ 'T' ::
        (pad 2 hour ++ ':' :: (pad 2 minute ++ ':' :: (pad 2 second ++ ['Z'])))))) := by
    rw [htrim, rendered, hpad]
    rfl
  have hbounds : (1 : Int) ≤ d.year ∧ d.year ≤ 9999 := ⟨hlo, hhi⟩
  have hmonth := d.month_le
  have hday := d.day_le
  have hmax := @monthLength_le d.month (isLeap d.year)
  have hparseDate : parseDate date (rendered year d.month d.day hour minute second) =
      .ok (d.year, d.month, d.day) :=
    parseDate_eq_ok.mpr ⟨year, hyear,
      ⟨_, _, _, hdate, spells_pad 4 year, spells_pad 2 d.month, spells_pad 2 d.day⟩,
      by omega, by omega, by omega⟩
  rw [parse_eq_calendar hbegin hdigit, htrim]
  nth_rewrite 1 [htext]
  rw [parseCalendar_of_separator hseparator (by decide), hparseDate, ok_bind, hbody, htrim',
    timeOfDay, if_neg hne]
  rw [hclock, parseTime_of_spells (spells_pad 2 hour) (spells_pad 2 minute) (spells_pad 2 second)
    hhour hminute hsecond, ok_bind]
  exact (instantOf_eq_ok hhour hminute hsecond).mpr ⟨d, rfl, rfl, rfl, hlo, hhi, hseconds⟩

theorem parse_epoch (t : Timestamp) : Timestamp.parse ('@' :: printI64 t.seconds) = .ok t := by
  have hedge : ∀ x ∈ printI64 t.seconds, isWhitespace x = false := by
    intro x hx
    rcases mem_of_parseI64 (parseI64_printI64 t.fits) hx with hx | rfl | rfl
    · exact not_whitespace_of_digit hx
    · decide
    · decide
  have htrim' : trim (printI64 t.seconds) = printI64 t.seconds :=
    trim_eq_self (fun x hx => hedge x (mem_of_mem_head? hx)) fun x hx =>
      hedge x (mem_of_mem_getLast? hx)
  have htrim : trim ('@' :: printI64 t.seconds) = '@' :: printI64 t.seconds := by
    refine trim_eq_self (fun x hx => ?_) (fun x hx => ?_)
    · obtain rfl : '@' = x := Option.some.inj hx
      decide
    · rcases mem_cons.mp (mem_of_mem_getLast? hx) with rfl | hx
      · decide
      · exact hedge x hx
  unfold Timestamp.parse
  simp only [htrim, htrim', parseI64_printI64 t.fits]
  exact dif_pos t.fits

def firstSecond (year : Int) : Int := yearStart year * 86400

/-- The instant lies in one of the years, the last included. -/
def InYears (first last : Int) (t : Timestamp) : Prop :=
  firstSecond first ≤ t.seconds ∧ t.seconds < firstSecond (last + 1)

instance (first last : Int) : Decidable (InYears first last t) :=
  inferInstanceAs (Decidable (_ ∧ _))

theorem printable_iff : Printable (t.seconds / 86400) ↔ InYears minYear maxYear t := by
  unfold Printable InYears firstSecond
  omega

theorem pad_append_lt_iff {w a b : Nat} {sep : Char} {u v : Text} (hw : 0 < w) (ha : a < 10 ^ w)
    (hb : b < 10 ^ w) : pad w a ++ sep :: u < pad w b ++ sep :: v ↔ a < b ∨ a = b ∧ u < v := by
  have hlen : (pad w a).length = (pad w b).length := by
    rw [length_pad hw ha, length_pad hw hb]
  have hsame : pad w a = pad w b ↔ a = b :=
    ⟨fun h => (spells_pad w _).unique (h ▸ spells_pad w _), fun h => by rw [h]⟩
  rw [append_lt_append_iff hlen, pad_lt_iff hw ha hb, hsame, cons_lt_cons_iff]
  simp

theorem rendered_lt {d d' : Date} {year year' r r' : Nat} (hyear : d.year = year)
    (hyear' : d'.year = year') (hmax : d.year ≤ maxYear) (hmax' : d'.year ≤ maxYear)
    (hr : r < 86400) (hr' : r' < 86400) (h : d.number < d'.number ∨ d.number = d'.number ∧ r < r') :
    rendered year d.month d.day (r / 3600) (r % 3600 / 60) (r % 60) <
      rendered year' d'.month d'.day (r' / 3600) (r' % 3600 / 60) (r' % 60) := by
  have hbounds : d.year ≤ 9999 ∧ d'.year ≤ 9999 := ⟨hmax, hmax'⟩
  have hmonth := d.month_le
  have hmonth' := d'.month_le
  have hday := d.day_le.trans monthLength_le
  have hday' := d'.day_le.trans monthLength_le
  have htwo : (10 : Nat) ^ 2 = 100 := rfl
  have hfour : (10 : Nat) ^ 4 = 10000 := rfl
  have hpad : ∀ {a b : Nat} {sep : Char} {u v : Text}, a < 100 → b < 100 →
      (pad 2 a ++ sep :: u < pad 2 b ++ sep :: v ↔ a < b ∨ a = b ∧ u < v) :=
    fun ha hb => pad_append_lt_iff (by decide) ha hb
  unfold rendered
  rw [pad_append_lt_iff (by decide) (by omega) (by omega), hpad (by omega) (by omega),
    hpad (by omega) (by omega), hpad (by omega) (by omega), hpad (by omega) (by omega),
    hpad (by omega) (by omega)]
  rw [Date.number_lt_iff] at h
  rcases h with hdate | ⟨hsame, hlt⟩
  · omega
  · obtain rfl := Date.number_injective hsame
    obtain rfl : year = year' := by omega
    right
    refine ⟨rfl, .inr ⟨rfl, .inr ⟨rfl, ?_⟩⟩⟩
    omega

theorem exists_printed (t : Timestamp) :
    ∃ text, t.toRfc3339 = .ok text ∧ Timestamp.parse text = .ok t := by
  by_cases h : Printable (t.seconds / 86400)
  · obtain ⟨d, year, hnumber, hyear, hlo, hhi, hprint⟩ := h.rendered
    refine ⟨_, hprint, parse_rendered hyear hlo hhi (by omega) (by omega) (by omega) ?_⟩
    unfold ofClock
    omega
  · have hbounds : -2 ^ 63 ≤ t.seconds ∧ t.seconds < 2 ^ 63 := t.fits
    refine ⟨'@' :: printI64 t.seconds, ?_, parse_epoch t⟩
    unfold Timestamp.toRfc3339
    dsimp only
    rw [civilFromDays_eq_none h (by omega) (by omega)]
    rfl

/-- Whatever the instant, nothing overflows while it is printed, and what is printed is read back;
and of two instants in the years 1 to 9999 the earlier is printed as the lesser text. -/
theorem parse_toRfc3339 :
    (∀ t : Timestamp, ∃ text, t.toRfc3339 = .ok text ∧ Timestamp.parse text = .ok t) ∧
    ∀ t t' : Timestamp, InYears minYear maxYear t → InYears minYear maxYear t' →
      t.seconds < t'.seconds →
      ∀ text text', t.toRfc3339 = .ok text → t'.toRfc3339 = .ok text' → text < text' := by
  refine ⟨exists_printed, fun t t' ht ht' hlt text text' hprint hprint' => ?_⟩
  obtain ⟨d, year, hnumber, hyear, -, hhi, hrendered⟩ := (printable_iff.mpr ht).rendered
  obtain ⟨d', year', hnumber', hyear', -, hhi', hrendered'⟩ := (printable_iff.mpr ht').rendered
  rw [hprint, Except.ok.injEq] at hrendered
  rw [hprint', Except.ok.injEq] at hrendered'
  rw [hrendered, hrendered']
  exact rendered_lt hyear hyear' hhi hhi' (by omega) (by omega) (by omega)

/-- The last second of the year 0. -/
def beforeYears : Timestamp := ⟨-62135596801, by decide⟩

def epoch : Timestamp := ⟨0, by decide⟩

def oneDay : Timestamp := ⟨86400, by decide⟩

theorem parse_toRfc3339_epoch :
    ∃ text text', epoch.toRfc3339 = .ok text ∧ oneDay.toRfc3339 = .ok text' ∧
    Timestamp.parse text = .ok epoch ∧ text < text' := by
  obtain ⟨text, hprint, hparse⟩ := parse_toRfc3339.1 epoch
  obtain ⟨text', hprint', -⟩ := parse_toRfc3339.1 oneDay
  exact ⟨text, text', hprint, hprint', hparse,
    parse_toRfc3339.2 epoch oneDay (by decide) (by decide) (by decide) text text' hprint hprint'⟩

/-- An instant of the year 0 is printed as a text that is greater than that of a later one. -/
theorem not_ordered_beforeYears : InYears 0 9999 beforeYears ∧ InYears 0 9999 epoch ∧
    beforeYears.seconds < epoch.seconds ∧ ∃ text text', beforeYears.toRfc3339 = .ok text ∧
      epoch.toRfc3339 = .ok text' ∧ ¬text < text' := by
  refine ⟨by decide, by decide, by decide, ?_⟩
  have hout : ¬Printable (beforeYears.seconds / 86400) :=
    fun h => absurd (printable_iff.mp h) (by decide)
  obtain ⟨d, year, -, -, -, -, hrendered⟩ :=
    (printable_iff.mpr (by decide : InYears minYear maxYear epoch)).rendered
  obtain ⟨c, rest, hpad, hdigit⟩ := pad_cons 4 year
  refine ⟨'@' :: printI64 beforeYears.seconds, _, ?_, hrendered, ?_⟩
  · unfold Timestamp.toRfc3339
    dsimp only
    rw [civilFromDays_eq_none hout (by decide) (by decide)]
    rfl
  · rw [rendered, hpad, cons_append, cons_lt_cons_iff, not_or]
    rw [Char.isDigit, Bool.and_eq_true, decide_eq_true_eq, decide_eq_true_eq] at hdigit
    have hle : c ≤ '9' := hdigit.2
    have hat : c < '@' := lt_of_le_of_lt hle (by decide)
    exact ⟨not_lt_of_gt hat, fun h => absurd h.1 (ne_of_gt hat)⟩

end Dctl.Cli.Touch
