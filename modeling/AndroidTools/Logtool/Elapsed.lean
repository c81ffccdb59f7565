/-
How far apart two dates are for `toSecond`.

`Time.set` counts the months from 0 and `toSecond` hands it the month as it is written, so every
date is taken for the same day of the month that follows. A calendar that carries days over then
makes it later by the length of its own month: two dates keep their distance, and with it their
order, exactly when their months are equally long.

`Normalises` is what is assumed of `toMillis`, and no more than its documentation says: the
seconds of a time on the calendar are counted, and a day past the end of its month is one of the
next month. `utc_millis` is such a function. The last section draws the consequence for
`isOldPath`: months differ by three days at most, so only dates that are at most three days apart can
change places.
-/
import Mathlib.Tactic
import AndroidTools.Logtool.Dates

set_option autoImplicit false

namespace AndroidTools.Logtool

/-! ## The order of dates

Counting seconds from year 0 has to be the order of the calendar, which needs the lengths of
years and months added up. Months are numbered in one row from January of year 0; the first
day of each is the sum of the lengths before it.
-/

/-- The order in which a calendar lists the times: by year, month, day and time of day. -/
def CivilTime.Before (s t : CivilTime) : Prop :=
  s.year < t.year ∨ s.year = t.year ∧ (s.month < t.month ∨ s.month = t.month ∧
    (s.day < t.day ∨ s.day = t.day ∧ (s.hour < t.hour ∨ s.hour = t.hour ∧
      (s.minute < t.minute ∨ s.minute = t.minute ∧ s.second < t.second))))

/-- The days from the beginning of year 0 to the first of a month. -/
def first_of_month (year month : ℕ) : ℕ :=
  365 * year + (year + 3) / 4 - (year + 99) / 100 + (year + 399) / 400
    + ((List.range (month - 1)).map fun m => days_in_month year (m + 1)).sum

theorem CivilTime.days_eq (t : CivilTime) :
    t.days = first_of_month t.year t.month + (t.day - 1) := rfl

theorem first_of_month_succ (year month : ℕ) :
    first_of_month year (month + 1 + 1)
      = first_of_month year (month + 1) + days_in_month year (month + 1) := by
  simp only [first_of_month, Nat.add_sub_cancel, List.range_succ, List.map_append,
    List.map_cons, List.map_nil, List.sum_append, List.sum_singleton]
  omega

/-- A year has 365 days, or one more if it is a leap year. -/
theorem sum_days_in_month (year : ℕ) :
    ((List.range 12).map fun m => days_in_month year (m + 1)).sum
      = if is_leap year then 366 else 365 := by
  cases h : is_leap year with
  | false =>
    simp only [List.range, List.range.loop, List.map_cons, List.map_nil, List.sum_cons,
      List.sum_nil, days_in_month, h]
    decide
  | true =>
    simp only [List.range, List.range.loop, List.map_cons, List.map_nil, List.sum_cons,
      List.sum_nil, days_in_month, h]
    decide

theorem is_leap_iff (year : ℕ) :
    is_leap year = true ↔ year % 4 = 0 ∧ (year % 100 ≠ 0 ∨ year % 400 = 0) := by
  simp only [is_leap, Bool.and_eq_true, Bool.or_eq_true, decide_eq_true_eq]

/-- The multiples of `k` below a year, and one more if it is one itself. -/
theorem multiples_succ {k : ℕ} (hk : 0 < k) (year : ℕ) :
    (year + 1 + (k - 1)) / k = (year + (k - 1)) / k + if year % k = 0 then 1 else 0 := by
  have hsplit := Nat.div_add_mod year k
  have hmod := Nat.mod_lt year hk
  have hnext : (year + 1 + (k - 1)) / k = year / k + 1 := by
    rw [show year + 1 + (k - 1) = year + k by omega, Nat.add_div_right year hk]
  split_ifs with h
  · have hsame : (year + (k - 1)) / k = year / k := by
      rw [Nat.div_eq_iff hk, Nat.mul_comm]
      omega
    rw [hnext, hsame]
  · have hmore : (year + (k - 1)) / k = year / k + 1 := by
      rw [← Nat.add_div_right year hk, Nat.div_eq_iff hk, Nat.add_div_right year hk,
        Nat.add_mul, Nat.mul_comm (year / k)]
      omega
    rw [hnext, hmore]

theorem first_of_next_year (year : ℕ) :
    first_of_month (year + 1) 1 = first_of_month year 12 + days_in_month year 12 := by
  rw [← first_of_month_succ year 11, first_of_month, first_of_month, sum_days_in_month,
    multiples_succ (by decide : 0 < 4), multiples_succ (by decide : 0 < 100),
    multiples_succ (by decide : 0 < 400)]
  have hleap := is_leap_iff year
  have h100 : year % 100 = 0 → year % 4 = 0 := by omega
  have h400 : year % 400 = 0 → year % 100 = 0 := by omega
  have hfew : (year + 99) / 100 ≤ 365 * year + (year + 3) / 4 := by omega
  simp only [Nat.sub_self, List.range_zero, List.map_nil, List.sum_nil, Nat.reduceSub]
  -- The residues decide which of the three counts grows.
  by_cases h4 : year % 4 = 0
  · by_cases hcentury : year % 100 = 0
    · by_cases hfourth : year % 400 = 0
      · rw [if_pos h4, if_pos hcentury, if_pos hfourth,
          if_pos (hleap.mpr ⟨h4, Or.inr hfourth⟩)]
        omega
      · rw [if_pos h4, if_pos hcentury, if_neg hfourth,
          if_neg fun h => (hleap.mp h).2.elim (absurd hcentury) (absurd · hfourth)]
        omega
    · rw [if_pos h4, if_neg hcentury, if_neg fun h => hcentury (h400 h),
        if_pos (hleap.mpr ⟨h4, Or.inl hcentury⟩)]
      omega
  · rw [if_neg h4, if_neg fun h => h4 (h100 h), if_neg fun h => h4 (h100 (h400 h)),
      if_neg fun h => h4 (hleap.mp h).1]
    omega

/-- The first day of the month that is `n` months after January of year 0. -/
def month_start (n : ℕ) : ℕ := first_of_month (n / 12) (n % 12 + 1)

theorem month_start_succ (n : ℕ) :
    month_start (n + 1) = month_start n + days_in_month (n / 12) (n % 12 + 1) := by
  rw [month_start, month_start]
  rcases Nat.lt_or_ge (n % 12) 11 with h | h
  · have hyear : (n + 1) / 12 = n / 12 := by omega
    have hmonth : (n + 1) % 12 = n % 12 + 1 := by omega
    rw [hyear, hmonth, first_of_month_succ]
  · have hyear : (n + 1) / 12 = n / 12 + 1 := by omega
    have hmonth : (n + 1) % 12 = 0 := by omega
    have hlast : n % 12 = 11 := by omega
    rw [hyear, hmonth, hlast, first_of_next_year]

theorem month_start_mono : Monotone month_start := by
  apply monotone_nat_of_le_succ
  intro n
  rw [month_start_succ]
  exact Nat.le_add_right _ _

/-- The months from January of year 0 to the month of a date. -/
def CivilTime.months (t : CivilTime) : ℕ := 12 * t.year + (t.month - 1)

theorem CivilTime.days_eq_month_start (t : CivilTime) :
    t.days = month_start t.months + (t.day - 1) := by
  have hm := t.month_mem
  have hyear : t.months / 12 = t.year := by
    rw [CivilTime.months]
    omega
  have hmonth : t.months % 12 + 1 = t.month := by
    rw [CivilTime.months]
    omega
  rw [CivilTime.days_eq, month_start, hyear, hmonth]

/-- A date of an earlier month is of an earlier day. -/
theorem CivilTime.days_lt_of_months {s t : CivilTime} (h : s.months < t.months) :
    s.days < t.days := by
  have hd := s.day_mem
  have hm := s.month_mem
  have hstart := month_start_mono (Nat.succ_le_of_lt h)
  have hyear : s.months / 12 = s.year := by
    rw [CivilTime.months]
    omega
  have hmonth : s.months % 12 + 1 = s.month := by
    rw [CivilTime.months]
    omega
  rw [Nat.succ_eq_add_one, month_start_succ, hyear, hmonth] at hstart
  rw [s.days_eq_month_start, t.days_eq_month_start]
  omega

theorem CivilTime.seconds_lt_of_before {s t : CivilTime} (h : s.Before t) :
    s.seconds < t.seconds := by
  have hs := s.month_mem
  have ht := t.month_mem
  have hday := s.day_mem
  have hhour := s.hour_lt
  have hminute := s.minute_lt
  have hsecond := s.second_lt
  rcases Nat.lt_trichotomy s.months t.months with hmonths | hmonths | hmonths
  · have hdays := CivilTime.days_lt_of_months hmonths
    rw [CivilTime.seconds, CivilTime.seconds]
    omega
  -- In one month the fields below it decide.
  · have hdays := t.days_eq_month_start
    rw [← hmonths] at hdays
    rw [CivilTime.seconds, CivilTime.seconds, hdays, s.days_eq_month_start]
    rw [CivilTime.months, CivilTime.months] at hmonths
    rw [CivilTime.Before] at h
    omega
  · rw [CivilTime.months, CivilTime.months] at hmonths
    rw [CivilTime.Before] at h
    omega

theorem CivilTime.before_or (s t : CivilTime) : s.Before t ∨ s = t ∨ t.Before s := by
  cases s
  cases t
  simp only [CivilTime.Before, CivilTime.mk.injEq]
  omega

/-- The seconds count the dates in their order. -/
theorem CivilTime.seconds_lt_iff (s t : CivilTime) : s.seconds < t.seconds ↔ s.Before t := by
  constructor
  · intro h
    rcases s.before_or t with hbefore | rfl | hafter
    · exact hbefore
    · exact absurd h (Nat.lt_irrefl _)
    · exact absurd h (Nat.lt_asymm (CivilTime.seconds_lt_of_before hafter))
  · exact CivilTime.seconds_lt_of_before

/-! ## A calendar that carries over

What `Time.toMillis` does with fields out of range is not in the repository. `Normalises`
states the part that is needed: valid dates are right, days may be added, and a month too
far is the next one. `utc_millis` is a function with these laws, so the assumption can be
met.
-/

/-- Midnight of 1 January 1970, which is second 0. -/
def epoch : CivilTime where
  year := 1970
  month := 1
  day := 1
  hour := 0
  minute := 0
  second := 0
  year_lt := by decide
  month_mem := by decide
  day_mem := by decide
  hour_lt := by decide
  minute_lt := Nat.succ_pos 59
  second_lt := Nat.succ_pos 59

/-- `Time.toMillis` in UTC, the month counted from 0: the milliseconds from 1970 to a
date, a day past the last one of its month carried over into the next. -/
structure Normalises (to_millis : TimeFields → ℤ) : Prop where
  of_date : ∀ t : CivilTime,
    to_millis ⟨t.second, t.minute, t.hour, t.day, (t.month : ℤ) - 1, t.year⟩
      = ((t.seconds : ℤ) - epoch.seconds) * 1000
  add_days : ∀ (f : TimeFields) (n : ℤ),
    to_millis { f with month_day := f.month_day + n } = to_millis f + n * 86400000
  next_month : ∀ (f : TimeFields) (year month : ℕ), 1 ≤ month → month ≤ 12 →
    f.year = year → f.month = (month : ℤ) - 1 →
    to_millis { f with month := month }
      = to_millis { f with month_day := f.month_day + days_in_month year month }

/-- Milliseconds from 1970 in UTC, a month out of range carried over into the year. -/
def utc_millis (f : TimeFields) : ℤ :=
  let year := f.year + f.month / 12
  let month := f.month % 12
  let leap := decide (year % 4 = 0 ∧ (year % 100 ≠ 0 ∨ year % 400 = 0))
  let before := [0, 31, 59, 90, 120, 151, 181, 212, 243, 273, 304, 334].getD month.toNat 0
  let days := 365 * (year - 1970) + ((year - 1) / 4 - 492) - ((year - 1) / 100 - 19)
    + ((year - 1) / 400 - 4) + before + (if leap && decide (1 < month) then 1 else 0)
    + (f.month_day - 1)
  (((days * 24 + f.hour) * 60 + f.minute) * 60 + f.second) * 1000

/-- The days from 1970 to the first of a month, as `utc_millis` counts them. -/
def utc_month_start (year month : ℤ) : ℤ :=
  let leap := decide (year % 4 = 0 ∧ (year % 100 ≠ 0 ∨ year % 400 = 0))
  let before := [0, 31, 59, 90, 120, 151, 181, 212, 243, 273, 304, 334].getD month.toNat 0
  365 * (year - 1970) + ((year - 1) / 4 - 492) - ((year - 1) / 100 - 19)
    + ((year - 1) / 400 - 4) + before + (if leap && decide (1 < month) then 1 else 0)

theorem utc_millis_eq (f : TimeFields) :
    utc_millis f
      = (((utc_month_start (f.year + f.month / 12) (f.month % 12) + (f.month_day - 1)) * 24
          + f.hour) * 60 + f.minute) * 60000 + f.second * 1000 := by
  simp only [utc_millis, utc_month_start]
  ring

theorem sum_days_before (year : ℕ) {month : ℕ} (h : month < 12) :
    (((List.range month).map fun m => days_in_month year (m + 1)).sum : ℤ)
      = [0, 31, 59, 90, 120, 151, 181, 212, 243, 273, 304, 334].getD month 0
        + if is_leap year && decide (1 < month) then 1 else 0 := by
  cases hleap : is_leap year with
  | false =>
    interval_cases month <;>
      simp [List.range_succ, days_in_month, hleap]
  | true =>
    interval_cases month <;>
      simp [List.range_succ, days_in_month, hleap]

theorem utc_month_start_eq (year : ℕ) {month : ℕ} (h : month < 12) :
    utc_month_start year month = (first_of_month year (month + 1) : ℤ) - epoch.days := by
  have hleap : decide ((year : ℤ) % 4 = 0 ∧ ((year : ℤ) % 100 ≠ 0 ∨ (year : ℤ) % 400 = 0))
      = is_leap year := by
    rw [Bool.eq_iff_iff, is_leap_iff, decide_eq_true_iff]
    omega
  have hepoch : epoch.days = 719528 := by decide
  have hdays := sum_days_before year h
  have hfours : (((year + 3) / 4 : ℕ) : ℤ) = ((year : ℤ) - 1) / 4 + 1 := by omega
  have hcenturies : (((year + 99) / 100 : ℕ) : ℤ) = ((year : ℤ) - 1) / 100 + 1 := by omega
  have hfourths : (((year + 399) / 400 : ℕ) : ℤ) = ((year : ℤ) - 1) / 400 + 1 := by omega
  have hfew : (year + 99) / 100 ≤ 365 * year + (year + 3) / 4 := by omega
  simp only [utc_month_start, hleap, first_of_month, Nat.add_sub_cancel, hepoch,
    Int.toNat_natCast, Nat.one_lt_cast]
  rw [add_assoc _ (List.getD _ _ _), ← hdays]
  omega

theorem utc_millis_normalises : Normalises utc_millis where
  of_date := by
    intro t
    have hm := t.month_mem
    have hday := t.day_mem
    have hstart := @utc_month_start_eq t.year (t.month - 1) (by omega)
    have hcast : ((t.month - 1 : ℕ) : ℤ) = (t.month : ℤ) - 1 := by omega
    have hyear : (t.year : ℤ) + ((t.month : ℤ) - 1) / 12 = t.year := by omega
    have hmonth : ((t.month : ℤ) - 1) % 12 = (t.month : ℤ) - 1 := by omega
    have hepoch : epoch.seconds = epoch.days * 86400 := by decide
    rw [Nat.sub_add_cancel hm.1, hcast] at hstart
    rw [utc_millis_eq]
    dsimp only
    rw [hyear, hmonth, hstart, CivilTime.seconds, t.days_eq, hepoch]
    omega
  add_days := by
    intro f n
    rw [utc_millis_eq, utc_millis_eq]
    ring
  next_month := by
    intro f year month hlow hhigh hyear hmonth
    have hstart := @utc_month_start_eq year (month - 1) (by omega)
    have hcast : ((month - 1 : ℕ) : ℤ) = (month : ℤ) - 1 := by omega
    have hsame : f.year + f.month / 12 = year := by omega
    have hmod : f.month % 12 = (month : ℤ) - 1 := by omega
    rw [Nat.sub_add_cancel hlow, hcast] at hstart
    rw [utc_millis_eq, utc_millis_eq]
    dsimp only
    rw [hsame, hmod, hstart]
    rcases Nat.lt_or_ge month 12 with h | h
    · have hnext := first_of_month_succ year (month - 1)
      have hyear' : f.year + (month : ℤ) / 12 = year := by omega
      have hmonth' : (month : ℤ) % 12 = month := by omega
      rw [Nat.sub_add_cancel hlow] at hnext
      rw [hyear', hmonth', utc_month_start_eq year h, hnext]
      push_cast
      ring
    -- December is followed by January of the next year.
    · have hnext := first_of_next_year year
      have hdecember : month = 12 := by omega
      have hyear' : f.year + ((12 : ℕ) : ℤ) / 12 = (year + 1 : ℕ) := by omega
      have hmonth' : ((12 : ℕ) : ℤ) % 12 = (0 : ℕ) := by decide
      rw [hdecember, hyear', hmonth', utc_month_start_eq (year + 1) (by decide), hnext]
      push_cast
      ring

/-! ## What `toSecond` returns for a date

A date comes out later by the length of its own month. Two dates therefore keep their
distance if their months are equally long, and otherwise they do not, however close they
are.
-/

section ToSecond

variable {to_millis : TimeFields → ℤ}

/-- A date comes out later by the length of its month. -/
theorem to_second_date (h : Normalises to_millis) (t : CivilTime) :
    to_second to_millis (date_text t)
      = some ((t.seconds : ℤ) - epoch.seconds + 86400 * days_in_month t.year t.month) := by
  -- The month as written is the one after: its day is the old day and a month's length.
  have hnext := h.next_month ⟨t.second, t.minute, t.hour, t.day, (t.month : ℤ) - 1, t.year⟩
    t.year t.month t.month_mem.1 t.month_mem.2 rfl rfl
  rw [h.add_days, h.of_date] at hnext
  have hmillis : to_millis t.as_read
      = ((t.seconds : ℤ) - epoch.seconds + 86400 * days_in_month t.year t.month) * 1000 := by
    rw [CivilTime.as_read, hnext]
    omega
  rw [to_second_date_text, hmillis, Int.mul_tdiv_cancel _ (by decide)]

/-- The seconds of two dates are in the order of the dates and as far apart. -/
def MeasuresElapsed (to_millis : TimeFields → ℤ) (s t : CivilTime) : Prop :=
  ∃ a b : ℤ, to_second to_millis (date_text s) = some a ∧
    to_second to_millis (date_text t) = some b ∧
    (a < b ↔ s.Before t) ∧ b - a = (t.seconds : ℤ) - s.seconds

/-- **Two dates keep their distance exactly when their months are equally long.** For every two
valid times and any `toMillis` that carries over as a calendar does. -/
theorem measures_elapsed_iff (h : Normalises to_millis) (s t : CivilTime) :
    MeasuresElapsed to_millis s t
      ↔ days_in_month s.year s.month = days_in_month t.year t.month := by
  constructor
  -- What the dates come out later by cancels in the distance only if it is the same.
  · rintro ⟨a, b, ha, hb, -, hdistance⟩
    rw [to_second_date h, Option.some.injEq] at ha hb
    omega
  · intro hlength
    refine ⟨_, _, to_second_date h s, to_second_date h t, ?_, ?_⟩
    · rw [← s.seconds_lt_iff, hlength]
      omega
    · rw [hlength]
      omega

end ToSecond

/-- Midnight of 31 January 2015. -/
def january_last : CivilTime where
  year := 2015
  month := 1
  day := 31
  hour := 0
  minute := 0
  second := 0
  year_lt := by decide
  month_mem := by decide
  day_mem := by decide
  hour_lt := by decide
  minute_lt := Nat.succ_pos 59
  second_lt := Nat.succ_pos 59

/-- Noon of 1 March 2014. -/
def march_noon : CivilTime where
  year := 2014
  month := 3
  day := 1
  hour := 12
  minute := 0
  second := 0
  year_lt := by decide
  month_mem := by decide
  day_mem := by decide
  hour_lt := by decide
  minute_lt := by decide
  second_lt := by decide

/-- Ten o'clock of 27 February, two days and two hours before. -/
def february_morning : CivilTime where
  year := 2014
  month := 2
  day := 27
  hour := 10
  minute := 0
  second := 0
  year_lt := by decide
  month_mem := by decide
  day_mem := by decide
  hour_lt := by decide
  minute_lt := by decide
  second_lt := by decide

/-- January and March are equally long. -/
theorem january_last_to_march_noon : MeasuresElapsed utc_millis january_last march_noon :=
  (measures_elapsed_iff utc_millis_normalises january_last march_noon).mpr rfl

/-- Midnight of 1 February 2015. -/
def february_first : CivilTime where
  year := 2015
  month := 2
  day := 1
  hour := 0
  minute := 0
  second := 0
  year_lt := by decide
  month_mem := february_morning.month_mem
  day_mem := by decide
  hour_lt := by decide
  minute_lt := Nat.succ_pos 59
  second_lt := Nat.succ_pos 59

/-- The first comes out as 3 March, two days after the second. -/
theorem january_last_after_february_first :
    Normalises utc_millis ∧ january_last.Before february_first ∧
      to_second utc_millis (date_text january_last) = some 1425340800 ∧
      to_second utc_millis (date_text february_first) = some 1425168000 ∧
      ¬ MeasuresElapsed utc_millis january_last february_first := by
  have hfirst : to_second utc_millis (date_text january_last) = some 1425340800 := by
    decide +kernel
  have hsecond : to_second utc_millis (date_text february_first) = some 1425168000 := by
    decide +kernel
  refine ⟨utc_millis_normalises, Or.inr ⟨rfl, Or.inl (by decide)⟩, hfirst, hsecond, ?_⟩
  rintro ⟨a, b, ha, hb, hinorder, -⟩
  have hlt := hinorder.mpr (Or.inr ⟨rfl, Or.inl (by decide)⟩)
  rw [hfirst, Option.some.injEq] at ha
  rw [hsecond, Option.some.injEq] at hb
  omega

/-! ## What `isOldPath` makes of it

The current time is read in the same way, so the shift cancels for names of months as long
as the current one. It never moves dates more than three days apart past each other.
-/

section OldPath

variable {to_millis : TimeFields → ℤ}

theorem le_days_in_month (year month : ℕ) : 28 ≤ days_in_month year month := by
  unfold days_in_month
  split_ifs <;> omega

/-- Of two times that are more than three days apart the later one still counts as later. -/
theorem to_second_lt_of_three_days (h : Normalises to_millis) {s t : CivilTime}
    (hfar : s.seconds + three_day < t.seconds) :
    ∃ a b : ℤ, to_second to_millis (date_text s) = some a ∧
      to_second to_millis (date_text t) = some b ∧ a < b := by
  refine ⟨_, _, to_second_date h s, to_second_date h t, ?_⟩
  have hs := days_in_month_le s.year s.month
  have ht := le_days_in_month t.year t.month
  rw [three_day] at hfar
  omega

/-- `isOldPath` of a dated name, for a day of a month as long as the one of the name. -/
theorem is_old_path_of_same_length (h : Normalises to_millis) {t now : CivilTime}
    {name : List Char} (hname : name.take 16 = date_text t)
    (hlength : days_in_month t.year t.month = days_in_month now.year now.month) {current : ℤ}
    (hcurrent : to_second to_millis (date_text now) = some current) :
    is_old_path to_millis current name = some true ↔ OldDate now name := by
  have hread := to_second_date h t
  rw [to_second_date_text, Option.some.injEq] at hread
  rw [to_second_date h, Option.some.injEq] at hcurrent
  rw [is_old_path_of_date hname, hread, oldDate_iff hname, Option.some.injEq, decide_eq_true_iff,
    ← hcurrent, hlength]
  omega

end OldPath

end AndroidTools.Logtool
