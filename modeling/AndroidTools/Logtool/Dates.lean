/-
Dates as names: `getDate` writes `yyyy_MMdd_HHmmss`, `toSecond` reads it.

What `toSecond` cannot parse counts as second 0, and the month is handed to `Time.set`, which
counts from 0, as it is written, so every date is taken for the same day of a later month.
`isOldPath` compares two such numbers, one for the name and one for the present time.

`Time.toMillis` is not part of the repository and stays a parameter, as a function of the fields
that are set. This module says what those fields are for a date and for other names; what follows
about the numbers needs a calendar and comes in the next one. The names themselves are `padded`
numbers, so a date is read back from its text field by field, and no two times have the same text.
-/
import Mathlib.Data.List.DropRight
import AndroidTools.Lib.Text

set_option autoImplicit false

namespace AndroidTools.Logtool

open AndroidTools.Text

/-! ## Dates

Valid dates only: the fields carry the bounds of a calendar, so a date that does not exist
cannot be written. `seconds` counts from the beginning of year 0 and is the measure in which
"more than three days" is meant.
-/

def is_leap (year : ℕ) : Bool := year % 4 = 0 && (year % 100 ≠ 0 || year % 400 = 0)

def days_in_month (year month : ℕ) : ℕ :=
  if month = 2 then if is_leap year then 29 else 28
  else if month = 4 ∨ month = 6 ∨ month = 9 ∨ month = 11 then 30 else 31

/-- A valid date and time of day: the day is one of its month, and the time one of the day. -/
structure CivilTime where
  year : ℕ
  month : ℕ
  day : ℕ
  hour : ℕ
  minute : ℕ
  second : ℕ
  year_lt : year < 10000
  month_mem : 1 ≤ month ∧ month ≤ 12
  day_mem : 1 ≤ day ∧ day ≤ days_in_month year month
  hour_lt : hour < 24
  minute_lt : minute < 60
  second_lt : second < 60

/-- The number of days from the beginning of year 0. -/
def CivilTime.days (t : CivilTime) : ℕ :=
  365 * t.year + (t.year + 3) / 4 - (t.year + 99) / 100 + (t.year + 399) / 400
    + ((List.range (t.month - 1)).map fun m => days_in_month t.year (m + 1)).sum + (t.day - 1)

/-- The number of seconds from the beginning of year 0. -/
def CivilTime.seconds (t : CivilTime) : ℕ :=
  ((t.days * 24 + t.hour) * 60 + t.minute) * 60 + t.second

/-- `getDate` at the time `t`: `yyyy_MMdd_HHmmss`, every number with leading zeros. -/
def date_text (t : CivilTime) : List Char :=
  padded 4 t.year ++ '_' :: (padded 2 t.month ++ padded 2 t.day
    ++ '_' :: (padded 2 t.hour ++ padded 2 t.minute ++ padded 2 t.second))

/-- `THREE_DAY`, in the seconds in which the source compares. -/
def three_day : ℕ := 60 * 24 * 60 * 3

/-- The name begins with a valid date more than three days before `now`. -/
def OldDate (now : CivilTime) (name : List Char) : Prop :=
  ∃ t : CivilTime, name.take 16 = date_text t ∧ t.seconds + three_day < now.seconds

/-! ## Reading a date

`toSecond` reads a text as it comes. Its `try` block catches what goes wrong while the
numbers are read and leaves the fields of a new `Time` then, but `times[0]` stands in front
of it. Which of the two happens depends on how `split` treats underscores, so the pieces are
modelled as `split` gives them.
-/

/-- The fields of `android.text.format.Time` that `toSecond` sets. -/
structure TimeFields where
  second : ℤ
  minute : ℤ
  hour : ℤ
  month_day : ℤ
  month : ℤ
  year : ℤ
  deriving Repr, DecidableEq

/-- `new Time()`: the beginning of 1970. -/
def new_time : TimeFields := ⟨0, 0, 0, 1, 0, 1970⟩

/-- `isDigitIgnoreDash`: every character is a digit or an underscore. -/
def is_digit_ignore_dash (value : List Char) : Bool :=
  value ≠ [] && value.all fun c => c = '_' || c.isDigit

/-- `time.split("_")`, which leaves out empty pieces at the end. -/
def split_dash (time : List Char) : List (List Char) :=
  (time.splitOnP (· = '_')).rdropWhile (· = [])

/-- `Integer.valueOf` of digits; `none` for the `NumberFormatException`. -/
def integer_value_of (s : List Char) : Option ℤ :=
  if s ≠ [] ∧ s.all Char.isDigit = true ∧ natOfDigits s < 2 ^ 31 then some (natOfDigits s)
  else none

/-- `substring`; `none` where the text is too short for it. -/
def substring (s : List Char) (start stop : ℕ) : Option (List Char) :=
  if stop ≤ s.length then some ((s.take stop).drop start) else none

/-- The `try` block of `toSecond`; `none` for any exception that it catches. -/
def read_fields (times : List (List Char)) : Option TimeFields := do
  let year ← times[0]?.bind integer_value_of
  let date ← times[1]?
  let month ← (substring date 0 2).bind integer_value_of
  let month_day ← (substring date 2 4).bind integer_value_of
  let time ← times[2]?
  let hour ← (substring time 0 2).bind integer_value_of
  let minute ← (substring time 2 4).bind integer_value_of
  let second ← (substring time 4 6).bind integer_value_of
  some ⟨second, minute, hour, month_day, month, year⟩

section Reading

variable (to_millis : TimeFields → ℤ)

/-- `toSecond`; `none` is the exception for `times[0]`, which nothing catches. -/
def to_second (time : List Char) : Option ℤ :=
  match split_dash time with
  | [] => none
  | first :: rest =>
    if is_digit_ignore_dash first then
      match read_fields (first :: rest) with
      | some f => some (Int.tdiv (to_millis f) 1000)
      | none => some 0
    else some (Int.tdiv (to_millis new_time) 1000)

/-- `isOldPath`, on the name of the file at the time `now`; `none` where `toSecond` raises. -/
def is_old_path (now : ℤ) (name : List Char) : Option Bool :=
  if 16 ≤ name.length then
    let date_name := name.take 16
    if is_digit_ignore_dash date_name then
      (to_second to_millis date_name).map fun past => decide (past + three_day < now)
    else some false
  else some false

end Reading

/-! ## Reading back what `getDate` writes

A date printed by `getDate` is split into three pieces and read as six numbers, of which the
month is handed to `Time.set` as it is written. So each date is read as the same day of the
month that follows, which need not exist.
-/

/-- The fields `toSecond` sets for a date: the month is one too far. -/
def CivilTime.as_read (t : CivilTime) : TimeFields :=
  ⟨t.second, t.minute, t.hour, t.day, t.month, t.year⟩

theorem not_dash_padded {k n : ℕ} {c : Char} (h : c ∈ padded k n) : decide (c = '_') = false := by
  rw [decide_eq_false_iff_not]
  rintro rfl
  have hdigit := isDigit_padded h
  exact absurd hdigit (by decide)

theorem padded_ne_nil {k : ℕ} (hk : 0 < k) (n : ℕ) : padded k n ≠ [] := by
  intro hnil
  have hlen := length_padded k n
  rw [hnil, List.length_nil] at hlen
  omega

theorem integer_value_of_padded {k n : ℕ} (hk : 0 < k) (h : n < 10 ^ k) (hsmall : n < 2 ^ 31) :
    integer_value_of (padded k n) = some (n : ℤ) := by
  have hdigits : (padded k n).all Char.isDigit = true :=
    List.all_eq_true.mpr fun _ hc => isDigit_padded hc
  rw [integer_value_of, natOfDigits_padded h, if_pos ⟨padded_ne_nil hk n, hdigits, hsmall⟩]

/-- A piece of a text, by the lengths before and in it. -/
theorem substring_append {a b c : List Char} {start stop : ℕ} (ha : a.length = start)
    (hb : a.length + b.length = stop) : substring (a ++ (b ++ c)) start stop = some b := by
  subst ha hb
  have hlen : a.length + b.length ≤ (a ++ (b ++ c)).length := by
    rw [List.length_append, List.length_append]
    omega
  rw [substring, if_pos hlen, List.take_length_add_append, List.take_left, List.drop_left]

theorem substring_front {b : List Char} {stop : ℕ} (hb : b.length = stop) (c : List Char) :
    substring (b ++ c) 0 stop = some b :=
  @substring_append [] b c 0 stop rfl ((Nat.zero_add _).trans hb)

theorem days_in_month_le (year month : ℕ) : days_in_month year month ≤ 31 := by
  unfold days_in_month
  split_ifs <;> omega

theorem split_date_text (t : CivilTime) : split_dash (date_text t)
    = [padded 4 t.year, padded 2 t.month ++ padded 2 t.day,
      padded 2 t.hour ++ padded 2 t.minute ++ padded 2 t.second] := by
  have hdigits : ∀ n : ℕ, ∀ c ∈ padded 2 n, decide (c = '_') = false :=
    fun _ _ hc => not_dash_padded hc
  have hdate : ∀ c ∈ padded 2 t.month ++ padded 2 t.day, decide (c = '_') = false :=
    List.forall_mem_append.mpr ⟨hdigits t.month, hdigits t.day⟩
  have htime : ∀ c ∈ padded 2 t.hour ++ padded 2 t.minute ++ padded 2 t.second,
      decide (c = '_') = false :=
    List.forall_mem_append.mpr
      ⟨List.forall_mem_append.mpr ⟨hdigits t.hour, hdigits t.minute⟩, hdigits t.second⟩
  have hlast : padded 2 t.hour ++ padded 2 t.minute ++ padded 2 t.second ≠ [] := by
    intro hnil
    have hlen := congrArg List.length hnil
    simp only [List.length_append, length_padded, List.length_nil] at hlen
    omega
  rw [split_dash, date_text,
    List.splitOnP_append_cons_of_forall_mem (fun _ hc => not_dash_padded hc) '_' rfl,
    List.splitOnP_append_cons_of_forall_mem hdate '_' rfl, List.splitOnP_eq_singleton htime,
    List.rdropWhile_eq_self_iff]
  exact fun _ hempty => hlast (of_decide_eq_true hempty)

/-- The fields that `toSecond` reads from three pieces: what comes behind the digits it looks at
does not matter. -/
theorem read_fields_pieces {y : List Char} {year : ℤ} (hy : integer_value_of y = some year)
    {month day hour minute second : ℕ} (hmonth : month < 100) (hday : day < 100)
    (hhour : hour < 100) (hminute : minute < 100) (hsecond : second < 100) (a b : List Char)
    (rest : List (List Char)) :
    read_fields (y :: (padded 2 month ++ (padded 2 day ++ a))
        :: (padded 2 hour ++ (padded 2 minute ++ (padded 2 second ++ b))) :: rest)
      = some ⟨second, minute, hour, day, month, year⟩ := by
  -- two digits a field, from the front to the back of each piece
  have hlen := length_padded 2
  have h1 : substring (padded 2 month ++ (padded 2 day ++ a)) 0 2 = some (padded 2 month) :=
    substring_front (hlen _) _
  have h2 : substring (padded 2 month ++ (padded 2 day ++ a)) 2 4 = some (padded 2 day) :=
    substring_append (hlen _) (by rw [hlen, hlen])
  have h3 : substring (padded 2 hour ++ (padded 2 minute ++ (padded 2 second ++ b))) 0 2
      = some (padded 2 hour) :=
    substring_front (hlen _) _
  have h4 : substring (padded 2 hour ++ (padded 2 minute ++ (padded 2 second ++ b))) 2 4
      = some (padded 2 minute) :=
    substring_append (hlen _) (by rw [hlen, hlen])
  have h5 : substring (padded 2 hour ++ (padded 2 minute ++ (padded 2 second ++ b))) 4 6
      = some (padded 2 second) := by
    rw [← List.append_assoc]
    exact substring_append (by rw [List.length_append, hlen, hlen])
      (by rw [List.length_append, hlen, hlen, hlen])
  have hvalue : ∀ n < 100, integer_value_of (padded 2 n) = some (n : ℤ) := fun n hn =>
    integer_value_of_padded (by decide) (by omega) (by omega)
  rw [read_fields]
  simp only [List.getElem?_cons_zero, List.getElem?_cons_succ, Option.bind_eq_bind,
    Option.bind_some, hy, h1, h2, h3, h4, h5, hvalue _ hmonth, hvalue _ hday, hvalue _ hhour,
    hvalue _ hminute, hvalue _ hsecond]

theorem read_fields_date (t : CivilTime) :
    read_fields [padded 4 t.year, padded 2 t.month ++ padded 2 t.day,
      padded 2 t.hour ++ padded 2 t.minute ++ padded 2 t.second] = some t.as_read := by
  have hy := t.year_lt
  have hm := t.month_mem
  have hd := t.day_mem
  have hd31 := days_in_month_le t.year t.month
  have hh := t.hour_lt
  have hmi := t.minute_lt
  have hs := t.second_lt
  have hyear : integer_value_of (padded 4 t.year) = some (t.year : ℤ) :=
    integer_value_of_padded (by decide) (by omega) (by omega)
  have hread := read_fields_pieces hyear (show t.month < 100 by omega)
    (show t.day < 100 by omega) (show t.hour < 100 by omega) (show t.minute < 100 by omega)
    (show t.second < 100 by omega) [] [] []
  rwa [List.append_nil, List.append_nil, ← List.append_assoc] at hread

theorem is_digit_padded {k : ℕ} (hk : 0 < k) (n : ℕ) :
    is_digit_ignore_dash (padded k n) = true := by
  rw [is_digit_ignore_dash, Bool.and_eq_true, decide_eq_true_iff]
  refine ⟨padded_ne_nil hk n, List.all_eq_true.mpr fun c hc => ?_⟩
  rw [isDigit_padded hc, Bool.or_true]

/-- A date is read as one of the month that follows. -/
theorem to_second_date_text (to_millis : TimeFields → ℤ) (t : CivilTime) :
    to_second to_millis (date_text t) = some (Int.tdiv (to_millis t.as_read) 1000) := by
  rw [to_second, split_date_text]
  dsimp only
  rw [is_digit_padded (by decide), read_fields_date]
  rfl

/-- A text is the date of one time at most. -/
theorem date_text_injective : Function.Injective date_text := by
  intro s t h
  have hread : some s.as_read = some t.as_read := by
    rw [← read_fields_date, ← read_fields_date, ← split_date_text, ← split_date_text, h]
  have hfields := Option.some.inj hread
  rw [CivilTime.as_read, CivilTime.as_read, TimeFields.mk.injEq] at hfields
  cases s
  cases t
  simp only [Nat.cast_inj] at hfields
  obtain ⟨rfl, rfl, rfl, rfl, rfl, rfl⟩ := hfields
  rfl

theorem length_date_text (t : CivilTime) : (date_text t).length = 16 := by
  rw [date_text]
  simp only [List.length_append, List.length_cons, length_padded]

theorem date_text_dash (t : CivilTime) : (date_text t)[4]? = some '_' := by
  have hlen := length_padded 4 t.year
  rw [date_text, List.getElem?_append_right (by omega), hlen]
  rfl

theorem is_digit_date_text (t : CivilTime) : is_digit_ignore_dash (date_text t) = true := by
  have hdigit : ∀ k n, ∀ c ∈ padded k n, (decide (c = '_') || c.isDigit) = true := by
    intro k n c hc
    rw [isDigit_padded hc, Bool.or_true]
  have hne : date_text t ≠ [] := by
    intro hnil
    have hlen := length_date_text t
    rw [hnil] at hlen
    cases hlen
  rw [is_digit_ignore_dash, Bool.and_eq_true, decide_eq_true_iff]
  refine ⟨hne, ?_⟩
  rw [date_text]
  simp only [List.all_append, List.all_cons, Bool.and_eq_true, List.all_eq_true]
  exact ⟨hdigit 4 _, rfl, ⟨hdigit 2 _, hdigit 2 _⟩, rfl, ⟨hdigit 2 _, hdigit 2 _⟩, hdigit 2 _⟩

/-! ## Which names are old

For a name that begins with a date `isOldPath` compares two such readings. For one of digits
and underscores that is no date it compares the beginning of 1970 with the current time, and
so takes it for old.
-/

section Names

variable {name : List Char}

/-- For a name that begins with a date, `isOldPath` compares the moments that `toSecond` makes
of the two dates. -/
theorem is_old_path_of_date {t : CivilTime} (h : name.take 16 = date_text t)
    (to_millis : TimeFields → ℤ) (now : ℤ) :
    is_old_path to_millis now name
      = some (decide (Int.tdiv (to_millis t.as_read) 1000 + three_day < now)) := by
  have hlen : 16 ≤ name.length := by
    have hcut := congrArg List.length h
    rw [List.length_take, length_date_text] at hcut
    omega
  rw [is_old_path, if_pos hlen, h]
  dsimp only
  rw [is_digit_date_text, if_pos rfl, to_second_date_text]
  rfl

/-- A name that begins with a date is old when this date is more than three days back; there is
no second date it could begin with. -/
theorem oldDate_iff {t : CivilTime} (h : name.take 16 = date_text t) (now : CivilTime) :
    OldDate now name ↔ t.seconds + three_day < now.seconds := by
  constructor
  · rintro ⟨t', ht', hold⟩
    rwa [date_text_injective (h.symm.trans ht')]
  · exact fun hold => ⟨t, h, hold⟩

/-- A name without an underscore behind the year is not a date. -/
theorem not_oldDate (h : name[4]? ≠ some '_') (now : CivilTime) : ¬ OldDate now name := by
  rintro ⟨t, ht, -⟩
  apply h
  rw [← date_text_dash t, ← ht, List.getElem?_take_of_lt (by decide)]

/-- A name of digits and underscores that cannot be read as a date counts as 1970. -/
theorem is_old_path_of_unreadable (hlen : 16 ≤ name.length)
    (hdigits : is_digit_ignore_dash (name.take 16) = true) {first : List Char}
    {rest : List (List Char)} (hsplit : split_dash (name.take 16) = first :: rest)
    (hfirst : is_digit_ignore_dash first = true) (hread : read_fields (first :: rest) = none)
    (to_millis : TimeFields → ℤ) (now : ℤ) :
    is_old_path to_millis now name = some (decide ((three_day : ℤ) < now)) := by
  rw [is_old_path, if_pos hlen]
  dsimp only
  rw [if_pos hdigits, to_second, hsplit]
  dsimp only
  rw [if_pos hfirst, hread, Option.map_some, Int.zero_add]

end Names

end AndroidTools.Logtool
