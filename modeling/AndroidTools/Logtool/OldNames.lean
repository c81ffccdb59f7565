/-
Which names `isOldPath` takes for old, said of the name and of the calendar.

A name counts when its first sixteen characters are digits and underscores. Three
things can then happen. Sixteen underscores leave nothing to split, and `times[0]`
raises an exception that nothing catches. Six numbers at the places of a date, with
two digits each behind the year and with anything after them, stand for a moment of
the calendar, whether or not there is such a date: a calendar that normalises makes
the 99th of month 99 a day like any other, and it counts the months from 0. All
other names come out as second 0, which is the beginning of 1970.

`Raises` and `Taken` are these cases without the code, and the two main results of
the module say that they are what `isOldPath` does. The calendar is `Time.toMillis`,
a parameter: `Carries` lists what it is known to do, in the manner of `Normalises`,
and `Carries.millis_eq` is what follows from that for any six numbers.
-/
import AndroidTools.Lib.DirTree
import AndroidTools.Logtool.Elapsed

set_option autoImplicit false

namespace AndroidTools.Logtool

open AndroidTools.Text AndroidTools.DirTree

/-! ## A calendar for any six numbers

`toSecond` passes on numbers that are no date, the month one too far and anything else that
two digits can be. `Carries` asks of the calendar what `mktime` promises: that what is out
of range is carried over, from the seconds up to the years. From valid dates and these laws
the value of any six numbers follows.
-/

/-- `Time.toMillis` in UTC when no field is in its range: besides the days, which `Normalises`
speaks of, seconds, minutes and hours are carried over, and twelve months make a year. -/
structure Carries (to_millis : TimeFields → ℤ) : Prop extends Normalises to_millis where
  add_seconds : ∀ (f : TimeFields) (n : ℤ),
    to_millis { f with second := f.second + n } = to_millis f + n * 1000
  add_minutes : ∀ (f : TimeFields) (n : ℤ),
    to_millis { f with minute := f.minute + n } = to_millis f + n * 60000
  add_hours : ∀ (f : TimeFields) (n : ℤ),
    to_millis { f with hour := f.hour + n } = to_millis f + n * 3600000
  next_year : ∀ f : TimeFields,
    to_millis { f with month := f.month + 12 } = to_millis { f with year := f.year + 1 }

theorem utc_millis_carries : Carries utc_millis where
  toNormalises := utc_millis_normalises
  add_seconds f n := by
    rw [utc_millis_eq, utc_millis_eq]
    ring
  add_minutes f n := by
    rw [utc_millis_eq, utc_millis_eq]
    ring
  add_hours f n := by
    rw [utc_millis_eq, utc_millis_eq]
    ring
  next_year f := by
    have hyear : f.year + (f.month + 12) / 12 = f.year + 1 + f.month / 12 := by omega
    have hmonth : (f.month + 12) % 12 = f.month % 12 := by omega
    rw [utc_millis_eq, utc_millis_eq]
    dsimp only
    rw [hyear, hmonth]

section Calendar

variable {to_millis : TimeFields → ℤ}

/-- Midnight of 1 January of year 0. -/
def year_zero : CivilTime where
  year := 0
  month := 1
  day := 1
  hour := 0
  minute := 0
  second := 0
  year_lt := by decide
  month_mem := epoch.month_mem
  day_mem := by decide
  hour_lt := epoch.hour_lt
  minute_lt := epoch.minute_lt
  second_lt := epoch.second_lt

/-- The first of each month, one after the other from year 0. -/
theorem Carries.month_start_millis (h : Carries to_millis) (n : ℕ) :
    to_millis ⟨0, 0, 0, 1, (n % 12 : ℕ), (n / 12 : ℕ)⟩
      = ((month_start n : ℤ) * 86400 - epoch.seconds) * 1000 := by
  induction n with
  | zero =>
    have hzero := h.of_date year_zero
    have hseconds : year_zero.seconds = 0 := by decide
    have hstart : month_start 0 = 0 := by decide
    rw [hseconds] at hzero
    rw [hstart]
    exact hzero
  | succ n ih =>
    have hlength := month_start_succ n
    have hmonth : n % 12 + 1 ≤ 12 := by omega
    -- the month after is the same month with its days on top of the first
    have hnext := h.next_month ⟨0, 0, 0, 1, (n % 12 : ℕ), (n / 12 : ℕ)⟩ (n / 12) (n % 12 + 1)
      (by omega) hmonth rfl (by push_cast; omega)
    rw [h.add_days, ih] at hnext
    have hvalue : to_millis ⟨0, 0, 0, 1, (n % 12 + 1 : ℕ), (n / 12 : ℕ)⟩
        = ((month_start (n + 1) : ℤ) * 86400 - epoch.seconds) * 1000 := by
      rw [hnext, hlength]
      push_cast
      ring
    rcases Nat.lt_or_ge (n % 12) 11 with hlt | hge
    · have hm : (n + 1) % 12 = n % 12 + 1 := by omega
      have hy : (n + 1) / 12 = n / 12 := by omega
      rw [hm, hy, hvalue]
    -- behind December stands the first month of the next year
    · have hm : (n + 1) % 12 = 0 := by omega
      have hy : (n + 1) / 12 = n / 12 + 1 := by omega
      have hlast : n % 12 + 1 = 12 := by omega
      have hyear := h.next_year ⟨0, 0, 0, 1, 0, (n / 12 : ℕ)⟩
      rw [hlast] at hvalue
      rw [hm, hy, Nat.cast_add_one]
      exact hyear.symm.trans hvalue

/-- Twelve months at a time go into the year, as often as wanted. -/
theorem Carries.years (h : Carries to_millis) (year month n : ℕ) :
    to_millis ⟨0, 0, 0, 1, (12 * n + month : ℕ), year⟩
      = to_millis ⟨0, 0, 0, 1, month, (year + n : ℕ)⟩ := by
  induction n generalizing year with
  | zero => rw [Nat.mul_zero, Nat.zero_add, Nat.add_zero]
  | succ n ih =>
    have hnext := h.next_year ⟨0, 0, 0, 1, (12 * n + month : ℕ), year⟩
    have hmonth : ((12 * (n + 1) + month : ℕ) : ℤ) = ((12 * n + month : ℕ) : ℤ) + 12 := by
      push_cast
      ring
    have hyear : year + (n + 1) = year + 1 + n := by omega
    rw [hmonth, hnext, ← Nat.cast_add_one, ih, hyear]

/-- **What the calendar makes of six numbers.** Whatever they are, the months go into years, the
rest of them decides the day on which the month begins, and days, hours, minutes and seconds are
counted from there. -/
theorem Carries.millis_eq (h : Carries to_millis) (second minute hour day month year : ℕ) :
    to_millis ⟨second, minute, hour, day, month, year⟩
      = ((((month_start (12 * year + month) : ℤ) + day - 1) * 86400 + hour * 3600 + minute * 60
          + second) - epoch.seconds) * 1000 := by
  have hsecond := h.add_seconds ⟨0, minute, hour, day, month, year⟩ second
  have hminute := h.add_minutes ⟨0, 0, hour, day, month, year⟩ minute
  have hhour := h.add_hours ⟨0, 0, 0, day, month, year⟩ hour
  have hday := h.add_days ⟨0, 0, 0, 1, month, year⟩ (day - 1)
  have hyears := h.years year (month % 12) (month / 12)
  have hstart := h.month_start_millis (12 * year + month)
  have hmonth : 12 * (month / 12) + month % 12 = month := Nat.div_add_mod month 12
  have hm : (12 * year + month) % 12 = month % 12 := by omega
  have hy : (12 * year + month) / 12 = year + month / 12 := by omega
  rw [hmonth] at hyears
  rw [hm, hy] at hstart
  simp only [zero_add, add_sub_cancel] at hsecond hminute hhour hday
  rw [hsecond, hminute, hhour, hday, hyears, hstart]
  ring

/-- `new Time()` stands for the beginning of 1970. -/
theorem Carries.new_time_millis (h : Carries to_millis) : to_millis new_time = 0 := by
  have hdate := h.of_date epoch
  rw [Int.sub_self, Int.zero_mul] at hdate
  exact hdate

end Calendar

/-! ## What a name stands for

The six numbers are read from the places of a date: the year before the first underscore,
month and day behind it, the time of day behind the next. What follows does not matter, so
there are names that write a time without being a date. `Raises` and `Taken` are the
verdicts of `isOldPath`, stated on the text.
-/

/-- Six numbers as a name writes them: two digits each, and any number of digits for the
year. -/
structure WrittenTime where
  year : ℕ
  month : ℕ
  day : ℕ
  hour : ℕ
  minute : ℕ
  second : ℕ
  month_lt : month < 100
  day_lt : day < 100
  hour_lt : hour < 100
  minute_lt : minute < 100
  second_lt : second < 100

/-- The seconds from the beginning of year 0 to the moment the numbers stand for, the month
counted from 0 and everything carried over. -/
def WrittenTime.moment (w : WrittenTime) : ℤ :=
  ((month_start (12 * w.year + w.month) : ℤ) + w.day - 1) * 86400 + w.hour * 3600
    + w.minute * 60 + w.second

def WrittenTime.as_fields (w : WrittenTime) : TimeFields :=
  ⟨w.second, w.minute, w.hour, w.day, w.month, w.year⟩

/-- A text that has the six numbers at the places of a date: the year before the first
underscore, month and day behind it, and the time of day behind the next. -/
def Writes (text : List Char) (w : WrittenTime) : Prop :=
  ∃ y a b : List Char, y ≠ [] ∧ (∀ c ∈ y, c.isDigit = true) ∧ natOfDigits y = w.year ∧ '_' ∉ a ∧
    text = y ++ '_' :: (padded 2 w.month ++ (padded 2 w.day ++ a)
      ++ '_' :: (padded 2 w.hour ++ (padded 2 w.minute ++ (padded 2 w.second ++ b))))

/-- The moment that `toSecond` finds for the time `t`: the same day of the month after. -/
def CivilTime.read_moment (t : CivilTime) : ℕ :=
  t.seconds + 86400 * days_in_month t.year t.month

/-- A name that raises an exception: it begins with sixteen underscores. -/
def Raises (name : List Char) : Prop :=
  16 ≤ name.length ∧ ∀ c ∈ name.take 16, c = '_'

/-- A name that is taken for old at the time `now`: sixteen digits and underscores that stand
for a moment more than three days back, the beginning of 1970 where they are no six numbers. -/
def Taken (now : CivilTime) (name : List Char) : Prop :=
  16 ≤ name.length ∧ (∀ c ∈ name.take 16, c = '_' ∨ c.isDigit = true) ∧
    (∃ c ∈ name.take 16, c ≠ '_') ∧
    ((∃ w, Writes (name.take 16) w ∧ w.moment + three_day < now.read_moment) ∨
      (¬ ∃ w, Writes (name.take 16) w) ∧ epoch.seconds + three_day < now.read_moment)

/-! ## Splitting a name

`split` takes a text apart at its underscores and leaves empty pieces out at the end only.
So a piece that is not empty is where it was among all pieces, and nothing is left exactly
where the text is made of underscores.
-/

section Split

/-- A text is one piece, or the piece before its first underscore and those of the rest. -/
theorem splitOnP_cases (text : List Char) :
    ('_' ∉ text ∧ text.splitOnP (· = '_') = [text]) ∨
      ∃ y rest, text = y ++ '_' :: rest ∧ '_' ∉ y ∧
        text.splitOnP (· = '_') = y :: rest.splitOnP (· = '_') := by
  have hdash : ∀ l : List Char, '_' ∉ l → ∀ c ∈ l, decide (c = '_') = false := by
    intro l hl c hc
    rw [decide_eq_false_iff_not]
    rintro rfl
    exact hl hc
  by_cases hmem : '_' ∈ text
  · obtain ⟨y, rest, rfl, hy⟩ := List.eq_append_cons_of_mem hmem
    exact Or.inr ⟨y, rest, rfl, hy,
      List.splitOnP_append_cons_of_forall_mem (hdash y hy) '_' rfl rest⟩
  · exact Or.inl ⟨hmem, List.splitOnP_eq_singleton (hdash text hmem)⟩

/-- The first piece is the beginning of the text up to an underscore. -/
theorem splitOnP_head {a : List Char} (ha : '_' ∉ a) (b : List Char) :
    ∃ c pieces, (a ++ b).splitOnP (· = '_') = (a ++ c) :: pieces := by
  rcases splitOnP_cases (a ++ b) with ⟨-, hsplit⟩ | ⟨y, rest, htext, hy, hsplit⟩
  · exact ⟨b, [], hsplit⟩
  · -- the first underscore stands behind `a`
    rcases List.append_eq_append_iff.mp htext with ⟨c, rfl, -⟩ | ⟨c, rfl, hrest⟩
    · exact ⟨c, _, hsplit⟩
    · cases c with
      | nil => exact ⟨[], _, by rw [hsplit, List.append_nil, List.append_nil]⟩
      | cons d c =>
        obtain ⟨rfl, -⟩ := List.cons.inj hrest
        exact absurd (List.mem_append_right y List.mem_cons_self) ha

/-- A piece behind the first has an underscore before it, at which the text is cut in two. -/
theorem splitOnP_succ {text piece : List Char} {k : ℕ}
    (h : (text.splitOnP (· = '_'))[k + 1]? = some piece) :
    ∃ y rest, text = y ++ '_' :: rest ∧ '_' ∉ y ∧
      text.splitOnP (· = '_') = y :: rest.splitOnP (· = '_') := by
  rcases splitOnP_cases text with ⟨-, hsplit⟩ | hcut
  · rw [hsplit] at h
    cases h
  · exact hcut

/-- The first piece is a beginning of the text without an underscore. -/
theorem splitOnP_zero {text piece : List Char}
    (h : (text.splitOnP (· = '_'))[0]? = some piece) : piece <+: text ∧ '_' ∉ piece := by
  rcases splitOnP_cases text with ⟨hno, hsplit⟩ | ⟨y, rest, rfl, hy, hsplit⟩
  · rw [hsplit] at h
    cases h
    exact ⟨List.prefix_rfl, hno⟩
  · rw [hsplit] at h
    cases h
    exact ⟨List.prefix_append _ _, hy⟩

/-- Splitting leaves nothing exactly where the text is made of underscores only. -/
theorem split_dash_eq_nil_iff (text : List Char) :
    split_dash text = [] ↔ ∀ c ∈ text, c = '_' := by
  rw [split_dash, List.rdropWhile_eq_nil_iff]
  simp only [decide_eq_true_eq]
  induction text with
  | nil => simp
  | cons c text ih =>
    rw [List.splitOnP_cons_eq_if_modifyHead]
    by_cases hc : c = '_'
    · rw [if_pos (decide_eq_true hc), List.forall_mem_cons, List.forall_mem_cons, ih]
      exact ⟨fun h => ⟨hc, h.2⟩, fun h => ⟨rfl, h.2⟩⟩
    · rw [if_neg (by rwa [decide_eq_true_eq])]
      refine iff_of_false (fun h => ?_) fun h => hc (h c List.mem_cons_self)
      -- the first piece holds the character
      obtain ⟨p, ps, hp⟩ := List.exists_cons_of_ne_nil (List.splitOnP_ne_nil (· = '_') text)
      rw [hp, List.modifyHead_cons] at h
      exact absurd (h (c :: p) List.mem_cons_self) (List.cons_ne_nil c p)

/-- A piece that `split` has not left out is where it was among all pieces. -/
theorem getElem?_split_dash {text piece : List Char} {i : ℕ}
    (h : (split_dash text)[i]? = some piece) :
    (text.splitOnP (· = '_'))[i]? = some piece := by
  have hprefix : split_dash text <+: text.splitOnP (· = '_') := List.rdropWhile_prefix ..
  obtain ⟨rest, hrest⟩ := hprefix
  rw [← hrest, List.getElem?_append_left (List.getElem?_eq_some_iff.mp h).1]
  exact h

/-- Where piece `k` is not empty, it and those before it are left in. -/
theorem split_dash_getElem? {text piece : List Char} {k : ℕ}
    (h : (text.splitOnP (· = '_'))[k]? = some piece) (hne : piece ≠ []) {i : ℕ} (hi : i ≤ k) :
    (split_dash text)[i]? = (text.splitOnP (· = '_'))[i]? := by
  set pieces := text.splitOnP (· = '_') with hpieces
  have happ : split_dash text ++ pieces.rtakeWhile (· = []) = pieces :=
    List.rdropWhile_append_rtakeWhile ..
  rcases Nat.lt_or_ge k (split_dash text).length with hlt | hge
  · conv_rhs => rw [← happ]
    rw [List.getElem?_append_left (by omega)]
  -- what is left out is empty
  · rw [← happ, List.getElem?_append_right hge] at h
    have hempty := List.mem_rtakeWhile_imp (List.mem_of_getElem? h)
    exact absurd (of_decide_eq_true hempty) hne

end Split

/-! ## Reading six numbers

Both directions between the pieces and the numbers: what is read as six numbers is a text
that writes them, and a text that writes them is read so. They are needed at sixteen
characters, where a year may have any number of digits.
-/

theorem substring_eq_some {s t : List Char} {start stop : ℕ}
    (h : substring s start stop = some t) : stop ≤ s.length ∧ t = (s.take stop).drop start := by
  unfold substring at h
  split_ifs at h with hlen
  exact ⟨hlen, (Option.some.inj h).symm⟩

theorem integer_value_of_eq_some {s : List Char} {v : ℤ} (h : integer_value_of s = some v) :
    s ≠ [] ∧ (∀ c ∈ s, c.isDigit = true) ∧ v = natOfDigits s := by
  unfold integer_value_of at h
  split_ifs at h with hs
  exact ⟨hs.1, List.all_eq_true.mp hs.2.1, (Option.some.inj h).symm⟩

/-- A number that is read from two digits is one below 100, and they are its padded form. -/
theorem two_digits {s t : List Char} {start : ℕ} {v : ℤ}
    (hs : substring s start (start + 2) = some t) (hv : integer_value_of t = some v) :
    ∃ n < 100, v = (n : ℕ) ∧ (s.drop start).take 2 = padded 2 n := by
  obtain ⟨hlen, rfl⟩ := substring_eq_some hs
  obtain ⟨-, hdigits, rfl⟩ := integer_value_of_eq_some hv
  have htwo : ((s.take (start + 2)).drop start).length = 2 := by
    rw [List.length_drop, List.length_take]
    omega
  have hpadded := padded_natOfDigits hdigits
  have hlt := natOfDigits_lt hdigits
  rw [htwo] at hpadded hlt
  refine ⟨_, hlt, rfl, ?_⟩
  rw [hpadded, List.drop_take, Nat.add_sub_cancel_left]

theorem read_fields_congr {l m : List (List Char)} (h0 : l[0]? = m[0]?) (h1 : l[1]? = m[1]?)
    (h2 : l[2]? = m[2]?) : read_fields l = read_fields m := by
  rw [read_fields, read_fields, h0, h1, h2]

/-- A text of two numbers of two digits, or of three, and what comes behind them. -/
theorem take_two_append (l : List Char) : l = l.take 2 ++ ((l.drop 2).take 2 ++ l.drop 4) := by
  have hrest : (l.drop 2).take 2 ++ l.drop 4 = l.drop 2 := by
    simpa using List.take_append_drop 2 (l.drop 2)
  rw [hrest, List.take_append_drop]

/-- What reads as six numbers is a text that writes them. -/
theorem writes_of_read_fields {text : List Char} {f : TimeFields}
    (h : read_fields (split_dash text) = some f) : ∃ w, Writes text w ∧ f = w.as_fields := by
  simp only [read_fields, Option.bind_eq_bind, Option.bind_eq_some_iff] at h
  obtain ⟨year, ⟨y, hy, hyear⟩, date, hdate, month, ⟨t1, hs1, hv1⟩, day, ⟨t2, hs2, hv2⟩, time,
    htime, hour, ⟨t3, hs3, hv3⟩, minute, ⟨t4, hs4, hv4⟩, second, ⟨t5, hs5, hv5⟩, hf⟩ := h
  obtain ⟨hyne, hydigits, rfl⟩ := integer_value_of_eq_some hyear
  obtain ⟨mo, hmo, rfl, hp1⟩ := @two_digits _ _ 0 _ hs1 hv1
  obtain ⟨d, hd, rfl, hp2⟩ := @two_digits _ _ 2 _ hs2 hv2
  obtain ⟨ho, hho, rfl, hp3⟩ := @two_digits _ _ 0 _ hs3 hv3
  obtain ⟨mi, hmi, rfl, hp4⟩ := @two_digits _ _ 2 _ hs4 hv4
  obtain ⟨se, hse, rfl, hp5⟩ := @two_digits _ _ 4 _ hs5 hv5
  -- two underscores set the three pieces apart
  have hy := getElem?_split_dash hy
  have hdate := getElem?_split_dash hdate
  have htime := getElem?_split_dash htime
  obtain ⟨y', rest, htext, -, hsplit⟩ := splitOnP_succ htime
  rw [hsplit] at hy hdate htime
  obtain rfl : y' = y := Option.some.inj hy
  obtain ⟨date', rest', hrest, hdash, hsplit'⟩ := splitOnP_succ htime
  rw [List.getElem?_cons_succ, hsplit'] at hdate htime
  obtain rfl : date' = date := Option.some.inj hdate
  obtain ⟨behind, hbehind⟩ := (splitOnP_zero htime).1
  refine ⟨⟨natOfDigits y', mo, d, ho, mi, se, hmo, hd, hho, hmi, hse⟩,
    ⟨y', date'.drop 4, time.drop 6 ++ behind, hyne, hydigits, rfl, ?_, ?_⟩,
    (Option.some.inj hf).symm⟩
  · exact fun hin => hdash (List.mem_of_mem_drop hin)
  · have hdate2 := take_two_append date'
    have htime2 := take_two_append time
    rw [List.drop_zero] at hp1 hp3
    rw [hp1, hp2] at hdate2
    rw [hp3, hp4, ← List.take_append_drop 2 (time.drop 4), hp5, List.drop_drop] at htime2
    rw [htext, hrest, ← hbehind]
    conv_lhs => rw [hdate2, htime2]
    simp only [List.append_assoc]

/-- The six numbers are read from a text of sixteen characters that writes them; its year has
four digits at most. -/
theorem read_fields_of_writes {text : List Char} (hlen : text.length = 16) {w : WrittenTime}
    (h : Writes text w) : ∃ y rest, split_dash text = y :: rest ∧
      is_digit_ignore_dash y = true ∧ read_fields (y :: rest) = some w.as_fields := by
  obtain ⟨y, a, b, hyne, hydigits, hyear, ha, rfl⟩ := h
  have hdigits : ∀ l : List Char, (∀ c ∈ l, c.isDigit = true) →
      ∀ c ∈ l, decide (c = '_') = false := by
    intro l hl c hc
    rw [decide_eq_false_iff_not]
    rintro rfl
    exact absurd (hl _ hc) (by decide)
  have hpadded : ∀ n, ∀ c ∈ padded 2 n, decide (c = '_') = false := fun n =>
    hdigits _ fun c hc => isDigit_padded hc
  have hdate : ∀ c ∈ padded 2 w.month ++ (padded 2 w.day ++ a), decide (c = '_') = false := by
    refine List.forall_mem_append.mpr ⟨hpadded _, List.forall_mem_append.mpr ⟨hpadded _, ?_⟩⟩
    intro c hc
    rw [decide_eq_false_iff_not]
    rintro rfl
    exact ha hc
  have htime : '_' ∉ padded 2 w.hour ++ (padded 2 w.minute ++ padded 2 w.second) := by
    intro hin
    simp only [List.mem_append] at hin
    rcases hin with hin | hin | hin <;> exact absurd (isDigit_padded hin) (by decide)
  obtain ⟨c, pieces, hhead⟩ := splitOnP_head htime b
  rw [List.append_assoc, List.append_assoc, List.append_assoc, List.append_assoc] at hhead
  set text := y ++ '_' :: (padded 2 w.month ++ (padded 2 w.day ++ a)
    ++ '_' :: (padded 2 w.hour ++ (padded 2 w.minute ++ (padded 2 w.second ++ b)))) with htext
  have hsplit : text.splitOnP (· = '_')
      = y :: (padded 2 w.month ++ (padded 2 w.day ++ a))
        :: (padded 2 w.hour ++ (padded 2 w.minute ++ (padded 2 w.second ++ c))) :: pieces := by
    rw [htext, List.splitOnP_append_cons_of_forall_mem (hdigits y hydigits) '_' rfl,
      List.splitOnP_append_cons_of_forall_mem hdate '_' rfl, hhead]
  have hvalue : integer_value_of y = some (w.year : ℤ) := by
    have hlt := natOfDigits_lt hydigits
    have hshort : y.length ≤ 4 := by
      rw [htext] at hlen
      simp only [List.length_append, List.length_cons, length_padded] at hlen
      omega
    have hsmall := Nat.pow_le_pow_right (by decide : 0 < 10) hshort
    rw [integer_value_of, ← hyear, if_pos ⟨hyne, List.all_eq_true.mpr hydigits, by omega⟩]
  -- the piece of the time of day is not empty, so the first three are left in
  have hkeep : ∀ i ≤ 2, (split_dash text)[i]? = (text.splitOnP (· = '_'))[i]? := by
    intro i hi
    have htwo : (text.splitOnP (· = '_'))[2]?
        = some (padded 2 w.hour ++ (padded 2 w.minute ++ (padded 2 w.second ++ c))) := by
      rw [hsplit]
      rfl
    refine split_dash_getElem? htwo (fun hnil => ?_) hi
    exact padded_ne_nil (by decide) _ (List.append_eq_nil_iff.mp hnil).1
  have hread : read_fields (split_dash text) = some w.as_fields := by
    rw [read_fields_congr (hkeep 0 (by decide)) (hkeep 1 (by decide)) (hkeep 2 le_rfl), hsplit,
      read_fields_pieces hvalue w.month_lt w.day_lt w.hour_lt w.minute_lt w.second_lt]
    rfl
  have hfirst : (split_dash text)[0]? = some y := by
    rw [hkeep 0 (by decide), hsplit]
    rfl
  obtain ⟨y', rest, hcons⟩ : ∃ y' rest, split_dash text = y' :: rest :=
    List.exists_cons_of_ne_nil fun hnil => by
      rw [hnil] at hfirst
      cases hfirst
  rw [hcons] at hfirst hread
  obtain rfl : y' = y := Option.some.inj hfirst
  refine ⟨y', rest, hcons, ?_, hread⟩
  rw [is_digit_ignore_dash, Bool.and_eq_true, decide_eq_true_iff]
  refine ⟨hyne, List.all_eq_true.mpr fun c hc => ?_⟩
  rw [hydigits c hc, Bool.or_true]

/-! ## What `isOldPath` does

The three outcomes of `isOldPath`, an exception, old and not old, in terms of the name
alone. With these the walk over a tree can be described without evaluating `isOldPath` on
any of its names.
-/

theorem is_digit_ignore_dash_iff (value : List Char) :
    is_digit_ignore_dash value = true ↔ value ≠ [] ∧ ∀ c ∈ value, c = '_' ∨ c.isDigit = true := by
  rw [is_digit_ignore_dash, Bool.and_eq_true, decide_eq_true_iff, List.all_eq_true]
  simp only [Bool.or_eq_true, decide_eq_true_eq]

theorem take_sixteen_ne_nil {name : List Char} (hlen : 16 ≤ name.length) :
    name.take 16 ≠ [] := by
  intro hnil
  have hcut := congrArg List.length hnil
  rw [List.length_take, List.length_nil] at hcut
  omega

section IsOldPath

variable {to_millis : TimeFields → ℤ} {name : List Char}

/-- Six numbers are compared as the calendar carries them over, as the moment they stand for. -/
theorem is_old_path_of_writes (h : Carries to_millis) (hlen : 16 ≤ name.length)
    (hdigits : is_digit_ignore_dash (name.take 16) = true) {w : WrittenTime}
    (hw : Writes (name.take 16) w) (current : ℤ) :
    is_old_path to_millis current name
      = some (decide (w.moment - epoch.seconds + three_day < current)) := by
  have hcut : (name.take 16).length = 16 := by
    rw [List.length_take]
    omega
  obtain ⟨y, rest, hsplit, hy, hread⟩ := read_fields_of_writes hcut hw
  have hmillis : to_millis w.as_fields = (w.moment - epoch.seconds) * 1000 := by
    rw [WrittenTime.as_fields, h.millis_eq, WrittenTime.moment]
  rw [is_old_path, if_pos hlen]
  dsimp only
  rw [if_pos hdigits, to_second, hsplit]
  dsimp only
  rw [if_pos hy, hread]
  dsimp only
  rw [hmillis, Int.mul_tdiv_cancel _ (by decide), Option.map_some]

/-- What is no six numbers counts as 1970, whether the reading of a number fails or the name
begins with an underscore and nothing is read. -/
theorem is_old_path_of_not_writes (h : Carries to_millis) (hlen : 16 ≤ name.length)
    (hdigits : is_digit_ignore_dash (name.take 16) = true) (hdash : ∃ c ∈ name.take 16, c ≠ '_')
    (hnot : ¬ ∃ w, Writes (name.take 16) w) (current : ℤ) :
    is_old_path to_millis current name = some (decide ((three_day : ℤ) < current)) := by
  obtain ⟨c, hc, hne⟩ := hdash
  obtain ⟨first, rest, hsplit⟩ := List.exists_cons_of_ne_nil fun hnil =>
    hne ((split_dash_eq_nil_iff _).mp hnil c hc)
  by_cases hfirst : is_digit_ignore_dash first = true
  · have hread : read_fields (first :: rest) = none := by
      rw [Option.eq_none_iff_forall_ne_some]
      intro f hf
      rw [← hsplit] at hf
      obtain ⟨w, hw, -⟩ := writes_of_read_fields hf
      exact hnot ⟨w, hw⟩
    exact is_old_path_of_unreadable hlen hdigits hsplit hfirst hread to_millis current
  · rw [is_old_path, if_pos hlen]
    dsimp only
    rw [if_pos hdigits, to_second, hsplit]
    dsimp only
    rw [if_neg hfirst, h.new_time_millis, Int.zero_tdiv, Option.map_some, Int.zero_add]

/-- **A name raises exactly when it begins with sixteen underscores**, in any calendar and at any
time. -/
theorem is_old_path_eq_none_iff (current : ℤ) :
    is_old_path to_millis current name = none ↔ Raises name := by
  have hsecond : ∀ text, to_second to_millis text = none ↔ ∀ c ∈ text, c = '_' := by
    intro text
    rw [← split_dash_eq_nil_iff, to_second]
    cases split_dash text with
    | nil => exact iff_of_true rfl rfl
    | cons first rest =>
      refine iff_of_false ?_ (List.cons_ne_nil first rest)
      dsimp only
      by_cases hfirst : is_digit_ignore_dash first = true
      · rw [if_pos hfirst]
        cases read_fields (first :: rest) <;> exact Option.some_ne_none _
      · rw [if_neg hfirst]
        exact Option.some_ne_none _
  rw [is_old_path, Raises]
  by_cases hlen : 16 ≤ name.length
  · rw [if_pos hlen, and_iff_right hlen]
    dsimp only
    by_cases hdigits : is_digit_ignore_dash (name.take 16) = true
    · rw [if_pos hdigits, Option.map_eq_none_iff, hsecond]
    · rw [if_neg hdigits]
      refine iff_of_false (Option.some_ne_none _) fun hall => hdigits ?_
      rw [is_digit_ignore_dash_iff]
      exact ⟨take_sixteen_ne_nil hlen, fun c hc => Or.inl (hall c hc)⟩
  · rw [if_neg hlen]
    exact iff_of_false (Option.some_ne_none _) fun hraises => hlen hraises.1

/-- **A name is old for `isOldPath` exactly when it is taken**, in any calendar that carries
over. -/
theorem is_old_path_eq_true_iff (h : Carries to_millis) (now : CivilTime) :
    is_old_path to_millis (now.read_moment - epoch.seconds) name = some true ↔
      Taken now name := by
  rw [Taken]
  by_cases hlen : 16 ≤ name.length
  · rw [and_iff_right hlen]
    by_cases hdigits : is_digit_ignore_dash (name.take 16) = true
    · rw [and_iff_right ((is_digit_ignore_dash_iff _).mp hdigits).2]
      by_cases hdash : ∃ c ∈ name.take 16, c ≠ '_'
      · rw [and_iff_right hdash]
        by_cases hw : ∃ w, Writes (name.take 16) w
        · obtain ⟨w, hw⟩ := hw
          have hold := is_old_path_of_writes h hlen hdigits hw (now.read_moment - epoch.seconds)
          constructor
          · intro htrue
            rw [hold, Option.some.injEq, decide_eq_true_iff] at htrue
            exact Or.inl ⟨w, hw, by omega⟩
          · rintro (⟨w', hw', hlt⟩ | ⟨hnot, -⟩)
            · rw [is_old_path_of_writes h hlen hdigits hw', Option.some.injEq,
                decide_eq_true_iff]
              omega
            · exact absurd ⟨w, hw⟩ hnot
        · rw [is_old_path_of_not_writes h hlen hdigits hdash hw, Option.some.injEq,
            decide_eq_true_iff]
          constructor
          · exact fun hlt => Or.inr ⟨hw, by omega⟩
          · rintro (⟨w, hw', -⟩ | ⟨-, hlt⟩)
            · exact absurd ⟨w, hw'⟩ hw
            · omega
      · -- nothing but underscores: it raises instead
        have hraises : is_old_path to_millis (now.read_moment - epoch.seconds) name = none :=
          (is_old_path_eq_none_iff _).mpr ⟨hlen, fun c hc => by
            by_contra hne
            exact hdash ⟨c, hc, hne⟩⟩
        rw [hraises]
        exact iff_of_false nofun fun htaken => hdash htaken.1
    · rw [is_old_path, if_pos hlen]
      dsimp only
      rw [if_neg hdigits]
      refine iff_of_false (by decide) fun htaken => hdigits ?_
      rw [is_digit_ignore_dash_iff]
      exact ⟨take_sixteen_ne_nil hlen, htaken.1⟩
  · rw [is_old_path, if_neg hlen]
    exact iff_of_false (by decide) fun htaken => hlen htaken.1

theorem judges_names (h : Carries to_millis) (now : CivilTime) :
    Judges Raises (Taken now) (is_old_path to_millis (now.read_moment - epoch.seconds)) where
  raises_iff _ := is_old_path_eq_none_iff _
  taken_iff _ := is_old_path_eq_true_iff h now

end IsOldPath

/-! ## Dates among the names

For a valid date of a month as long as the current one both readings are late by the same
number of days, so being taken is being more than three days old.
-/

/-- A date of a month as long as the current one is taken rightly: both are compared as late by the
same number of days. -/
theorem taken_iff_oldDate {name : List Char} {t now : CivilTime}
    (h : name.take 16 = date_text t)
    (hlength : days_in_month t.year t.month = days_in_month now.year now.month) :
    Taken now name ↔ OldDate now name := by
  have hnow := to_second_date utc_millis_normalises now
  have hmoment : ((now.read_moment : ℤ) - epoch.seconds)
      = now.seconds - epoch.seconds + 86400 * days_in_month now.year now.month := by
    rw [CivilTime.read_moment]
    push_cast
    ring
  rw [← hmoment] at hnow
  rw [← is_old_path_eq_true_iff utc_millis_carries]
  exact is_old_path_of_same_length utc_millis_normalises h hlength hnow

end AndroidTools.Logtool
