import SaleRules.Calendar
import Mathlib.Tactic.IntervalCases

/-!
# Days and seconds of the calendar

A date counts the days before it: those of the years before its year, of the months before its
month, and of its month. A moment therefore denotes a number of seconds, and the moment found for a
number of seconds is the only proper one that denotes it. The last one that is shown is the end of
the year 262142.
-/
namespace SaleRules

namespace Calendar

/-- Years with a 29th of February. -/
def IsLeap (year : Nat) : Prop := 4 ∣ year ∧ (¬ 100 ∣ year ∨ 400 ∣ year)

instance (year : Nat) : Decidable (IsLeap year) :=
  inferInstanceAs (Decidable (4 ∣ year ∧ (¬ 100 ∣ year ∨ 400 ∣ year)))

def february (year : Nat) : Nat := if IsLeap year then 29 else 28

/-- The lengths of the months of a year, from January on. -/
def monthLengths (year : Nat) : List Nat :=
  [31, february year, 31, 30, 31, 30, 31, 31, 30, 31, 30, 31]

def yearLength (year : Nat) : Nat := (monthLengths year).sum

/-- The days of all years before the given one, the first of which is the year 0. -/
def daysBeforeYear : Nat → Nat
  | 0 => 0
  | year + 1 => daysBeforeYear year + yearLength year

/-- The days before a date, from 0000-01-01 on. -/
def dayNumber (year month day : Nat) : Nat :=
  daysBeforeYear year + ((monthLengths year).take (month - 1)).sum + (day - 1)

/-- The calendar has the date. -/
structure IsDate (year month day : Nat) : Prop where
  month_pos : 1 ≤ month
  day_pos : 1 ≤ day
  day_le : ∃ length, (monthLengths year)[month - 1]? = some length ∧ day ≤ length

/-! ## Years -/

/-- The multiples of `k` among the years before the given one. -/
def multiplesBefore (k year : Nat) : Nat := (year + k - 1) / k

theorem multiplesBefore_succ {k : Nat} (hk : 0 < k) (year : Nat) :
    multiplesBefore k (year + 1) = multiplesBefore k year + if k ∣ year then 1 else 0 := by
  have hnext : year + 1 + k - 1 = (year + k - 1) + 1 := by omega
  have hlast : year + k - 1 + 1 = year + k := by omega
  rw [multiplesBefore, multiplesBefore, hnext, Nat.succ_div, hlast]
  simp only [Nat.dvd_add_self_right]

theorem multiplesBefore_succ_eq {k : Nat} (hk : 0 < k) (year : Nat) :
    multiplesBefore k (year + 1) = year / k + 1 := by
  have hnext : year + 1 + k - 1 = year + k := by omega
  rw [multiplesBefore, hnext, Nat.add_div_right year hk]

theorem yearLength_eq (year : Nat) : yearLength year = 31 + february year + 306 := by
  simp only [yearLength, monthLengths, List.sum_cons, List.sum_nil]
  omega

theorem daysBeforeYear_succ (year : Nat) :
    daysBeforeYear (year + 1) = daysBeforeYear year + (31 + february year + 306) := by
  rw [daysBeforeYear, yearLength_eq]

/-- Every fourth year is longer by a day, but of those that end a century every fourth only. -/
theorem february_eq (year : Nat) :
    february year + (if 100 ∣ year then 1 else 0) =
      28 + (if 4 ∣ year then 1 else 0) + if 400 ∣ year then 1 else 0 := by
  have hcycle : 400 ∣ year → 100 ∣ year := Nat.dvd_trans (by decide)
  have hcentury : 100 ∣ year → 4 ∣ year := Nat.dvd_trans (by decide)
  rw [february]
  by_cases h400 : 400 ∣ year
  · simp [IsLeap, h400, hcycle h400, hcentury (hcycle h400)]
  · by_cases h100 : 100 ∣ year
    · simp [IsLeap, h400, h100, hcentury h100]
    · by_cases h4 : 4 ∣ year
      · simp [IsLeap, h400, h100, h4]
      · simp [IsLeap, h400, h100, h4]

theorem daysBeforeYear_eq (year : Nat) :
    daysBeforeYear year + multiplesBefore 100 year =
      365 * year + multiplesBefore 4 year + multiplesBefore 400 year := by
  induction year with
  | zero => rfl
  | succ year ih =>
    have hfebruary := february_eq year
    rw [daysBeforeYear_succ, multiplesBefore_succ (by decide), multiplesBefore_succ (by decide),
      multiplesBefore_succ (by decide)]
    omega

/-- The days before a fixed year are found by its leap days, not by a recursion over the years. -/
theorem daysBeforeYear_of {year days : Nat}
    (h : days + multiplesBefore 100 year =
      365 * year + multiplesBefore 4 year + multiplesBefore 400 year) :
    daysBeforeYear year = days :=
  Nat.add_right_cancel ((daysBeforeYear_eq year).trans h.symm)

/-- The days before the first of March, by the leap days up to its year. -/
theorem daysBeforeMarch_eq (year : Nat) :
    daysBeforeYear year + 31 + february year + year / 100 =
      365 * year + year / 4 + year / 400 + 60 := by
  have hyear := daysBeforeYear_eq (year + 1)
  rw [daysBeforeYear_succ, multiplesBefore_succ_eq (by decide),
    multiplesBefore_succ_eq (by decide), multiplesBefore_succ_eq (by decide)] at hyear
  omega

/-! ## Days of a cycle -/

/-- A day of a cycle of 400 years that start in March: the centuries, periods of four years and
years before it, and the days of its year before it. A year has 366 days if it ends a period, and
if it ends a century only at the end of the cycle. -/
structure Place (century period year day : Nat) : Prop where
  century_le : century ≤ 3
  period_le : period ≤ 24
  year_le : year ≤ 3
  day_le : day ≤ 365
  last : day = 365 → year = 3 ∧ (period = 24 → century = 3)

/-- The day of the cycle with the given place. -/
def dayOfCycle (century period year day : Nat) : Nat :=
  36524 * century + (1461 * period + (365 * year + day))

theorem exists_century {d : Nat} (h : d < 146097) :
    ∃ c r, c ≤ 3 ∧ (r < 36524 ∨ c = 3 ∧ r = 36524) ∧ d = 36524 * c + r := by
  by_cases hlast : d = 146096
  · exact ⟨3, 36524, by omega, by omega, by omega⟩
  · exact ⟨d / 36524, d % 36524, by omega, by omega, by omega⟩

theorem exists_period {r : Nat} (h : r ≤ 36524) :
    ∃ p s, p ≤ 24 ∧ s ≤ 1460 ∧ (p = 24 → s = 1460 → r = 36524) ∧ r = 1461 * p + s :=
  ⟨r / 1461, r % 1461, by omega, by omega, by omega, by omega⟩

theorem exists_year {s : Nat} (h : s ≤ 1460) :
    ∃ y t, y ≤ 3 ∧ t ≤ 365 ∧ (t = 365 → y = 3 ∧ s = 1460) ∧ s = 365 * y + t := by
  by_cases hlast : s = 1460
  · exact ⟨3, 365, by omega, by omega, by omega, by omega⟩
  · exact ⟨s / 365, s % 365, by omega, by omega, by omega, by omega⟩

theorem exists_place {d : Nat} (h : d < 146097) :
    ∃ c p y t, Place c p y t ∧ d = dayOfCycle c p y t := by
  obtain ⟨c, r, hc, hr, rfl⟩ := exists_century h
  have hle : r ≤ 36524 := by omega
  obtain ⟨p, s, hp, hs, hperiod, rfl⟩ := exists_period hle
  obtain ⟨y, t, hy, ht, hyear, rfl⟩ := exists_year hs
  refine ⟨c, p, y, t, ⟨hc, hp, hy, ht, fun hlast => ⟨(hyear hlast).1, fun hend => ?_⟩⟩, rfl⟩
  have hfull := hperiod hend (hyear hlast).2
  omega

variable {c p y t : Nat}

theorem Place.rest_le (h : Place c p y t) :
    1461 * p + (365 * y + t) < 36524 ∨ c = 3 ∧ 1461 * p + (365 * y + t) = 36524 := by
  obtain ⟨hc, hp, hy, ht, hlast⟩ := h
  omega

/-- The centuries are counted by their 36524 days, which leaves a day behind the last. -/
theorem Place.century_eq (h : Place c p y t) :
    dayOfCycle c p y t / 36524 - dayOfCycle c p y t / 146096 = c := by
  have hc := h.century_le
  have hr := h.rest_le
  rw [dayOfCycle]
  generalize 1461 * p + (365 * y + t) = r at hr ⊢
  omega

theorem div_period (c p s : Nat) :
    (36524 * c + (1461 * p + s)) / 1460 = 25 * c + p + (24 * c + p + s) / 1460 := by
  omega

/-- Counted by 1460 days, the periods before a day are one too many close to the end of its own,
which is where the leap day is. -/
theorem Place.excess (h : Place c p y t) :
    (24 * c + p + (365 * y + t)) / 1460 = 0 ∧ t ≤ 364 ∨
      (24 * c + p + (365 * y + t)) / 1460 = 1 ∧ 1 ≤ t := by
  obtain ⟨hc, hp, hy, ht, hlast⟩ := h
  omega

theorem Place.year_eq (h : Place c p y t) :
    (dayOfCycle c p y t - dayOfCycle c p y t / 1460 + dayOfCycle c p y t / 36524 -
      dayOfCycle c p y t / 146096) / 365 = 100 * c + 4 * p + y := by
  have hcentury := h.century_eq
  have hexcess := h.excess
  have hday := h.day_le
  have hle : dayOfCycle c p y t / 146096 ≤ dayOfCycle c p y t / 36524 :=
    Nat.div_le_div_left (by decide) (by decide)
  -- what is left of the two counts of centuries is one number, and the excess is another
  generalize dayOfCycle c p y t / 36524 = a at hcentury hle ⊢
  generalize dayOfCycle c p y t / 146096 = b at hcentury hle ⊢
  rw [dayOfCycle, div_period]
  generalize (24 * c + p + (365 * y + t)) / 1460 = e at hexcess ⊢
  omega

/-- The days of the cycle before a year of it. -/
theorem Place.march_eq (h : Place c p y t) :
    365 * (100 * c + 4 * p + y) + (100 * c + 4 * p + y) / 4 - (100 * c + 4 * p + y) / 100 + t =
      dayOfCycle c p y t := by
  obtain ⟨hc, hp, hy, -, -⟩ := h
  have h4 : (100 * c + 4 * p + y) / 4 = 25 * c + p := by omega
  have h100 : (100 * c + 4 * p + y) / 100 = c := by omega
  rw [h4, h100, dayOfCycle]
  omega

/-- A year of 366 days from March on ends with the 29th of February of the next year. -/
theorem Place.february_eq (h : Place c p y t) (hlast : t = 365) (n : Nat) :
    february (400 * n + (100 * c + 4 * p + y) + 1) = 29 := by
  obtain ⟨hc, hp, hy, -, hend⟩ := h
  obtain ⟨rfl, hcycle⟩ := hend hlast
  refine if_pos ⟨by omega, ?_⟩
  by_cases hcentury : p = 24
  · exact .inr (by omega)
  · exact .inl (by omega)

/-! ## Dates of days -/

theorem Place.civil_of_place (h : Place c p y t) (n : Nat) :
    Moment.civil (146097 * n + dayOfCycle c p y t) =
      if (5 * t + 2) / 153 < 10 then
        (400 * n + (100 * c + 4 * p + y), (5 * t + 2) / 153 + 3,
          t - (153 * ((5 * t + 2) / 153) + 2) / 5 + 1)
      else
        (400 * n + (100 * c + 4 * p + y) + 1, (5 * t + 2) / 153 - 9,
          t - (153 * ((5 * t + 2) / 153) + 2) / 5 + 1) := by
  have hlt : dayOfCycle c p y t < 146097 := by
    have hc := h.century_le
    have hr := h.rest_le
    rw [dayOfCycle]
    omega
  have hcycle : (146097 * n + dayOfCycle c p y t) / 146097 = n := by omega
  have hday : (146097 * n + dayOfCycle c p y t) % 146097 = dayOfCycle c p y t := by omega
  have hrest : dayOfCycle c p y t - (365 * (100 * c + 4 * p + y) + (100 * c + 4 * p + y) / 4 -
      (100 * c + 4 * p + y) / 100) = t := by
    rw [← h.march_eq, Nat.add_sub_cancel_left]
  simp only [Moment.civil, hcycle, hday, h.year_eq, hrest]

/-- From March to December the days of the year are counted from the first of March. -/
theorem month_of_march (year : Nat) {t m : Nat} (hm : (5 * t + 2) / 153 = m) (hlt : m < 10) :
    (∃ length, (monthLengths year)[m + 3 - 1]? = some length ∧
        t - (153 * m + 2) / 5 + 1 ≤ length) ∧
      ((monthLengths year).take (m + 3 - 1)).sum + (t - (153 * m + 2) / 5) =
        31 + february year + t := by
  have hbounds : 153 * m ≤ 5 * t + 2 ∧ 5 * t + 2 < 153 * m + 153 := by omega
  clear hm
  interval_cases m <;> simp [monthLengths] <;> omega

/-- January and February stand behind the 306 days from March to December of the year before. -/
theorem month_of_january {year t m : Nat} (ht : t ≤ 365) (hlast : t = 365 → february year = 29)
    (hm : (5 * t + 2) / 153 = m) (hle : 10 ≤ m) :
    1 ≤ m - 9 ∧
      (∃ length, (monthLengths year)[m - 9 - 1]? = some length ∧
        t - (153 * m + 2) / 5 + 1 ≤ length) ∧
      306 + ((monthLengths year).take (m - 9 - 1)).sum + (t - (153 * m + 2) / 5) = t := by
  have hbounds : 153 * m ≤ 5 * t + 2 ∧ 5 * t + 2 < 153 * m + 153 := by omega
  have hfebruary : 28 ≤ february year := by
    rw [february]
    split <;> decide
  have hlt : m < 12 := by omega
  clear hm
  interval_cases m
  · simp [monthLengths]
    omega
  · simp [monthLengths]
    omega

theorem Place.daysBefore_eq (h : Place c p y t) (n : Nat) :
    daysBeforeYear (400 * n + (100 * c + 4 * p + y)) + 31 +
        february (400 * n + (100 * c + 4 * p + y)) + t =
      146097 * n + dayOfCycle c p y t + 60 := by
  have hmarch := daysBeforeMarch_eq (400 * n + (100 * c + 4 * p + y))
  have hcycle := h.march_eq
  obtain ⟨hc, hp, hy, -, -⟩ := h
  generalize hyear : 100 * c + 4 * p + y = year at hmarch hcycle ⊢
  have hlt : year < 400 := by omega
  have h4 : (400 * n + year) / 4 = 100 * n + year / 4 := by omega
  have h100 : (400 * n + year) / 100 = 4 * n + year / 100 := by omega
  have h400 : (400 * n + year) / 400 = n := by omega
  have hle : year / 100 ≤ year := Nat.div_le_self year 100
  rw [h4, h100, h400] at hmarch
  omega

/-- The date found for a day is in the calendar and stands for that day: 60 days are counted before
0000-03-01. -/
theorem civil_spec (days : Nat) :
    ∃ year month day, Moment.civil days = (year, month, day) ∧ IsDate year month day ∧
      dayNumber year month day = days + 60 := by
  obtain ⟨c, p, y, t, h, hplace⟩ := exists_place (Nat.mod_lt days (show 0 < 146097 by decide))
  have hdays : days = 146097 * (days / 146097) + dayOfCycle c p y t := by
    rw [← hplace, Nat.div_add_mod]
  have hbefore := h.daysBefore_eq (days / 146097)
  have hlast := fun hlast => h.february_eq hlast (days / 146097)
  have hcivil := h.civil_of_place (days / 146097)
  rw [← hdays] at hbefore hcivil
  generalize 400 * (days / 146097) + (100 * c + 4 * p + y) = year at hbefore hlast hcivil
  generalize hm : (5 * t + 2) / 153 = m at hcivil
  by_cases hlt : m < 10
  · obtain ⟨hlength, hsum⟩ := month_of_march year hm hlt
    rw [if_pos hlt] at hcivil
    refine ⟨year, m + 3, _, hcivil, ⟨Nat.succ_pos _, Nat.succ_pos _, hlength⟩, ?_⟩
    unfold dayNumber
    omega
  · obtain ⟨hpos, hlength, hsum⟩ :=
      month_of_january h.day_le hlast hm (Nat.le_of_not_lt hlt)
    rw [if_neg hlt] at hcivil
    refine ⟨year + 1, m - 9, _, hcivil, ⟨hpos, Nat.succ_pos _, hlength⟩, ?_⟩
    have hnext := daysBeforeYear_succ year
    unfold dayNumber
    omega

/-! ## The order of dates -/

theorem sum_take_add_le {xs : List Nat} {j k x : Nat} (hx : xs[j]? = some x) (hlt : j < k) :
    (xs.take j).sum + x ≤ (xs.take k).sum := by
  obtain ⟨e, rfl⟩ := Nat.exists_eq_add_of_lt hlt
  have hsplit : j + e + 1 = j + 1 + e := by omega
  rw [hsplit, List.take_add, List.take_add_one, hx]
  simp

theorem IsDate.month_le {year month day : Nat} (h : IsDate year month day) :
    ((monthLengths year).take (month - 1)).sum + (day - 1) < yearLength year := by
  obtain ⟨length, hlength, hle⟩ := h.day_le
  have hpos := h.day_pos
  have hlt := (List.getElem?_eq_some_iff.mp hlength).1
  have hsum := sum_take_add_le hlength hlt
  rw [List.take_length] at hsum
  rw [yearLength]
  omega

theorem daysBeforeYear_mono {year year' : Nat} (h : year ≤ year') :
    daysBeforeYear year ≤ daysBeforeYear year' := by
  induction h with
  | refl => exact Nat.le_refl _
  | step _ ih => exact Nat.le_trans ih (Nat.le_add_right _ _)

theorem daysBeforeYear_le (year month day : Nat) :
    daysBeforeYear year ≤ dayNumber year month day := by
  rw [dayNumber, Nat.add_assoc]
  exact Nat.le_add_right _ _

variable {year month day year' month' day' : Nat}

theorem IsDate.lt_of_year_lt (h : IsDate year month day) (hlt : year < year') :
    dayNumber year month day < daysBeforeYear year' := by
  have hmonth := h.month_le
  have hle := daysBeforeYear_mono (Nat.succ_le_of_lt hlt)
  rw [daysBeforeYear] at hle
  rw [dayNumber]
  omega

/-- Later dates have more days before them. -/
theorem dayNumber_lt (h : IsDate year month day) (h' : IsDate year' month' day')
    (hlt : year < year' ∨ year = year' ∧ (month < month' ∨ month = month' ∧ day < day')) :
    dayNumber year month day < dayNumber year' month' day' := by
  have hpos := h.day_pos
  have hmonth := h.month_pos
  rcases hlt with hyear | ⟨rfl, hmonth' | ⟨rfl, hday⟩⟩
  · exact Nat.lt_of_lt_of_le (h.lt_of_year_lt hyear) (daysBeforeYear_le _ _ _)
  · obtain ⟨length, hlength, hle⟩ := h.day_le
    have hsum := sum_take_add_le hlength (show month - 1 < month' - 1 by omega)
    unfold dayNumber
    omega
  · unfold dayNumber
    omega

theorem date_unique (h : IsDate year month day) (h' : IsDate year' month' day')
    (heq : dayNumber year month day = dayNumber year' month' day') :
    year = year' ∧ month = month' ∧ day = day' := by
  have hle : ¬ (year < year' ∨ year = year' ∧ (month < month' ∨ month = month' ∧ day < day')) :=
    fun hlt => Nat.ne_of_lt (dayNumber_lt h h' hlt) heq
  have hge : ¬ (year' < year ∨ year' = year ∧ (month' < month ∨ month' = month ∧ day' < day)) :=
    fun hlt => Nat.ne_of_lt (dayNumber_lt h' h hlt) heq.symm
  omega

end Calendar

namespace Moment

open Calendar

/-- The seconds from 1970-01-01T00:00:00 to a moment. -/
def unixSeconds (m : Moment) : Int :=
  86400 * ((dayNumber m.year m.month m.day : Int) - daysBeforeYear 1970) +
    (3600 * m.hour + 60 * m.minute + m.second)

/-- The date is in the calendar and the time of day on the clock. -/
structure Proper (m : Moment) : Prop where
  date : IsDate m.year m.month m.day
  hour_lt : m.hour < 24
  minute_lt : m.minute < 60
  second_lt : m.second < 60

theorem daysBeforeYear_epoch : daysBeforeYear 1970 = 719528 := daysBeforeYear_of (by decide)

theorem daysBeforeYear_last : daysBeforeYear 262143 = 95745765 := daysBeforeYear_of (by decide)

theorem unixSeconds_eq (m : Moment) :
    m.unixSeconds = 86400 * ((dayNumber m.year m.month m.day : Int) - 719528) +
      (3600 * m.hour + 60 * m.minute + m.second) := by
  rw [unixSeconds, daysBeforeYear_epoch, Nat.cast_ofNat]

theorem ofSeconds_spec (n : Nat) : (ofSeconds n).Proper ∧ (ofSeconds n).unixSeconds = n := by
  obtain ⟨year, month, day, hcivil, hdate, hnumber⟩ := civil_spec (n / 86400 + epochDay)
  have hmoment : ofSeconds n =
      ⟨year, month, day, n / 3600 % 24, n / 60 % 60, n % 60⟩ := by rw [ofSeconds, hcivil]
  rw [hmoment]
  refine ⟨⟨hdate, ?_, ?_, ?_⟩, ?_⟩
  · exact Nat.mod_lt _ (by decide)
  · exact Nat.mod_lt _ (by decide)
  · exact Nat.mod_lt _ (by decide)
  · have hday : epochDay = 719468 := rfl
    rw [unixSeconds_eq]
    simp only [hnumber]
    omega

/-- A number of seconds is denoted by one proper moment only. -/
theorem Proper.unique {m m' : Moment} (h : m.Proper) (h' : m'.Proper)
    (heq : m.unixSeconds = m'.unixSeconds) : m = m' := by
  obtain ⟨hdate, hhour, hminute, hsecond⟩ := h
  obtain ⟨hdate', hhour', hminute', hsecond'⟩ := h'
  rw [unixSeconds_eq, unixSeconds_eq] at heq
  have hnumber : dayNumber m.year m.month m.day = dayNumber m'.year m'.month m'.day := by omega
  obtain ⟨hyear, hmonth, hday⟩ := date_unique hdate hdate' hnumber
  rw [hnumber] at heq
  have hclock : m.hour = m'.hour ∧ m.minute = m'.minute ∧ m.second = m'.second := by omega
  cases m
  cases m'
  simp_all

theorem Proper.year_le_iff {m : Moment} (h : m.Proper) :
    m.year ≤ 262142 ↔ m.unixSeconds ≤ lastSecond := by
  obtain ⟨hdate, hhour, hminute, hsecond⟩ := h
  have hsecond : lastSecond = 8210266876799 := rfl
  rw [unixSeconds_eq]
  constructor
  · intro hle
    have hyear : m.year < 262143 := by omega
    have hlt := hdate.lt_of_year_lt hyear
    rw [daysBeforeYear_last] at hlt
    omega
  · intro hle
    by_contra hlt
    have hyear : 262143 ≤ m.year := by omega
    have hmono := daysBeforeYear_mono hyear
    have hdays := daysBeforeYear_le m.year m.month m.day
    rw [daysBeforeYear_last] at hmono
    omega

/-- The dates that are found are those up to the end of the year 262142. -/
theorem ofSeconds?_eq_some_iff {n : Nat} {m : Moment} :
    ofSeconds? n = some m ↔ m.Proper ∧ m.year ≤ 262142 ∧ m.unixSeconds = n := by
  obtain ⟨hproper, hseconds⟩ := ofSeconds_spec n
  rw [ofSeconds?]
  constructor
  · intro h
    split at h
    · next hle =>
      rw [← Option.some.inj h, hproper.year_le_iff, hseconds]
      exact ⟨hproper, Int.ofNat_le.mpr hle, rfl⟩
    · cases h
  · intro hx
    obtain ⟨hm, hyear, hn⟩ := hx
    rw [hm.year_le_iff, hn, Int.ofNat_le] at hyear
    rw [if_pos hyear, hproper.unique hm (hseconds.trans hn.symm)]

end Moment

end SaleRules
