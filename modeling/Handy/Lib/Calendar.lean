import Mathlib

/-!
# The calendar

Days are numbered from 1 January of the year 1 of the Gregorian calendar, which is continued
backwards, and months from January of the year 0. A month starts later than the one before it, so
that every day is in one month (`monthIndex_eq_iff`). A broken-down time has the fields of the
`tm` of C; breaking a time down and putting it together again are inverse
(`seconds_brokenDown`), and breaking down is periodic in a cycle of 400 years
(`brokenDown_add_cycle`).

Time is counted in seconds without leap seconds, as POSIX does.
-/

set_option autoImplicit false

namespace Calendar

/-! ## Years and months -/

/-- The leap years. -/
def leap (year : ℤ) : Bool := year % 4 = 0 && (year % 100 ≠ 0 || year % 400 = 0)

/-- The number of the first day of a year. -/
def yearStart (year : ℤ) : ℤ :=
  365 * (year - 1) + (year - 1) / 4 - (year - 1) / 100 + (year - 1) / 400

/-- How many days of a year are before a month, which is counted from 0. -/
def daysBefore (leap : Bool) (month : ℤ) : ℤ :=
  [0, 31, 59, 90, 120, 151, 181, 212, 243, 273, 304, 334].getD month.toNat 365 +
    if leap && 2 ≤ month then 1 else 0

/-- The number of the first day of a month; months are numbered through the years. -/
def monthStart (index : ℤ) : ℤ :=
  yearStart (index / 12) + daysBefore (leap (index / 12)) (index % 12)

/-- The year of a day: the estimate, or the year after it. -/
def yearOf (day : ℤ) : ℤ :=
  let estimate := day * 400 / 146097 + 1
  if yearStart (estimate + 1) ≤ day then estimate + 1 else estimate

/-- The month of a day of the year, counted from 0. -/
def monthOf (leap : Bool) (day : ℤ) : ℕ :=
  Nat.findGreatest (fun month => daysBefore leap month ≤ day) 11

/-- The number of the month of a day. -/
def monthIndex (day : ℤ) : ℤ :=
  12 * yearOf day + monthOf (leap (yearOf day)) (day - yearStart (yearOf day))

theorem yearStart_succ (year : ℤ) :
    yearStart (year + 1) = yearStart year + if leap year then 366 else 365 := by
  unfold yearStart leap
  rw [show year + 1 - 1 = year by ring]
  by_cases four : year % 4 = 0 <;> by_cases hundred : year % 100 = 0 <;>
    by_cases fourHundred : year % 400 = 0 <;> simp [four, hundred, fourHundred] <;> omega

/-- **Every day is in the year that is computed for it.** -/
theorem yearOf_spec (day : ℤ) : yearStart (yearOf day) ≤ day ∧ day < yearStart (yearOf day + 1) := by
  unfold yearOf
  have below : yearStart (day * 400 / 146097 + 1) ≤ day := by
    unfold yearStart
    omega
  have above : day < yearStart (day * 400 / 146097 + 1 + 1 + 1) := by
    unfold yearStart
    omega
  dsimp only
  split_ifs with later
  · exact ⟨later, above⟩
  · exact ⟨below, not_le.mp later⟩

/-- The length of a month but the last. -/
theorem daysBefore_succ (leap : Bool) {month : ℤ} (nonneg : 0 ≤ month) (below : month < 11) :
    daysBefore leap month + 28 ≤ daysBefore leap (month + 1) ∧
      daysBefore leap (month + 1) ≤ daysBefore leap month + 31 := by
  cases leap <;> interval_cases month <;> decide

theorem daysBefore_eleven (leap : Bool) :
    daysBefore leap 11 + 31 = if leap then 366 else 365 := by
  cases leap <;> decide

/-- **A month starts four weeks after the one before it**, or up to three days later. -/
theorem monthStart_succ (index : ℤ) : monthStart index + 28 ≤ monthStart (index + 1) ∧
    monthStart (index + 1) ≤ monthStart index + 31 := by
  unfold monthStart
  by_cases last : index % 12 = 11
  · have year : (index + 1) / 12 = index / 12 + 1 := by omega
    have first : (index + 1) % 12 = 0 := by omega
    rw [year, first, last, yearStart_succ]
    have length := daysBefore_eleven (leap (index / 12))
    have none_before : daysBefore (leap (index / 12 + 1)) 0 = 0 := by
      cases leap (index / 12 + 1) <;> decide
    omega
  · have year : (index + 1) / 12 = index / 12 := by omega
    have next : (index + 1) % 12 = index % 12 + 1 := by omega
    rw [year, next]
    have length := @daysBefore_succ (leap (index / 12)) (index % 12) (by omega) (by omega)
    omega

theorem monthStart_strictMono : StrictMono monthStart :=
  strictMono_int_of_lt_succ fun index => by
    have later := (monthStart_succ index).1
    omega

theorem monthOf_spec (leap : Bool) {day : ℤ} (nonneg : 0 ≤ day) :
    daysBefore leap (monthOf leap day) ≤ day ∧
      (monthOf leap day < 11 → day < daysBefore leap (monthOf leap day + 1)) := by
  constructor
  · refine Nat.findGreatest_spec (P := fun month : ℕ => daysBefore leap month ≤ day)
      (Nat.zero_le 11) ?_
    cases leap <;> simpa [daysBefore] using nonneg
  · intro below
    have greatest := Nat.findGreatest_is_greatest
      (P := fun month : ℕ => daysBefore leap month ≤ day) (Nat.lt_succ_self (monthOf leap day)) below
    exact_mod_cast not_le.mp greatest

theorem monthOf_le (leap : Bool) (day : ℤ) : monthOf leap day ≤ 11 := Nat.findGreatest_le 11

/-- **Every day is in the month that is computed for it.** -/
theorem monthIndex_spec (day : ℤ) :
    monthStart (monthIndex day) ≤ day ∧ day < monthStart (monthIndex day + 1) := by
  obtain ⟨begun, ends⟩ := yearOf_spec day
  have few := monthOf_le (leap (yearOf day)) (day - yearStart (yearOf day))
  obtain ⟨starts, stops⟩ := @monthOf_spec (leap (yearOf day)) (day - yearStart (yearOf day))
    (by omega)
  have year : monthIndex day / 12 = yearOf day := by
    unfold monthIndex
    omega
  have month : monthIndex day % 12 = monthOf (leap (yearOf day)) (day - yearStart (yearOf day)) := by
    unfold monthIndex
    omega
  refine ⟨?_, ?_⟩
  · rw [monthStart, year, month]
    omega
  · by_cases last : monthOf (leap (yearOf day)) (day - yearStart (yearOf day)) = 11
    · have next : (monthIndex day + 1) / 12 = yearOf day + 1 := by omega
      have first : (monthIndex day + 1) % 12 = 0 := by omega
      have none_before : daysBefore (leap (yearOf day + 1)) 0 = 0 := by
        cases leap (yearOf day + 1) <;> decide
      rw [monthStart, next, first, none_before]
      omega
    · have next : (monthIndex day + 1) / 12 = yearOf day := by omega
      have following : (monthIndex day + 1) % 12 =
          (monthOf (leap (yearOf day)) (day - yearStart (yearOf day)) : ℤ) + 1 := by omega
      rw [monthStart, next, following]
      have before := stops (by omega)
      omega

/-- **Every day is in one month.** -/
theorem monthIndex_eq_iff {day index : ℤ} :
    monthIndex day = index ↔ monthStart index ≤ day ∧ day < monthStart (index + 1) := by
  obtain ⟨starts, stops⟩ := monthIndex_spec day
  constructor
  · rintro rfl
    exact ⟨starts, stops⟩
  · rintro ⟨starts', stops'⟩
    have first : index < monthIndex day + 1 :=
      monthStart_strictMono.lt_iff_lt.mp (starts'.trans_lt stops)
    have second : monthIndex day < index + 1 :=
      monthStart_strictMono.lt_iff_lt.mp (starts.trans_lt stops')
    omega

/-! ## Broken-down time -/

/-- The fields of a broken-down time, as C counts them: months from 0, years from 1900, days of
the week from Sunday. -/
structure Tm where
  tm_sec : ℤ
  tm_min : ℤ
  tm_hour : ℤ
  tm_mday : ℤ
  tm_mon : ℤ
  tm_year : ℤ
  tm_wday : ℤ
  deriving DecidableEq, Repr

/-- The number of the day 1 January 1970. -/
def epoch : ℤ := 719162

/-- A time on the clock, in seconds since the epoch, is broken down. -/
def brokenDown (time : ℤ) : Tm :=
  let day := time / 86400 + epoch
  { tm_sec := time % 60
    tm_min := time / 60 % 60
    tm_hour := time / 3600 % 24
    tm_mday := day - monthStart (monthIndex day) + 1
    tm_mon := monthIndex day % 12
    tm_year := monthIndex day / 12 - 1900
    tm_wday := (day + 1) % 7 }

/-- The time that broken-down fields stand for, whether they are in their ranges or not. The day
of the week is not looked at. -/
def seconds (tm : Tm) : ℤ :=
  let day := monthStart (12 * (tm.tm_year + 1900) + tm.tm_mon) + tm.tm_mday - 1
  (day - epoch) * 86400 + tm.tm_hour * 3600 + tm.tm_min * 60 + tm.tm_sec

/-- **A time that is broken down is put together again.** -/
theorem seconds_brokenDown (time : ℤ) : seconds (brokenDown time) = time := by
  have index : 12 * (monthIndex (time / 86400 + epoch) / 12 - 1900 + 1900) +
      monthIndex (time / 86400 + epoch) % 12 = monthIndex (time / 86400 + epoch) := by omega
  simp only [seconds, brokenDown, index]
  omega

theorem seconds_wday (tm : Tm) (wday : ℤ) : seconds { tm with tm_wday := wday } = seconds tm := rfl

theorem seconds_sec (tm : Tm) (sec : ℤ) :
    seconds { tm with tm_sec := sec } = seconds tm - tm.tm_sec + sec := by
  simp only [seconds]
  ring

/-- The ranges of the fields. -/
structure InRange (tm : Tm) : Prop where
  sec : 0 ≤ tm.tm_sec ∧ tm.tm_sec < 60
  min : 0 ≤ tm.tm_min ∧ tm.tm_min < 60
  hour : 0 ≤ tm.tm_hour ∧ tm.tm_hour < 24
  mday : 1 ≤ tm.tm_mday ∧ tm.tm_mday ≤ 31
  mon : 0 ≤ tm.tm_mon ∧ tm.tm_mon < 12
  wday : 0 ≤ tm.tm_wday ∧ tm.tm_wday < 7

theorem brokenDown_inRange (time : ℤ) : InRange (brokenDown time) := by
  obtain ⟨starts, stops⟩ := monthIndex_spec (time / 86400 + epoch)
  have length := (monthStart_succ (monthIndex (time / 86400 + epoch))).2
  refine ⟨?_, ?_, ?_, ?_, ?_, ?_⟩ <;> simp only [brokenDown] <;> omega

/-! ## The cycle of 400 years -/

/-- The seconds of 400 years, which are 20871 weeks. -/
def cycle : ℤ := 146097 * 86400

theorem leap_add (year : ℤ) : leap (year + 400) = leap year := by
  unfold leap
  have four : (year + 400) % 4 = year % 4 := by omega
  have hundred : (year + 400) % 100 = year % 100 := by omega
  have fourHundred : (year + 400) % 400 = year % 400 := by omega
  rw [four, hundred, fourHundred]

theorem yearStart_add (year : ℤ) : yearStart (year + 400) = yearStart year + 146097 := by
  unfold yearStart
  omega

theorem monthStart_add (index : ℤ) : monthStart (index + 4800) = monthStart index + 146097 := by
  have year : (index + 4800) / 12 = index / 12 + 400 := by omega
  have month : (index + 4800) % 12 = index % 12 := by omega
  rw [monthStart, year, month, leap_add, yearStart_add, monthStart]
  ring

theorem monthIndex_add (day : ℤ) : monthIndex (day + 146097) = monthIndex day + 4800 := by
  obtain ⟨starts, stops⟩ := monthIndex_spec day
  rw [monthIndex_eq_iff, monthStart_add, show monthIndex day + 4800 + 1 = monthIndex day + 1 + 4800 by ring,
    monthStart_add]
  omega

/-- **After 400 years the calendar is the same**, but for the year. -/
theorem brokenDown_add_cycle (time : ℤ) : brokenDown (time + cycle) =
    { brokenDown time with tm_year := (brokenDown time).tm_year + 400 } := by
  have seconds : cycle = 146097 * 86400 := rfl
  have day : (time + cycle) / 86400 + epoch = time / 86400 + epoch + 146097 := by omega
  simp only [brokenDown, day, monthIndex_add, monthStart_add, Tm.mk.injEq]
  refine ⟨?_, ?_, ?_, ?_, ?_, ?_, ?_⟩ <;> omega

end Calendar
