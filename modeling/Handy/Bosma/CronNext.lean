import Handy.Bosma.Cron

/-!
# The next run of a cron expression

`cron_to_next` returns the first full minute after the start at which the clock shows the fields of
the expression, and if there is such a minute it returns (`cron_to_next_isLeast`). The calendar
repeats itself, so that an expression for which the loop ends once is one for which it always ends
(`cron_to_next_ends`).

All this needs an expression that does not fix both the month and the day of the week: when the
loop goes to the next month it leaves `tm_wday` as it was (`monday_in_may_is_a_tuesday`).
-/

set_option autoImplicit false

namespace Handy.Bosma

open Calendar

variable {cron : Cron} {zone clock start time : ℤ} {next later : Tm}

/-! ## What the clock shows -/

/-- The fields of a clock fit the expression. -/
structure Cron.Fits (cron : Cron) (tm : Tm) : Prop where
  month : cron.month = -1 ∨ tm.tm_mon = cron.month
  day : cron.day = -1 ∨ tm.tm_mday = cron.day
  day_of_week : cron.day_of_week = -1 ∨ tm.tm_wday = cron.day_of_week
  hour : cron.hour = -1 ∨ tm.tm_hour = cron.hour
  minute : cron.minute = -1 ∨ tm.tm_min = cron.minute

/-- At a full minute the clock shows the fields of the expression. -/
def Cron.Due (cron : Cron) (zone time : ℤ) : Prop :=
  (localtime zone time).tm_sec = 0 ∧ cron.Fits (localtime zone time)

/-- The fields of the loop are those of a full minute; the day of the week may be wrong when
nobody asks for it. -/
structure Shows (cron : Cron) (clock : ℤ) (next : Tm) : Prop where
  full : clock % 60 = 0
  date : { next with tm_wday := (brokenDown clock).tm_wday } = brokenDown clock
  wday : cron.day_of_week = -1 ∨ next.tm_wday = (brokenDown clock).tm_wday

/-- No full minute from the one clock to the other fits. -/
def Skips (cron : Cron) (clock clock' : ℤ) : Prop :=
  ∀ time, clock ≤ time → time < clock' → time % 60 = 0 → ¬ cron.Fits (brokenDown time)

namespace Shows

variable (shows_ : Shows cron clock next)

include shows_

theorem fields : next.tm_sec = (brokenDown clock).tm_sec ∧ next.tm_min = (brokenDown clock).tm_min ∧
    next.tm_hour = (brokenDown clock).tm_hour ∧ next.tm_mday = (brokenDown clock).tm_mday ∧
    next.tm_mon = (brokenDown clock).tm_mon ∧ next.tm_year = (brokenDown clock).tm_year := by
  rw [← shows_.date]
  exact ⟨rfl, rfl, rfl, rfl, rfl, rfl⟩

theorem seconds_eq : seconds next = clock := by
  rw [← seconds_wday next (brokenDown clock).tm_wday, shows_.date, seconds_brokenDown]

theorem add_eq (time : ℤ) : add zone next time = brokenDown (clock + time) := by
  rw [add, localtime, mktime, shows_.seconds_eq]
  congr 1
  ring

/-- The fields of the loop fit as the clock does. -/
theorem fits_iff : cron.Fits next ↔ cron.Fits (brokenDown clock) := by
  obtain ⟨-, min, hour, mday, mon, -⟩ := shows_.fields
  constructor
  · intro fits
    refine ⟨mon ▸ fits.month, mday ▸ fits.day, ?_, hour ▸ fits.hour, min ▸ fits.minute⟩
    rcases shows_.wday with any | same
    · exact .inl any
    · exact same ▸ fits.day_of_week
  · intro fits
    refine ⟨mon ▸ fits.month, mday ▸ fits.day, ?_, hour ▸ fits.hour, min ▸ fits.minute⟩
    rcases shows_.wday with any | same
    · exact .inl any
    · exact same ▸ fits.day_of_week

end Shows

/-- The clock shows itself. -/
theorem shows_brokenDown (full : clock % 60 = 0) : Shows cron clock (brokenDown clock) :=
  ⟨full, rfl, .inr rfl⟩

/-! ## The jumps -/

/-- Midnight of the day after. -/
theorem brokenDown_nextDay (clock : ℤ) :
    { brokenDown (clock + 24 * 3600) with tm_hour := 0, tm_min := 0 } =
      { brokenDown ((clock / 86400 + 1) * 86400) with tm_sec := clock % 60 } := by
  have day : (clock + 24 * 3600) / 86400 = clock / 86400 + 1 := by omega
  have day' : (clock / 86400 + 1) * 86400 / 86400 = clock / 86400 + 1 := by omega
  simp only [brokenDown, day, day', Tm.mk.injEq, and_true]
  refine ⟨?_, ?_, ?_⟩ <;> omega

/-- The next full hour. -/
theorem brokenDown_nextHour (clock : ℤ) :
    { brokenDown (clock + 3600) with tm_min := 0 } =
      { brokenDown ((clock / 3600 + 1) * 3600) with tm_sec := clock % 60 } := by
  have day : (clock / 3600 + 1) * 3600 / 86400 = (clock + 3600) / 86400 := by omega
  simp only [brokenDown, day, Tm.mk.injEq, and_true]
  refine ⟨?_, ?_, ?_⟩ <;> omega

/-- The first second of a month. -/
def monthClock (index : ℤ) : ℤ := (monthStart index - epoch) * 86400

theorem monthIndex_monthStart (index : ℤ) : monthIndex (monthStart index) = index :=
  monthIndex_eq_iff.mpr ⟨le_rfl, monthStart_strictMono (lt_add_one index)⟩

theorem brokenDown_monthClock (index : ℤ) : brokenDown (monthClock index) =
    ⟨0, 0, 0, 1, index % 12, index / 12 - 1900, (monthStart index + 1) % 7⟩ := by
  have day : monthClock index / 86400 + epoch = monthStart index := by
    unfold monthClock
    omega
  simp only [brokenDown, day, monthIndex_monthStart, Tm.mk.injEq, and_true]
  unfold monthClock
  refine ⟨?_, ?_, ?_, ?_⟩ <;> omega

/-- The month of a clock. -/
def clockMonth (clock : ℤ) : ℤ := monthIndex (clock / 86400 + epoch)

/-- Until the next month begins, it is the same month. -/
theorem clockMonth_eq (before : clock ≤ time) (within : time < monthClock (clockMonth clock + 1)) :
    clockMonth time = clockMonth clock := by
  obtain ⟨begun, -⟩ := monthIndex_spec (clock / 86400 + epoch)
  refine monthIndex_eq_iff.mpr ⟨?_, ?_⟩
  · unfold clockMonth
    omega
  · unfold monthClock at within
    omega

theorem lt_nextMonth (clock : ℤ) : clock < monthClock (clockMonth clock + 1) := by
  obtain ⟨-, ends⟩ := monthIndex_spec (clock / 86400 + epoch)
  unfold monthClock clockMonth
  omega

section Jumps

variable (shows_ : Shows cron clock next)

include shows_

/-- While the month does not fit, the next month is tried. -/
theorem nextMonth_skips (other : ¬ (cron.month = -1 ∨ next.tm_mon = cron.month)) :
    Skips cron clock (monthClock (clockMonth clock + 1)) := by
  intro time before within _ fits
  have same := clockMonth_eq before within
  have mon : (brokenDown time).tm_mon = (brokenDown clock).tm_mon := by
    show clockMonth time % 12 = clockMonth clock % 12
    rw [same]
  rw [shows_.fields.2.2.2.2.1, ← mon] at other
  exact other fits.month

/-- While the day does not fit, the next day is tried. -/
theorem nextDay_skips (other : ¬ (cron.day = -1 ∨ next.tm_mday = cron.day)) :
    Skips cron clock ((clock / 86400 + 1) * 86400) := by
  intro time before within _ fits
  have same : time / 86400 = clock / 86400 := by omega
  have mday : (brokenDown time).tm_mday = (brokenDown clock).tm_mday := by
    simp only [brokenDown, same]
  rw [shows_.fields.2.2.2.1, ← mday] at other
  exact other fits.day

theorem nextWeekday_skips (other : ¬ (cron.day_of_week = -1 ∨ next.tm_wday = cron.day_of_week)) :
    Skips cron clock ((clock / 86400 + 1) * 86400) := by
  intro time before within _ fits
  have same : time / 86400 = clock / 86400 := by omega
  have wday : (brokenDown time).tm_wday = (brokenDown clock).tm_wday := by
    simp only [brokenDown, same]
  rcases shows_.wday with any | right
  · exact other (.inl any)
  · rw [right, ← wday] at other
    exact other fits.day_of_week

/-- While the hour does not fit, the next hour is tried. -/
theorem nextHour_skips (other : ¬ (cron.hour = -1 ∨ next.tm_hour = cron.hour)) :
    Skips cron clock ((clock / 3600 + 1) * 3600) := by
  intro time before within _ fits
  have hour : (brokenDown time).tm_hour = (brokenDown clock).tm_hour := by
    show time / 3600 % 24 = clock / 3600 % 24
    omega
  rw [shows_.fields.2.2.1, ← hour] at other
  exact other fits.hour

theorem nextMinute_skips (other : ¬ (cron.minute = -1 ∨ next.tm_min = cron.minute)) :
    Skips cron clock (clock + 60) := by
  intro time before within full fits
  have same : time = clock := by
    have := shows_.full
    omega
  rw [same] at fits
  rw [shows_.fields.2.1] at other
  exact other fits.minute

/-- The fields of the next month, which stay what they were but for the day of the week. -/
theorem nextMonth_shows (any : cron.day_of_week = -1) : Shows cron
    (monthClock (clockMonth clock + 1))
    (if next.tm_mon + 1 > 11 then
      { next with
        tm_mon := 0, tm_year := next.tm_year + 1, tm_mday := 1, tm_hour := 0, tm_min := 0 }
    else { next with tm_mon := next.tm_mon + 1, tm_mday := 1, tm_hour := 0, tm_min := 0 }) := by
  obtain ⟨sec, -, -, -, mon, year⟩ := shows_.fields
  have full := shows_.full
  have sec_zero : next.tm_sec = 0 := sec.trans full
  have mon_eq : next.tm_mon = clockMonth clock % 12 := mon
  have year_eq : next.tm_year = clockMonth clock / 12 - 1900 := year
  refine ⟨?_, ?_, .inl any⟩
  · unfold monthClock
    omega
  · rw [brokenDown_monthClock]
    split_ifs with wraps <;> simp only [Tm.mk.injEq, sec_zero, true_and, and_true]
    · omega
    · omega

end Jumps

/-! ## One pass through the loop -/

theorem advance_eq_none_iff : cron.advance zone next = none ↔ cron.Fits next := by
  unfold Cron.advance
  constructor
  · intro stops
    split_ifs at stops with month wraps day wday hour minute
    exact ⟨by tauto, by tauto, by tauto, by tauto, by tauto⟩
  · rintro ⟨month, day, wday, hour, minute⟩
    rw [if_neg (by tauto), if_neg (by tauto), if_neg (by tauto), if_neg (by tauto), if_neg (by tauto)]

/-- **A pass that goes on jumps over times that do not fit**, and the fields are those of the time
at which it lands. -/
theorem advance_some (shows_ : Shows cron clock next)
    (single : cron.month = -1 ∨ cron.day_of_week = -1)
    (goes : cron.advance zone next = some later) :
    ∃ clock', clock < clock' ∧ Shows cron clock' later ∧ Skips cron clock clock' := by
  have full := shows_.full
  have midnight : Shows cron ((clock / 86400 + 1) * 86400)
      { add zone next (24 * 3600) with tm_hour := 0, tm_min := 0 } := by
    rw [shows_.add_eq, brokenDown_nextDay, full]
    have sec : (brokenDown ((clock / 86400 + 1) * 86400)).tm_sec = 0 := by
      show (clock / 86400 + 1) * 86400 % 60 = 0
      omega
    rw [← sec]
    exact shows_brokenDown (by omega)
  unfold Cron.advance at goes
  by_cases month : cron.month ≠ -1 ∧ next.tm_mon ≠ cron.month
  · rw [if_pos month] at goes
    refine ⟨_, lt_nextMonth clock, ?_, nextMonth_skips shows_ (by tauto)⟩
    have landing := nextMonth_shows shows_ (single.resolve_left month.1)
    split_ifs at goes landing with wraps <;> cases goes <;> exact landing
  · rw [if_neg month] at goes
    by_cases day : cron.day ≠ -1 ∧ next.tm_mday ≠ cron.day
    · rw [if_pos day] at goes
      cases goes
      exact ⟨_, by omega, midnight, nextDay_skips shows_ (by tauto)⟩
    · rw [if_neg day] at goes
      by_cases wday : cron.day_of_week ≠ -1 ∧ next.tm_wday ≠ cron.day_of_week
      · rw [if_pos wday] at goes
        cases goes
        exact ⟨_, by omega, midnight, nextWeekday_skips shows_ (by tauto)⟩
      · rw [if_neg wday] at goes
        by_cases hour : cron.hour ≠ -1 ∧ next.tm_hour ≠ cron.hour
        · rw [if_pos hour] at goes
          cases goes
          refine ⟨_, by omega, ?_, nextHour_skips shows_ (by tauto)⟩
          rw [shows_.add_eq, brokenDown_nextHour, full]
          have sec : (brokenDown ((clock / 3600 + 1) * 3600)).tm_sec = 0 := by
            show (clock / 3600 + 1) * 3600 % 60 = 0
            omega
          rw [← sec]
          exact shows_brokenDown (by omega)
        · rw [if_neg hour] at goes
          by_cases minute : cron.minute ≠ -1 ∧ next.tm_min ≠ cron.minute
          · rw [if_pos minute] at goes
            cases goes
            refine ⟨_, by omega, ?_, nextMinute_skips shows_ (by tauto)⟩
            rw [shows_.add_eq]
            exact shows_brokenDown (by omega)
          · rw [if_neg minute] at goes
            cases goes

/-! ## The loop -/

/-- **What the loop finds fits, and nothing that it passed does.** -/
theorem search_some (shows_ : Shows cron clock next)
    (single : cron.month = -1 ∨ cron.day_of_week = -1) {fuel : ℕ} {found : Tm}
    (ends : cron.search zone fuel next = some found) :
    ∃ clock', clock ≤ clock' ∧ Shows cron clock' found ∧ cron.Fits (brokenDown clock') ∧
      Skips cron clock clock' := by
  induction fuel generalizing clock next with
  | zero => cases ends
  | succ fuel ih =>
      unfold Cron.search at ends
      cases goes : cron.advance zone next with
      | none =>
          rw [goes] at ends
          cases ends
          refine ⟨clock, le_rfl, shows_, shows_.fits_iff.mp (advance_eq_none_iff.mp goes), ?_⟩
          intro time before within
          omega
      | some later =>
          rw [goes] at ends
          obtain ⟨middle, forward, landed, skipped⟩ := advance_some shows_ single goes
          obtain ⟨clock', further, shown, fits, skips⟩ := ih landed ends
          refine ⟨clock', forward.le.trans further, shown, fits, fun time before within full => ?_⟩
          rcases lt_or_ge time middle with early | late
          · exact skipped time before early full
          · exact skips time late within full

/-- **The loop does not pass a time that fits**, and every pass takes it a minute further. -/
theorem search_ends (shows_ : Shows cron clock next)
    (single : cron.month = -1 ∨ cron.day_of_week = -1) {fits : ℤ} (ahead : clock ≤ fits)
    (full : fits % 60 = 0) (fit : cron.Fits (brokenDown fits)) {fuel : ℕ}
    (enough : (fits - clock) / 60 < fuel) : (cron.search zone fuel next).isSome = true := by
  induction fuel generalizing clock next with
  | zero => omega
  | succ fuel ih =>
      unfold Cron.search
      cases goes : cron.advance zone next with
      | none => rfl
      | some later =>
          obtain ⟨middle, forward, landed, skipped⟩ := advance_some shows_ single goes
          have reachable : middle ≤ fits := by
            by_contra beyond
            exact skipped fits ahead (not_le.mp beyond) full fit
          have minute : clock + 60 ≤ middle := by
            have first := shows_.full
            have second := landed.full
            omega
          exact ih landed reachable (by omega)

/-- The loop starts at the next full minute. -/
theorem shows_first (start : ℤ) : Shows cron ((start + zone) / 60 * 60 + 60)
    (add zone { localtime zone start with tm_sec := 0 } 60) := by
  have clock : seconds { localtime zone start with tm_sec := 0 } = (start + zone) / 60 * 60 := by
    have sec : (brokenDown (start + zone)).tm_sec = (start + zone) % 60 := rfl
    rw [localtime, seconds_sec, seconds_brokenDown, sec]
    omega
  rw [add, mktime, clock, localtime, show (start + zone) / 60 * 60 - zone + 60 + zone =
    (start + zone) / 60 * 60 + 60 by ring]
  exact shows_brokenDown (by omega)

theorem due_iff : cron.Due zone time ↔ (time + zone) % 60 = 0 ∧ cron.Fits (brokenDown (time + zone)) :=
  Iff.rfl

/-- What is found is due after the start, and nothing before it is. -/
theorem cron_to_next_least (single : cron.month = -1 ∨ cron.day_of_week = -1) {fuel : ℕ}
    (ends : cron.cron_to_next zone fuel start = some time) :
    IsLeast {time | start < time ∧ cron.Due zone time} time := by
  obtain ⟨found, searched, rfl⟩ := Option.map_eq_some_iff.mp ends
  obtain ⟨clock, forward, shown, fits, skips⟩ := search_some (shows_first start) single searched
  have full := shown.full
  rw [mktime, shown.seconds_eq]
  refine ⟨⟨by omega, ?_⟩, ?_⟩
  · rw [due_iff, sub_add_cancel]
    exact ⟨full, fits⟩
  · rintro other ⟨after, due⟩
    rw [due_iff] at due
    by_contra sooner
    exact skips (other + zone) (by omega) (by omega) due.1 due.2

/-- When something is due after the start, the loop ends. -/
theorem cron_to_next_isSome (single : cron.month = -1 ∨ cron.day_of_week = -1)
    (after : start < time) (due : cron.Due zone time) :
    ∃ fuel, (cron.cron_to_next zone fuel start).isSome = true := by
  rw [due_iff] at due
  refine ⟨((time - start) / 60 + 1).toNat, ?_⟩
  rw [Cron.cron_to_next, Option.isSome_map]
  exact search_ends (shows_first start) single (by omega) due.1 due.2 (by omega)

/-- **`cron_to_next` finds the first full minute after the start at which the expression is
due**, and it returns if there is one. -/
theorem cron_to_next_isLeast (single : cron.month = -1 ∨ cron.day_of_week = -1) (start time : ℤ) :
    (∃ fuel, cron.cron_to_next zone fuel start = some time) ↔
      IsLeast {time | start < time ∧ cron.Due zone time} time := by
  constructor
  · rintro ⟨fuel, ends⟩
    exact cron_to_next_least single ends
  · intro least
    obtain ⟨fuel, ends⟩ := cron_to_next_isSome single least.1.1 least.1.2
    obtain ⟨found, same⟩ := Option.isSome_iff_exists.mp ends
    rw [(cron_to_next_least single same).unique least] at same
    exact ⟨fuel, same⟩

/-- Midnight of the leap days. -/
def leapDays : Cron := ⟨0, 0, 29, 1, -1⟩

theorem cron_to_next_isLeast_leapDay :
    IsLeast {time | 1542844800 < time ∧ leapDays.Due 0 time} 1582934400 :=
  (cron_to_next_isLeast (.inr rfl) _ _).mp ⟨100, by decide +kernel⟩

/-! ## The calendar repeats itself -/

theorem fits_add_cycles (times : ℕ) (clock : ℤ) :
    cron.Fits (brokenDown (clock + times * cycle)) ↔ cron.Fits (brokenDown clock) := by
  induction times with
  | zero => simp
  | succ times ih =>
      rw [← ih, show clock + ((times + 1 : ℕ) : ℤ) * cycle = clock + times * cycle + cycle by
        push_cast
        ring, brokenDown_add_cycle]
      exact ⟨fun fits => ⟨fits.month, fits.day, fits.day_of_week, fits.hour, fits.minute⟩,
        fun fits => ⟨fits.month, fits.day, fits.day_of_week, fits.hour, fits.minute⟩⟩

/-- **An expression that is due at some time is found from every start**, be it before the start
or after. -/
theorem cron_to_next_ends (single : cron.month = -1 ∨ cron.day_of_week = -1)
    (due : cron.Due zone time) (start : ℤ) :
    ∃ fuel, (cron.cron_to_next zone fuel start).isSome = true := by
  have seconds : cycle = 146097 * 86400 := rfl
  suffices later : start < time + (start - time).toNat.succ * cycle ∧
      cron.Due zone (time + (start - time).toNat.succ * cycle) from
    cron_to_next_isSome single later.1 later.2
  constructor
  · push_cast
    rw [seconds]
    omega
  · rw [due_iff] at due ⊢
    rw [show time + ((start - time).toNat.succ : ℤ) * cycle + zone =
      time + zone + (start - time).toNat.succ * cycle by ring, fits_add_cycles]
    refine ⟨?_, due.2⟩
    rw [seconds]
    omega

theorem leapDay_due : leapDays.Due 0 1582934400 :=
  ⟨by decide +kernel, .inr (by decide +kernel), .inr (by decide +kernel), .inl rfl,
    .inr (by decide +kernel), .inr (by decide +kernel)⟩

theorem cron_to_next_ends_leapDay :
    ∃ fuel, (leapDays.cron_to_next 0 fuel 4000000000).isSome = true :=
  cron_to_next_ends (.inr rfl) leapDay_due _

/-! ## A month and a day of the week -/

/-- Midnight of every Monday in May. -/
def mondaysInMay : Cron := ⟨0, 0, -1, 4, 1⟩

/-- **With a month and a day of the week the wrong day is found**: from Monday 5 March 2018, the
next Monday in May is Tuesday 1 May. -/
theorem monday_in_may_is_a_tuesday :
    (mondaysInMay.cron_to_next 0 9 1520208000).map (localtime 0) =
      some ⟨0, 0, 0, 1, 4, 118, 2⟩ := by
  decide +kernel

end Handy.Bosma
