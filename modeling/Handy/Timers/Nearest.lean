import Handy.Timers.Linked

/-!
# The timeout of the poller

`refreshNearest` stores the time until the earliest deadline in an `int`, and `loop_once`
waits no longer than that. The difference is cut to 32 bits before it is compared with zero.
So a deadline 2^31 milliseconds away may look as if it had passed, and one that passed long
ago may look as if it were to come. The wait is right exactly when what is left of the
difference is on the right side of zero (`nearest_timeout_iff`).
-/

set_option autoImplicit false

namespace Handy

/-- What a wait of `wait` milliseconds at time `now` has to meet, when the earliest deadline
is `deadline`: it does not pass the deadline, and it does not return before without need. -/
structure WaitsFor (deadline now wait : ℤ) : Prop where
  due : deadline ≤ now → wait = 0
  future : now < deadline → 0 < wait ∧ wait ≤ deadline - now

/-- The distance to a deadline that is to come is a positive `int` up to multiples of `2 ^ 32`,
and the distance to one that has passed is not a negative one. -/
def FitsTimeout (deadline now : ℤ) : Prop :=
  if now < deadline then
    0 < (deadline - now) % 2 ^ 32 ∧ (deadline - now) % 2 ^ 32 < 2 ^ 31
  else (now - deadline) % 2 ^ 32 ≤ 2 ^ 31

instance (deadline now : ℤ) : Decidable (FitsTimeout deadline now) :=
  inferInstanceAs (Decidable (if now < deadline then _ ∧ _ else _ ≤ _))

/-- The number of milliseconds in an `int`, cut off at zero. A difference that leaves 64 bits
on the way has the same lower half. -/
theorem waitsFor_iff (deadline now : ℤ) :
    WaitsFor deadline now
        (if (deadline - now).bmod (2 ^ 32) < 0 then 0 else (deadline - now).bmod (2 ^ 32)) ↔
      FitsTimeout deadline now := by
  have cut : (deadline - now).bmod (2 ^ 32) =
      if (deadline - now) % 2 ^ 32 < 2 ^ 31 then (deadline - now) % 2 ^ 32
      else (deadline - now) % 2 ^ 32 - 2 ^ 32 := by
    rw [Int.bmod_def]
    norm_num
  rw [cut]
  by_cases later : now < deadline
  · rw [FitsTimeout, if_pos later]
    constructor
    · intro waits
      have long := (waits.future later).1
      split_ifs at long <;> omega
    · rintro ⟨positive, small⟩
      refine ⟨fun due => absurd later (not_lt.mpr due), fun _ => ?_⟩
      rw [if_pos small, if_neg (by omega)]
      omega
  · rw [FitsTimeout, if_neg later]
    constructor
    · intro waits
      have none := waits.due (not_lt.mp later)
      split_ifs at none <;> omega
    · intro passed
      refine ⟨fun _ => ?_, fun future => absurd future later⟩
      split_ifs <;> omega

namespace Timers

variable {τ : Type}

/-- The argument that `EventsImp::loop_once` gives to the poller. -/
def pollTimeout (t : Timers τ) (waitMs : ℤ) : ℤ := min waitMs t.nextTimeout

end Timers

/-- A bounded wait is as good: it does not pass the deadline and it does not spin. -/
theorem WaitsFor.bounded {deadline now wait : ℤ} (waits : WaitsFor deadline now wait) {waitMs : ℤ}
    (positive : 0 < waitMs) : WaitsFor deadline now (min waitMs wait) := by
  refine ⟨fun due => ?_, fun later => ?_⟩
  · rw [waits.due due, min_eq_right positive.le]
  · obtain ⟨long, short⟩ := waits.future later
    exact ⟨lt_min positive long, (min_le_right _ _).trans short⟩

/-- **`refreshNearest` sets the right timeout exactly when the distance to the earliest deadline
fits**, and then `loop_once` waits right too, whatever bound it is given. -/
theorem nearest_timeout_iff {τ : Type} (t : Timers τ) {key : TimerId} {action : TimerAction τ}
    (earliest : t.timers.first? = some (key, action)) :
    (WaitsFor key.first t.clock t.refreshNearest.nextTimeout ∧
      ∀ waitMs, 0 < waitMs → WaitsFor key.first t.clock (t.refreshNearest.pollTimeout waitMs)) ↔
      FitsTimeout key.first t.clock := by
  have next : t.refreshNearest.nextTimeout =
      if (key.first - t.clock).bmod (2 ^ 32) < 0 then 0
      else (key.first - t.clock).bmod (2 ^ 32) := by
    simp only [Timers.refreshNearest, earliest]
  constructor
  · rintro ⟨waits, -⟩
    rw [next, waitsFor_iff] at waits
    exact waits
  · intro fits
    have waits : WaitsFor key.first t.clock t.refreshNearest.nextTimeout := by
      rw [next, waitsFor_iff]
      exact fits
    exact ⟨waits, fun waitMs positive => waits.bounded positive⟩

/-- A table with one timer that is due in a second. -/
def dueInASecond : Timers Unit := ((Timers.init 5).runAfter 1000 () 0).2

theorem nearest_timeout_iff_dueInASecond :
    dueInASecond.timers.first? = some (⟨1005, 1⟩, .task ()) ∧
      WaitsFor 1005 5 dueInASecond.refreshNearest.nextTimeout := by
  have earliest : dueInASecond.timers.first? = some (⟨1005, 1⟩, .task ()) := rfl
  exact ⟨earliest, ((nearest_timeout_iff dueInASecond earliest).mpr (by decide)).1⟩

/-- A table with one timer that is due in 2^31 milliseconds. -/
def dueInWeeks : Timers Unit := ((Timers.init 5).runAfter (2 ^ 31) () 0).2

/-- The poller does not wait at all. -/
theorem far_deadline_spins :
    dueInWeeks.timers.first? = some (⟨2 ^ 31 + 5, 1⟩, .task ()) ∧
      dueInWeeks.refreshNearest.nextTimeout = 0 ∧
      ¬ WaitsFor (2 ^ 31 + 5) 5 dueInWeeks.refreshNearest.nextTimeout := by
  have none : dueInWeeks.refreshNearest.nextTimeout = 0 := by decide
  refine ⟨rfl, none, fun waits => ?_⟩
  have long := (waits.future (by norm_num)).1
  rw [none] at long
  exact absurd long (lt_irrefl 0)

end Handy
