import Handy.Timers.Linked

/-!
# How often a task is pending

The number of pending occurrences of a task that was given to `runAt` without an interval.
Only `runAt` increases it, by one, and when the task runs the number has gone down, as long
as no repeating timer has the same task.
-/

set_option autoImplicit false

namespace Handy

namespace Timers

variable {τ : Type} {t t' : Timers τ} {task : τ}

/-- The entries of `timers_` that hold the task itself. -/
def pending [DecidableEq τ] (t : Timers τ) (task : τ) : ℕ :=
  t.timers.entries.countP fun entry => decide (entry.2 = .task task)

/-- No repeating timer has the task. -/
def NeverRepeats (t : Timers τ) (task : τ) : Prop :=
  ∀ entry ∈ t.timerReps.entries, entry.2.cb ≠ task

/-- Only `runAt` of the task itself adds to its pending occurrences. -/
theorem pending_runAt [DecidableEq τ] (t : Timers τ) (milli : ℤ) (given : τ) (interval : ℤ) (task : τ) :
    (t.runAt milli given interval).2.pending task ≤
      t.pending task + if given = task then 1 else 0 := by
  rcases ran : t.runAt milli given interval with ⟨id, after⟩
  rcases runAt_cases t milli given interval ran with ⟨-, -, rfl⟩ | ⟨-, -, -, timers, -⟩ |
    ⟨-, -, -, timers, -⟩
  · exact Nat.le_add_right _ _
  · rw [pending, timers]
    exact (OrderedMap.countP_set_le _ _ _ _).trans (by simp [pending])
  · rw [pending, timers]
    exact (OrderedMap.countP_insert_le _ _ _ _).trans (by simp [pending])

theorem NeverRepeats.runAt (never : t.NeverRepeats task) (milli : ℤ) {given : τ} {interval : ℤ}
    (other : interval ≠ 0 → given ≠ task) :
    (t.runAt milli given interval).2.NeverRepeats task := by
  rcases ran : t.runAt milli given interval with ⟨id, after⟩
  rcases runAt_cases t milli given interval ran with ⟨-, -, rfl⟩ | ⟨repeats, -, -, -, reps⟩ |
    ⟨-, -, -, -, reps⟩
  · exact never
  · intro entry member
    rw [reps] at member
    rcases OrderedMap.mem_of_mem_set member with rfl | old
    · exact other repeats
    · exact never entry old
  · intro entry member
    rw [reps] at member
    exact never entry member

theorem pending_cancel [DecidableEq τ] {id : TimerId} {removed : Bool}
    (ran : t.cancel id = .ok (removed, t')) : t'.pending task ≤ t.pending task := by
  rcases cancel_cases ran with ⟨-, -, rep, -, rfl⟩ | ⟨-, -, -, rfl⟩ | ⟨-, -, -, rfl⟩
  · exact OrderedMap.countP_erase_le _ _ _
  · exact OrderedMap.countP_erase_le _ _ _
  · exact le_rfl

theorem NeverRepeats.cancel (never : t.NeverRepeats task) {id : TimerId} {removed : Bool}
    (ran : t.cancel id = .ok (removed, t')) : t'.NeverRepeats task := by
  rcases cancel_cases ran with ⟨-, -, rep, -, rfl⟩ | ⟨-, -, -, rfl⟩ | ⟨-, -, -, rfl⟩
  · exact fun entry member => never entry (OrderedMap.mem_of_mem_erase member)
  · exact never
  · exact never

theorem neverRepeats_clear (t : Timers τ) (task : τ) : t.clear.NeverRepeats task :=
  fun _ member => absurd member List.not_mem_nil

/-- **When the task runs, one occurrence less is pending.** -/
theorem NeverRepeats.fire [DecidableEq τ] (never : t.NeverRepeats task) {now : ℤ} {key : TimerId}
    {action : TimerAction τ} {fired : Fired τ} (next : t.due now = some (key, action))
    (ran : t.fire key action = .ok (fired, t')) :
    (t'.pending task + if fired.task = task then 1 else 0) ≤ t.pending task ∧
      t'.NeverRepeats task := by
  have entry : t.timers.find? key = some action := OrderedMap.find?_of_first? (due_eq_some next).1
  rcases fire_cases ran with ⟨given, rfl, rfl, rfl⟩ | ⟨tr, rep, rfl, rfl, found, -, timers, reps⟩
  · refine ⟨?_, never⟩
    simp only [pending]
    split_ifs with same
    · exact (OrderedMap.countP_erase _ entry (by simp [same])).le
    · exact OrderedMap.countP_erase_le _ _ _
  · have other : rep.cb ≠ task := never _ (OrderedMap.mem_entries_iff.mpr found)
    refine ⟨?_, fun entry member => ?_⟩
    · rw [if_neg other, Nat.add_zero, pending, timers]
      refine (OrderedMap.countP_set_le _ _ _ _).trans ?_
      simpa [pending] using OrderedMap.countP_erase_le t.timers key _
    · rw [reps] at member
      rcases OrderedMap.mem_of_mem_set member with rfl | old
      · exact other
      · exact never entry old

/-! ## The exit flag -/

theorem exit_cancel {id : TimerId} {removed : Bool} (ran : t.cancel id = .ok (removed, t')) :
    t'.exit = t.exit := by
  rcases cancel_cases ran with ⟨-, -, rep, -, rfl⟩ | ⟨-, -, -, rfl⟩ | ⟨-, -, -, rfl⟩ <;> rfl

theorem exit_fire {key : TimerId} {action : TimerAction τ} {fired : Fired τ}
    (ran : t.fire key action = .ok (fired, t')) : t'.exit = t.exit := by
  unfold fire at ran
  cases action with
  | task task =>
      cases ran
      rfl
  | repeatable tr =>
      simp only [repeatableTimeout] at ran
      cases found : t.timerReps.find? tr with
      | none => simp [found] at ran
      | some rep =>
          simp only [found, Except.ok.injEq, Prod.mk.injEq] at ran
          rw [← ran.2, refreshNearest_exit]

end Timers

end Handy
