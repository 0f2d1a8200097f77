import Mathlib

/-!
# Mutual exclusion

Threads go through their programs at their own pace, and at some places of a program its
thread has the mutex. The mutex is exclusive when such a thread is always its owner. A thread
that takes a free mutex, releases its own, or goes on without touching it keeps this
(`Exclusive.move`).
-/

set_option autoImplicit false

namespace Mutex

variable {τ : Type*}

/-- Every thread that is at a place where it has the mutex is the owner of the mutex. -/
def Exclusive (owner : Option τ) (locked : τ → Bool) : Prop :=
  ∀ thread, locked thread = true → owner = some thread

namespace Exclusive

variable {owner : Option τ} {locked : τ → Bool}

theorem unique (exclusive : Exclusive owner locked) {one other : τ}
    (first : locked one = true) (second : locked other = true) : one = other :=
  Option.some.inj ((exclusive one first).symm.trans (exclusive other second))

end Exclusive

variable [DecidableEq τ]

/-- What a thread can do to the mutex. -/
inductive Move (owner : Option τ) (locked : τ → Bool) (thread : τ) :
    Option τ → (τ → Bool) → Prop where
  | idle : Move owner locked thread owner locked
  | stay {now : Bool} (same : locked thread = now) :
      Move owner locked thread owner (Function.update locked thread now)
  | take {now : Bool} (free : owner = none) :
      Move owner locked thread (some thread) (Function.update locked thread now)
  | release (held : locked thread = true) :
      Move owner locked thread none (Function.update locked thread false)

/-- **Nothing that a thread does to the mutex makes it shared.** -/
theorem Exclusive.move {owner owner' : Option τ} {locked locked' : τ → Bool} {thread : τ}
    (exclusive : Exclusive owner locked) (step : Move owner locked thread owner' locked') :
    Exclusive owner' locked' := by
  cases step with
  | idle => exact exclusive
  | stay same =>
      subst same
      rwa [Function.update_eq_self]
  | take free =>
      intro other lockedNow
      by_cases same : other = thread
      · rw [same]
      · rw [Function.update_of_ne same] at lockedNow
        have owned := exclusive other lockedNow
        rw [free] at owned
        cases owned
  | release held =>
      intro other lockedNow
      by_cases same : other = thread
      · subst same
        rw [Function.update_self] at lockedNow
        cases lockedNow
      · rw [Function.update_of_ne same] at lockedNow
        exact absurd (exclusive.unique lockedNow held) same

/-- The owner of the mutex is at a place where it has it, so a mutex that is taken is released by a
thread that can go on. -/
def Held (owner : Option τ) (locked : τ → Bool) : Prop :=
  ∀ thread, owner = some thread → locked thread = true

/-- **A mutex that is taken is taken by somebody at its place.** A thread that takes the mutex goes
to a place where it has it. -/
theorem Held.move {owner owner' : Option τ} {locked locked' : τ → Bool} {thread : τ}
    (held : Held owner locked) (step : Move owner locked thread owner' locked')
    (enters : owner = none → owner' = some thread → locked' thread = true) :
    Held owner' locked' := by
  cases step with
  | idle => exact held
  | stay same =>
      subst same
      rwa [Function.update_eq_self]
  | take free =>
      intro other owned
      cases owned
      exact enters free rfl
  | release _ =>
      intro other owned
      cases owned

end Mutex
