import Mathlib

/-!
# One customer at a time

A server looks at its queue at certain times and serves one customer each time, if there is one.
With `arrived j` customers until the `j`th look, the queue is empty after the `n`th look exactly if
for every `j` the last `n - j` looks are enough for those who came after the `j`th
(`OneAtATime.served_eq_iff`).
-/

set_option autoImplicit false

namespace OneAtATime

variable {arrived other : ℕ → ℕ} {n : ℕ}

/-- The customers served in the first so many looks. -/
def served (arrived : ℕ → ℕ) : ℕ → ℕ
  | 0 => 0
  | n + 1 => min (served arrived n + 1) (arrived (n + 1))

/-- Later arrivals do not matter. -/
theorem served_congr (same : ∀ j ≤ n, arrived j = other j) : served arrived n = served other n := by
  induction n with
  | zero => rfl
  | succ n ih => rw [served, served, ih fun j le => same j (Nat.le_succ_of_le le), same _ le_rfl]

/-- Nobody is served before he has come. -/
theorem served_le (arrived : ℕ → ℕ) (n : ℕ) : served arrived n ≤ arrived n := by
  cases n with
  | zero => exact Nat.zero_le _
  | succ n => exact min_le_right _ _

/-- After any look, the later ones serve one customer each at most. -/
theorem served_le_add (arrived : ℕ → ℕ) {j : ℕ} (le : j ≤ n) :
    served arrived n ≤ arrived j + (n - j) := by
  induction n, le using Nat.le_induction with
  | base => simpa using served_le arrived j
  | succ n le ih =>
      have one : served arrived (n + 1) ≤ served arrived n + 1 := min_le_left _ _
      omega

/-- There is a look after which the queue was never empty before a service. -/
theorem exists_served_eq (none : arrived 0 = 0) (n : ℕ) :
    ∃ j ≤ n, served arrived n = arrived j + (n - j) := by
  induction n with
  | zero => exact ⟨0, le_rfl, by simp [served, none]⟩
  | succ n ih =>
      obtain ⟨j, le, busy⟩ := ih
      rcases min_choice (served arrived n + 1) (arrived (n + 1)) with serves | empty
      · exact ⟨j, Nat.le_succ_of_le le, by rw [served, serves, busy]; omega⟩
      · exact ⟨n + 1, le_rfl, by rw [served, empty, Nat.sub_self]; rfl⟩

/-- **Everybody has been served exactly if no number of last looks is less than the number of
customers who came in them.** -/
theorem served_eq_iff (none : arrived 0 = 0) (n : ℕ) :
    served arrived n = arrived n ↔ ∀ j ≤ n, arrived n ≤ arrived j + (n - j) := by
  constructor
  · intro all j le
    rw [← all]
    exact served_le_add arrived le
  · intro paced
    obtain ⟨j, le, busy⟩ := exists_served_eq none n
    refine le_antisymm (served_le arrived n) ?_
    rw [busy]
    exact paced j le

end OneAtATime
