import Mathlib

/-!
# Taking turns

Numbered calls are handed to `r` servers in turn: the call `c` goes to the server `c % r`. However
many consecutive calls are looked at, the servers get the same number of them, up to one
(`RoundRobin.turns_fair`).
-/

set_option autoImplicit false

namespace RoundRobin

variable {r v : ℕ}

/-- Of `n` calls from `start` on, those that go to a server. -/
def turns (r start n v : ℕ) : ℕ := (List.range' start n).countP (· % r = v)

/-- The turns of a server, counted by the rounds that have been completed. -/
theorem turns_add (inside : v < r) (start n : ℕ) :
    turns r start n v + (start + (r - 1 - v)) / r = (start + n + (r - 1 - v)) / r := by
  induction n with
  | zero => simp [turns]
  | succ n ih =>
      have one : turns r start (n + 1) v = turns r start n v + if (start + n) % r = v then 1 else 0 := by
        rw [turns, turns, List.range'_1_concat, List.countP_append, List.countP_singleton]
        simp
      -- a round is completed by the call after that of the server
      have completes : r ∣ start + n + (r - 1 - v) + 1 ↔ (start + n) % r = v := by
        have shift : start + n + (r - 1 - v) + 1 + v = start + n + r := by omega
        rw [Nat.dvd_iff_mod_eq_zero]
        constructor
        · intro whole
          have same := congrArg (· % r) shift
          simp only [Nat.add_mod_right] at same
          rw [← same, Nat.add_mod, whole, Nat.zero_add, Nat.mod_mod, Nat.mod_eq_of_lt inside]
        · intro here
          have turn : start + n = r * ((start + n) / r) + v := by
            have split := Nat.div_add_mod (start + n) r
            omega
          have whole : start + n + (r - 1 - v) + 1 = r * ((start + n) / r + 1) := by
            rw [Nat.mul_add, Nat.mul_one]
            omega
          rw [whole, Nat.mul_mod_right]
      have next : start + (n + 1) + (r - 1 - v) = start + n + (r - 1 - v) + 1 := by omega
      rw [one, next, Nat.succ_div, ← ih]
      simp only [completes]
      omega

/-- **Every server gets its share** of consecutive calls, or one call more. -/
theorem turns_fair (inside : v < r) (start n : ℕ) :
    n / r ≤ turns r start n v ∧ turns r start n v ≤ n / r + 1 := by
  have counted := turns_add inside start n
  have some : 0 < r := Nat.zero_lt_of_lt inside
  have swap : start + n + (r - 1 - v) = start + (r - 1 - v) + n := by omega
  have least : (start + (r - 1 - v)) / r + n / r ≤ (start + (r - 1 - v) + n) / r :=
    Nat.div_add_div_le_add_div
  have most : (start + (r - 1 - v) + n) / r ≤ (start + (r - 1 - v)) / r + n / r + 1 := by
    rw [Nat.add_div some]
    split_ifs <;> omega
  rw [swap] at counted
  omega

end RoundRobin
