import Handy.Timers.Runs

/-!
# When cancelling is safe

`cancel` picks the map by the sign of the id: a negative first component means
`timerReps_`, anything else `timers_`. The record found in `timerReps_` is
dereferenced without a test, so a negative id that is not in the map, because the
timer was cancelled before, was dropped at exit, or was a one-shot timer with a
negative time, is undefined behaviour. A repeating timer that starts at time zero
or before has an id that is not negative; it is searched in the wrong map and
stays.

`cancel_contract_iff` gives the exact condition in every reachable table.
-/

set_option autoImplicit false

namespace Handy

namespace Timers

variable {τ : Type}

/-- Cancelling is defined, answers true exactly when it removed a pending timer
with that id, and otherwise changes nothing. -/
def CancelContract (t : Timers τ) (id : TimerId) : Prop :=
  ∃ removed t', t.cancel id = .ok (removed, t') ∧
    (removed = true ↔ t.Pending id ∧ ¬ t'.Pending id) ∧ (removed = false → t' = t)

/-- In addition, a pending timer with that id does get removed. -/
def CancelRemoves (t : Timers τ) (id : TimerId) : Prop :=
  ∀ removed t', t.cancel id = .ok (removed, t') → t.Pending id → removed = true

variable {t : Timers τ} {id : TimerId}

theorem cancel_negative_missing (negative : id.first < 0) (missing : t.timerReps.find? id = none) :
    t.cancel id = .error .missingEntry := by
  simp [cancel, negative, missing]

/-- A negative id of a record: the contract holds. -/
theorem Linked.contract_of_record (linked : t.Linked) {rep : TimerRepeatable τ}
    (negative : id.first < 0) (found : t.timerReps.find? id = some rep) :
    t.CancelContract id ∧ t.CancelRemoves id := by
  obtain ⟨t', cancels, -, quiet, -⟩ := linked.cancel_pending (.inr ⟨negative, rep, found⟩)
  refine ⟨⟨true, t', cancels, ?_, by simp⟩, ?_⟩
  · exact ⟨fun _ => ⟨.inr ⟨rep, found⟩, quiet⟩, fun _ => rfl⟩
  · intro removed other ran _
    rw [cancels] at ran
    cases ran
    rfl

/-- An id that is not negative and not the key of a repeating timer's occurrence:
the one-shot timer with that key is removed, or nothing happens. -/
theorem Linked.contract_of_nonnegative (linked : t.Linked) (nonnegative : 0 ≤ id.first)
    (outer : ∀ tr, t.timers.find? id ≠ some (.repeatable tr)) : t.CancelContract id := by
  cases entry : t.timers.find? id with
  | none =>
      refine ⟨false, t, by simp [Timers.cancel, not_lt.mpr nonnegative, entry], ?_, fun _ => rfl⟩
      simp
  | some action =>
      cases action with
      | repeatable tr => exact absurd entry (outer tr)
      | task task =>
          refine ⟨true, { t with timers := t.timers.erase id },
            by simp [Timers.cancel, not_lt.mpr nonnegative, entry], ?_, by simp⟩
          refine ⟨fun _ => ⟨.inl ⟨task, entry⟩, ?_⟩, fun _ => rfl⟩
          rintro (⟨other, still⟩ | ⟨rep, found⟩)
          · simp at still
          · exact linked.apart found entry rfl

/-- With a non-negative id, what stays pending is exactly a repeating timer. -/
theorem Linked.removes_iff_of_nonnegative (linked : t.Linked) (nonnegative : 0 ≤ id.first) :
    t.CancelRemoves id ↔ t.timerReps.find? id = none := by
  constructor
  · intro removes
    by_contra present
    obtain ⟨rep, found⟩ := Option.ne_none_iff_exists'.mp present
    have absent : t.timers.find? id = none := by
      cases entry : t.timers.find? id with
      | none => rfl
      | some action => exact absurd rfl (linked.apart found entry)
    have ran : t.cancel id = .ok (false, t) := by
      simp [Timers.cancel, not_lt.mpr nonnegative, absent]
    have := removes false t ran (.inr ⟨rep, found⟩)
    cases this
  · rintro missing removed t' ran (⟨task, entry⟩ | ⟨rep, found⟩)
    · rcases cancel_cases ran with ⟨negative, -⟩ | ⟨-, yes, -⟩ | ⟨-, -, absent, -⟩
      · omega
      · exact yes
      · rw [entry] at absent
        cases absent
    · rw [missing] at found
      cases found

end Timers

section Reachable

variable {τ : Type} {c : TimerConfig τ}

/-- **When cancelling an id that was handed out keeps its contract**, in any
reachable configuration: exactly when a negative id still has its record. A
pending timer is moreover sure to be removed exactly when, in addition, an id that
is not negative has no record. -/
theorem cancel_contract_iff (reached : TimerReachable GivenIds c) (id : TimerId)
    (given : id ∈ c.issued) :
    (c.table.CancelContract id ↔
      (id.first < 0 → ∃ rep, c.table.timerReps.find? id = some rep)) ∧
    (c.table.CancelContract id ∧ c.table.CancelRemoves id ↔
      (id.first < 0 → ∃ rep, c.table.timerReps.find? id = some rep) ∧
        (0 ≤ id.first → c.table.timerReps.find? id = none)) := by
  have wired := reached.wired cancelsIssued_givenIds
  have outer := wired.outer id given
  rcases lt_or_ge id.first 0 with negative | nonnegative
  · have decided : ∀ removes : Prop, (c.table.CancelContract id → removes) →
        (c.table.CancelContract id ∧ removes ↔
          ∃ rep, c.table.timerReps.find? id = some rep) := by
      intro removes follows
      constructor
      · rintro ⟨⟨removed, t', ran, -⟩, -⟩
        cases found : c.table.timerReps.find? id with
        | none =>
            rw [Timers.cancel_negative_missing negative found] at ran
            cases ran
        | some rep => exact ⟨rep, rfl⟩
      · rintro ⟨rep, found⟩
        have contract := (wired.linked.contract_of_record negative found).1
        exact ⟨contract, follows contract⟩
    have simple := decided True fun _ => trivial
    have full := decided (c.table.CancelRemoves id) fun contract => by
      obtain ⟨removed, t', ran, -⟩ := contract
      cases found : c.table.timerReps.find? id with
      | none =>
          rw [Timers.cancel_negative_missing negative found] at ran
          cases ran
      | some rep => exact (wired.linked.contract_of_record negative found).2
    simp only [negative, true_imp_iff, not_le.mpr negative, false_imp_iff, and_true] at simple ⊢
    exact ⟨simple, full⟩
  · have contract := wired.linked.contract_of_nonnegative nonnegative outer
    have removes := wired.linked.removes_iff_of_nonnegative nonnegative
    simp only [not_lt.mpr nonnegative, false_imp_iff, nonnegative, true_imp_iff, true_and]
    exact ⟨iff_true_intro contract, and_iff_right contract |>.trans removes⟩

/-- After a repeating timer has been cancelled. -/
def oneCancelled : TimerConfig Unit :=
  ⟨{ oneRepeating.table with timers := .empty, timerReps := .empty }, none, [⟨-5, 1⟩]⟩

theorem oneCancelled_reachable : TimerReachable GivenIds oneCancelled :=
  ⟨0, [.created ⟨-5, 1⟩, .cancelled ⟨-5, 1⟩ true],
    .cons (.op (show GivenIds _ (.runAt 5 () 10) from trivial) rfl)
      (.single (.op (show GivenIds _ (.cancel ⟨-5, 1⟩) from List.mem_singleton_self _) rfl))⟩

theorem cancel_contract_iff_oneRepeating : oneRepeating.table.CancelContract ⟨-5, 1⟩ :=
  (cancel_contract_iff
    ⟨0, [.created ⟨-5, 1⟩], .single (.op (show GivenIds _ (.runAt 5 () 10) from trivial) rfl)⟩
    ⟨-5, 1⟩ (by decide)).1.mpr fun _ => ⟨⟨5, 10, ⟨5, 2⟩, ()⟩, rfl⟩

/-- **Cancelling a repeating timer twice dereferences the end of `timerReps_`.** -/
theorem second_cancel_faults :
    TimerReachable GivenIds oneCancelled ∧ ⟨-5, 1⟩ ∈ oneCancelled.issued ∧
      oneCancelled.table.cancel ⟨-5, 1⟩ = .error .missingEntry ∧
        ¬ oneCancelled.table.CancelContract ⟨-5, 1⟩ := by
  refine ⟨oneCancelled_reachable, by decide, rfl, ?_⟩
  rintro ⟨removed, t', ran, -⟩
  cases ran

end Reachable

end Handy
