import Handy.Timers.Linked

/-!
# Timers over whole runs

The results of this module hold in every configuration the timers reach,
whatever operations user code performs, from outside or from a callback in the
middle of a batch, as long as it cancels only ids it was given.

* `reachable_tables_linked`: the two maps stay linked and no insertion replaces an
  entry.
* `cancelled_timer_never_fires`: cancelling a pending timer removes its own
  occurrence and nothing else, and the timer does not fire in any later run.
-/

set_option autoImplicit false

namespace Handy

namespace Timers

variable {τ : Type} {t t' : Timers τ}

/-! ## Pending timers -/

/-- A timer is pending when its public id names a one-shot occurrence or a
record of a repeating timer. -/
def Pending (t : Timers τ) (id : TimerId) : Prop :=
  (∃ task, t.timers.find? id = some (.task task)) ∨ ∃ rep, t.timerReps.find? id = some rep

/-- The public id of the timer an entry of `timers_` belongs to. -/
def owner (key : TimerId) : TimerAction τ → TimerId
  | .task _ => key
  | .repeatable tr => tr

theorem pending_of_runAt (linked : t.Linked) {milli : ℤ} {task : τ} {interval : ℤ}
    {id other : TimerId} (ran : t.runAt milli task interval = (id, t'))
    (pending : t'.Pending other) :
    t.Pending other ∨ (t.exit = false ∧ other = id ∧ other.second = t.timerSeq + 1) := by
  have not_exited : (t.exit = true ∧ id = ⟨0, 0⟩ ∧ t' = t) ∨ t.exit = false := by
    cases exited : t.exit with
    | false => exact .inr rfl
    | true =>
        rw [runAt, if_pos exited] at ran
        cases ran
        exact .inl ⟨rfl, rfl, rfl⟩
  rcases not_exited with ⟨-, -, rfl⟩ | running
  · exact .inl pending
  rcases runAt_cases t milli task interval ran with ⟨exited, -, -⟩ | ⟨-, rfl, -, timers, reps⟩ |
    ⟨-, rfl, -, timers, reps⟩
  · rw [running] at exited
    cases exited
  · rcases pending with ⟨found_task, entry⟩ | ⟨rep, found⟩
    · rw [timers, OrderedMap.find?_set] at entry
      split_ifs at entry
      · cases entry
      · exact .inl (.inl ⟨found_task, entry⟩)
    · rw [reps, OrderedMap.find?_set] at found
      split_ifs at found with same
      · exact .inr ⟨running, same.symm, by rw [← same]⟩
      · exact .inl (.inr ⟨rep, found⟩)
  · have fresh : t.timers.find? ⟨milli, t.timerSeq + 1⟩ = none := linked.fresh_key (by simp)
    rw [OrderedMap.insert_of_fresh fresh] at timers
    rcases pending with ⟨found_task, entry⟩ | ⟨rep, found⟩
    · rw [timers, OrderedMap.find?_set] at entry
      split_ifs at entry with same
      · exact .inr ⟨running, same.symm, by rw [← same]⟩
      · exact .inl (.inl ⟨found_task, entry⟩)
    · rw [reps] at found
      exact .inl (.inr ⟨rep, found⟩)

theorem pending_of_cancel {id other : TimerId} {removed : Bool}
    (ran : t.cancel id = .ok (removed, t')) (pending : t'.Pending other) : t.Pending other := by
  rcases cancel_cases ran with ⟨-, -, rep, -, rfl⟩ | ⟨-, -, -, rfl⟩ | ⟨-, -, -, rfl⟩
  · rcases pending with ⟨task, entry⟩ | ⟨record, found⟩
    · simp only [OrderedMap.find?_erase] at entry
      split_ifs at entry
      exact .inl ⟨task, entry⟩
    · simp only [OrderedMap.find?_erase] at found
      split_ifs at found
      exact .inr ⟨record, found⟩
  · rcases pending with ⟨task, entry⟩ | repeating
    · simp only [OrderedMap.find?_erase] at entry
      split_ifs at entry
      exact .inl ⟨task, entry⟩
    · exact .inr repeating
  · exact pending

theorem pending_of_fire {key other : TimerId} {action : TimerAction τ} {fired : Fired τ}
    (ran : t.fire key action = .ok (fired, t')) (pending : t'.Pending other) :
    t.Pending other := by
  rcases fire_cases ran with ⟨task, -, -, rfl⟩ | ⟨tr, rep, -, -, found, -, timers, reps⟩
  · rcases pending with ⟨other_task, entry⟩ | repeating
    · simp only [OrderedMap.find?_erase] at entry
      split_ifs at entry
      exact .inl ⟨other_task, entry⟩
    · exact .inr repeating
  · rcases pending with ⟨other_task, entry⟩ | ⟨record, other_found⟩
    · rw [timers, OrderedMap.find?_set] at entry
      split_ifs at entry
      · cases entry
      · simp only [OrderedMap.find?_erase] at entry
        split_ifs at entry
        exact .inl ⟨other_task, entry⟩
    · rw [reps, OrderedMap.find?_set] at other_found
      split_ifs at other_found with same
      · exact .inr ⟨rep, same ▸ found⟩
      · exact .inr ⟨record, other_found⟩

/-- The timer that fires was pending. -/
theorem pending_of_fired {key : TimerId} {action : TimerAction τ} {fired : Fired τ}
    (entry : t.timers.find? key = some action) (ran : t.fire key action = .ok (fired, t')) :
    t.Pending fired.timer := by
  rcases fire_cases ran with ⟨task, rfl, rfl, -⟩ | ⟨tr, rep, rfl, rfl, found, -⟩
  · exact .inl ⟨task, entry⟩
  · exact .inr ⟨rep, found⟩

theorem due_entry {now : ℤ} {key : TimerId} {action : TimerAction τ}
    (next : t.due now = some (key, action)) : t.timers.find? key = some action :=
  OrderedMap.find?_of_first? (due_eq_some next).1

/-! ## Insertions are fresh -/

/-- The entries of both maps are still there. -/
def Keeps (t t' : Timers τ) : Prop :=
  (∀ key action, t.timers.find? key = some action → t'.timers.find? key = some action) ∧
    ∀ tr rep, t.timerReps.find? tr = some rep → t'.timerReps.find? tr = some rep

theorem Linked.runAt_keeps (linked : t.Linked) {milli : ℤ} {task : τ} {interval : ℤ}
    {id : TimerId} (ran : t.runAt milli task interval = (id, t')) : t.Keeps t' := by
  rcases runAt_cases t milli task interval ran with ⟨-, -, rfl⟩ | ⟨-, rfl, -, timers, reps⟩ |
    ⟨-, rfl, -, timers, reps⟩
  · exact ⟨fun _ _ found => found, fun _ _ found => found⟩
  · have fresh : t.timers.find? ⟨milli, t.timerSeq + 2⟩ = none := linked.fresh_key (by simp)
    have fresh_id : t.timerReps.find? ⟨-milli, t.timerSeq + 1⟩ = none :=
      linked.fresh_id (by simp)
    constructor
    · intro key action found
      rw [timers, OrderedMap.find?_set, if_neg, found]
      intro same
      rw [← same, fresh] at found
      cases found
    · intro tr rep found
      rw [reps, OrderedMap.find?_set, if_neg, found]
      intro same
      rw [← same, fresh_id] at found
      cases found
  · have fresh : t.timers.find? ⟨milli, t.timerSeq + 1⟩ = none := linked.fresh_key (by simp)
    rw [OrderedMap.insert_of_fresh fresh] at timers
    constructor
    · intro key action found
      rw [timers, OrderedMap.find?_set, if_neg, found]
      intro same
      rw [← same, fresh] at found
      cases found
    · intro tr rep found
      rw [reps, found]

/-- Firing leaves the entries of every other key and the records of every other
timer as they were, so the rescheduled occurrence replaces nothing. -/
theorem Linked.fire_keeps (linked : t.Linked) {key : TimerId} {action : TimerAction τ}
    {fired : Fired τ} (ran : t.fire key action = .ok (fired, t')) :
    (∀ other value, other ≠ key → t.timers.find? other = some value →
      t'.timers.find? other = some value) ∧
    ∀ tr rep, tr ≠ fired.timer → t.timerReps.find? tr = some rep →
      t'.timerReps.find? tr = some rep := by
  rcases fire_cases ran with ⟨task, rfl, rfl, rfl⟩ | ⟨tr, rep, rfl, rfl, -, -, timers, reps⟩
  · refine ⟨fun other value apart found => ?_, fun tr rep _ found => found⟩
    rw [OrderedMap.find?_erase, if_neg (Ne.symm apart), found]
  · constructor
    · intro other value apart found
      have fresh : t.timers.find? ⟨rep.at_ + rep.interval, t.timerSeq + 1⟩ = none :=
        linked.fresh_key (by simp)
      rw [timers, OrderedMap.find?_set, if_neg, OrderedMap.find?_erase, if_neg (Ne.symm apart),
        found]
      intro same
      rw [← same, fresh] at found
      cases found
    · intro other record apart found
      rw [reps, OrderedMap.find?_set, if_neg (Ne.symm apart), found]

end Timers

/-! ## Reachable configurations -/

section Reachable

variable {τ : Type} {allowed : TimerConfig τ → TimerOp τ → Prop} {c c' : TimerConfig τ}

/-- The table is linked, and the ids handed out are never the keys of a repeating
timer's occurrences. -/
structure TimerConfig.Wired (c : TimerConfig τ) : Prop where
  linked : c.table.Linked
  issued_le : ∀ id ∈ c.issued, id.second ≤ c.table.timerSeq
  outer : ∀ id ∈ c.issued, ∀ tr, c.table.timers.find? id ≠ some (.repeatable tr)

/-- User code cancels only ids it was given. -/
def CancelsIssued (allowed : TimerConfig τ → TimerOp τ → Prop) : Prop :=
  ∀ c id, allowed c (.cancel id) → id ∈ c.issued

/-- The ids handed out stay outside the repeat keys when the table changes only
by erasing entries and adding entries with new sequence numbers. -/
theorem TimerConfig.Wired.outer_of (wired : c.Wired) {t' : Timers τ} {ids : List TimerId}
    (linked : t'.Linked) (seq_le : c.table.timerSeq ≤ t'.timerSeq)
    (new_ids : ∀ id ∈ ids, id.second ≤ t'.timerSeq ∧
      ∀ tr, t'.timers.find? id ≠ some (.repeatable tr))
    (new_keys : ∀ key tr, t'.timers.find? key = some (.repeatable tr) →
      c.table.timers.find? key = some (.repeatable tr) ∨ c.table.timerSeq < key.second) :
    (⟨t', c.batch, ids ++ c.issued⟩ : TimerConfig τ).Wired where
  linked := linked
  issued_le id member := by
    rcases List.mem_append.mp member with new | old
    · exact (new_ids id new).1
    · exact (wired.issued_le id old).trans seq_le
  outer id member tr entry := by
    rcases List.mem_append.mp member with new | old
    · exact (new_ids id new).2 tr entry
    · rcases new_keys id tr entry with before | later
      · exact wired.outer id old tr before
      · exact absurd (wired.issued_le id old) (not_le.mpr later)

theorem TimerConfig.Wired.runAt (wired : c.Wired) {milli : ℤ} {task : τ} {interval : ℤ}
    {id : TimerId} {t' : Timers τ} (ran : c.table.runAt milli task interval = (id, t')) :
    (⟨t', c.batch, [id] ++ c.issued⟩ : TimerConfig τ).Wired := by
  have linked := wired.linked.runAt ran
  rcases Timers.runAt_cases c.table milli task interval ran with ⟨-, rfl, rfl⟩ |
    ⟨-, rfl, seq, timers, -⟩ | ⟨-, rfl, seq, timers, -⟩
  · refine wired.outer_of linked le_rfl ?_ fun key tr entry => .inl entry
    intro id member
    cases List.mem_singleton.mp member
    refine ⟨Nat.zero_le _, fun tr entry => ?_⟩
    have := (linked.keys_le entry).1
    simp at this
  · refine wired.outer_of linked (by omega) ?_ ?_
    · intro id member
      cases List.mem_singleton.mp member
      refine ⟨by simp [seq], fun tr entry => ?_⟩
      rw [timers, OrderedMap.find?_set] at entry
      split_ifs at entry with same
      · simp at same
      · have := (wired.linked.keys_le entry).2
        simp at this
    · intro key tr entry
      rw [timers, OrderedMap.find?_set] at entry
      split_ifs at entry with same
      · exact .inr (by simp [← same])
      · exact .inl entry
  · have fresh : c.table.timers.find? ⟨milli, c.table.timerSeq + 1⟩ = none :=
      wired.linked.fresh_key (by simp)
    rw [OrderedMap.insert_of_fresh fresh] at timers
    refine wired.outer_of linked (by omega) ?_ ?_
    · intro id member
      cases List.mem_singleton.mp member
      refine ⟨by simp [seq], fun tr entry => ?_⟩
      rw [timers, OrderedMap.find?_set, if_pos rfl] at entry
      cases entry
    · intro key tr entry
      rw [timers, OrderedMap.find?_set] at entry
      split_ifs at entry
      · cases entry
      · exact .inl entry

/-- The table after a cancel of an id that was handed out. -/
theorem TimerConfig.Wired.cancel (wired : c.Wired) {id : TimerId} {removed : Bool}
    {t' : Timers τ} (given : id ∈ c.issued) (ran : c.table.cancel id = .ok (removed, t')) :
    (⟨t', c.batch, c.issued⟩ : TimerConfig τ).Wired := by
  have linked := wired.linked.cancel (wired.outer id given) ran
  have still : (⟨t', c.batch, [] ++ c.issued⟩ : TimerConfig τ).Wired := by
    refine wired.outer_of linked ?_ (fun id member => by cases member) ?_
    · rcases Timers.cancel_cases ran with ⟨-, -, rep, -, rfl⟩ | ⟨-, -, -, rfl⟩ | ⟨-, -, -, rfl⟩ <;>
        exact le_rfl
    · intro key tr entry
      left
      rcases Timers.cancel_cases ran with ⟨-, -, rep, -, rfl⟩ | ⟨-, -, -, rfl⟩ | ⟨-, -, -, rfl⟩
      · simp only [OrderedMap.find?_erase] at entry
        split_ifs at entry
        exact entry
      · simp only [OrderedMap.find?_erase] at entry
        split_ifs at entry
        exact entry
      · exact entry
  exact still

theorem TimerConfig.Wired.fire (wired : c.Wired) {key : TimerId} {action : TimerAction τ}
    {fired : Fired τ} {t' : Timers τ} (entry : c.table.timers.find? key = some action)
    (ran : c.table.fire key action = .ok (fired, t')) :
    (⟨t', c.batch, c.issued⟩ : TimerConfig τ).Wired := by
  have linked := wired.linked.fire entry ran
  have still : (⟨t', c.batch, [] ++ c.issued⟩ : TimerConfig τ).Wired := by
    rcases Timers.fire_cases ran with ⟨task, -, -, rfl⟩ | ⟨tr, rep, -, -, -, seq, timers, -⟩
    · refine wired.outer_of linked le_rfl (fun id member => by cases member) ?_
      intro other tr other_entry
      simp only [OrderedMap.find?_erase] at other_entry
      split_ifs at other_entry
      exact .inl other_entry
    · refine wired.outer_of linked (by omega) (fun id member => by cases member) ?_
      intro other tr other_entry
      rw [timers, OrderedMap.find?_set] at other_entry
      split_ifs at other_entry with same
      · exact .inr (by simp [← same])
      · simp only [OrderedMap.find?_erase] at other_entry
        split_ifs at other_entry
        exact .inl other_entry
  exact still

/-- **Every step keeps the maps linked.** -/
theorem TimerStep.wired (issued : CancelsIssued allowed) {event : TimerEvent}
    (step : TimerStep allowed c event c') (wired : c.Wired) : c'.Wired := by
  cases step with
  | op permitted ran =>
      rcases Timers.runOp_cases ran with ⟨milli, task, interval, id, rfl, runs, -⟩ |
        ⟨id, removed, rfl, rfl, cancels⟩ | ⟨milli, rfl, rfl, rfl⟩
      · exact wired.runAt runs
      · exact wired.cancel (issued c id permitted) cancels
      · exact ⟨wired.linked.of_maps rfl rfl le_rfl, wired.issued_le, wired.outer⟩
  | start idle => exact ⟨wired.linked, wired.issued_le, wired.outer⟩
  | fire running next ran => exact wired.fire (Timers.due_entry next) ran
  | finish running nothing =>
      refine ⟨wired.linked.of_maps (by simp) (by simp) (by simp), ?_, ?_⟩
      · simpa using wired.issued_le
      · simpa using wired.outer
  | exit => exact ⟨wired.linked.of_maps rfl rfl le_rfl, wired.issued_le, wired.outer⟩
  | drop exited idle =>
      refine ⟨⟨?_, ?_, ?_, ?_, ?_, ?_⟩, wired.issued_le, ?_⟩ <;> simp [Timers.clear]

theorem TimerReachable.wired (issued : CancelsIssued allowed) (reached : TimerReachable allowed c) :
    c.Wired := by
  obtain ⟨clock, labels, run⟩ := reached
  refine run.invariant TimerConfig.Wired (fun _ _ _ wired step => step.wired issued wired) ?_
  exact ⟨Timers.Linked.init clock, by simp, by simp⟩

/-! ## A call of `handleTimeouts` is a run -/

/-- Every operation of the list is allowed in the configuration it is performed in. -/
def OpsAllowed (allowed : TimerConfig τ → TimerOp τ → Prop) :
    TimerConfig τ → List (TimerOp τ) → Prop
  | _, [] => True
  | c, op :: rest => allowed c op ∧ ∀ event t', c.table.runOp op = .ok (event, t') →
      OpsAllowed allowed { c with table := t', issued := event.ids ++ c.issued } rest

theorem runOps_run {ops : List (TimerOp τ)} :
    ∀ {c : TimerConfig τ} {events : List TimerEvent} {t' : Timers τ},
      OpsAllowed allowed c ops → c.table.runOps ops = .ok (events, t') →
        ∃ issued, LabelledRun (TimerStep allowed) c events ⟨t', c.batch, issued⟩ := by
  induction ops with
  | nil =>
      intro c events t' _ ran
      cases ran
      exact ⟨c.issued, .refl _⟩
  | cons op rest ih =>
      intro c events t' permitted ran
      unfold Timers.runOps at ran
      split at ran
      · cases ran
      · next event t₁ first =>
          split at ran
          · cases ran
          · next later t₂ more =>
              cases ran
              obtain ⟨issued, run⟩ := ih (permitted.2 event t₁ first) more
              exact ⟨issued, .cons (.op permitted.1 first) run⟩

theorem handleTimeoutsLoop_run {tasks : Fired τ → Timers τ → List (TimerOp τ)} {now : ℤ}
    (permitted : ∀ (c : TimerConfig τ) fired, OpsAllowed allowed c (tasks fired c.table))
    (fuel : ℕ) :
    ∀ {c : TimerConfig τ} {trace : List TimerEvent} {t' : Timers τ}, c.batch = some now →
      c.table.handleTimeoutsLoop tasks now fuel = .ok (trace, t') →
        t'.due now = none ∧
          ∃ issued, LabelledRun (TimerStep allowed) c trace ⟨t', some now, issued⟩ := by
  induction fuel with
  | zero =>
      intro c trace t' _ ran
      cases ran
  | succ fuel ih =>
      intro c trace t' running ran
      unfold Timers.handleTimeoutsLoop at ran
      split at ran
      · next nothing =>
          cases ran
          refine ⟨nothing, c.issued, ?_⟩
          rw [← running]
          exact .refl _
      · next key action next =>
          split at ran
          · cases ran
          · next fired t₁ takes =>
              split at ran
              · cases ran
              · next events t₂ called =>
                  split at ran
                  · cases ran
                  · next later t₃ looped =>
                      cases ran
                      obtain ⟨given, during⟩ := runOps_run
                        (permitted { c with table := t₁ } fired) called
                      obtain ⟨nothing, issued, rest⟩ := ih
                        (c := ⟨t₂, c.batch, given⟩) running looped
                      exact ⟨nothing, issued, .cons (.fire running next takes) (during.append rest)⟩

/-- **A call of `handleTimeouts` is a run of the transition system**, from the
clock reading to the last look at the map. -/
theorem handleTimeouts_run {tasks : Fired τ → Timers τ → List (TimerOp τ)} {fuel : ℕ}
    {trace : List TimerEvent} {t' : Timers τ}
    (permitted : ∀ (c : TimerConfig τ) fired, OpsAllowed allowed c (tasks fired c.table))
    (idle : c.batch = none) (ran : c.table.handleTimeouts tasks fuel = .ok (trace, t')) :
    ∃ issued, LabelledRun (TimerStep allowed) c
      (.started c.table.clock :: (trace ++ [.finished])) ⟨t', none, issued⟩ := by
  unfold Timers.handleTimeouts at ran
  split at ran
  · cases ran
  · next events last looped =>
      cases ran
      obtain ⟨nothing, issued, run⟩ := handleTimeoutsLoop_run permitted fuel
        (c := { c with batch := some c.table.clock }) rfl looped
      exact ⟨issued, .cons (.start idle) (run.append (.single (.finish rfl nothing)))⟩

/-- What a call of `handleTimeouts` returns is a reachable table. -/
theorem TimerReachable.handleTimeouts {tasks : Fired τ → Timers τ → List (TimerOp τ)} {fuel : ℕ}
    {trace : List TimerEvent} {t' : Timers τ}
    (permitted : ∀ (c : TimerConfig τ) fired, OpsAllowed allowed c (tasks fired c.table))
    (reached : TimerReachable allowed c) (idle : c.batch = none)
    (ran : c.table.handleTimeouts tasks fuel = .ok (trace, t')) :
    ∃ issued, TimerReachable allowed ⟨t', none, issued⟩ := by
  obtain ⟨clock, labels, before⟩ := reached
  obtain ⟨issued, run⟩ := handleTimeouts_run permitted idle ran
  exact ⟨issued, clock, _, before.append run⟩

/-! ## What user code may do

The operations of the statements below, each as a restriction on what user code
does in a configuration. -/

/-- Times are positive, and only timers that are still pending are cancelled. -/
def PositiveLive (c : TimerConfig τ) : TimerOp τ → Prop
  | .runAt milli _ _ => 0 < milli
  | .runAfter milli _ _ => 0 < c.table.clock + milli
  | .cancel id => id ∈ c.issued ∧ c.table.Pending id
  | .elapse _ => True

/-- Any operation, except that only ids that were handed out are cancelled. -/
def GivenIds (c : TimerConfig τ) : TimerOp τ → Prop
  | .cancel id => id ∈ c.issued
  | _ => True

theorem cancelsIssued_positiveLive : CancelsIssued (PositiveLive : TimerConfig τ → TimerOp τ → Prop) :=
  fun _ _ permitted => permitted.1

theorem cancelsIssued_givenIds : CancelsIssued (GivenIds : TimerConfig τ → TimerOp τ → Prop) :=
  fun _ _ permitted => permitted

/-- **The two timer maps stay linked in every reachable configuration**, those a
callback sees included: a record has exactly one pending occurrence, under the key
it stores, a repeat closure points to a record that is there, and no step replaces
an entry by an insertion. -/
theorem reachable_tables_linked (reached : TimerReachable PositiveLive c) :
    (∀ tr rep, c.table.timerReps.find? tr = some rep →
      c.table.timers.find? rep.timerid = some (.repeatable tr) ∧
        ∀ key, c.table.timers.find? key = some (.repeatable tr) → key = rep.timerid) ∧
    (∀ key tr, c.table.timers.find? key = some (.repeatable tr) →
      ∃ rep, c.table.timerReps.find? tr = some rep) ∧
    (∀ milli task interval, c.table.Keeps (c.table.runAt milli task interval).2) ∧
    ∀ now key action fired t', c.table.due now = some (key, action) →
      c.table.fire key action = .ok (fired, t') →
        (∀ other value, other ≠ key → c.table.timers.find? other = some value →
          t'.timers.find? other = some value) ∧
        ∀ tr rep, tr ≠ fired.timer → c.table.timerReps.find? tr = some rep →
          t'.timerReps.find? tr = some rep := by
  have linked := (reached.wired cancelsIssued_positiveLive).linked
  refine ⟨?_, ?_, ?_, ?_⟩
  · intro tr rep found
    exact ⟨linked.pending found, fun key entry => linked.unique found entry⟩
  · intro key tr entry
    exact linked.present entry
  · intro milli task interval
    exact linked.runAt_keeps rfl
  · intro now key action fired t' _ ran
    exact linked.fire_keeps ran

/-- One repeating timer, first due at 5 and then every 10 milliseconds. -/
def oneRepeating : TimerConfig Unit :=
  ⟨((Timers.init 0).runAt 5 () 10).2, none, [⟨-5, 1⟩]⟩

theorem oneRepeating_reachable : TimerReachable PositiveLive oneRepeating :=
  ⟨0, [.created ⟨-5, 1⟩], .single (.op (show PositiveLive _ (.runAt 5 () 10) from (by decide : (0 : ℤ) < 5)) rfl)⟩

theorem reachable_tables_linked_oneRepeating :
    oneRepeating.table.timers.find? ⟨5, 2⟩ = some (.repeatable ⟨-5, 1⟩) ∧
      ∀ key, oneRepeating.table.timers.find? key = some (.repeatable ⟨-5, 1⟩) → key = ⟨5, 2⟩ :=
  (reachable_tables_linked oneRepeating_reachable).1 ⟨-5, 1⟩ ⟨5, 10, ⟨5, 2⟩, ()⟩ rfl

/-! ## A cancelled timer stays silent -/

/-- The timer is not pending, and its id will not be handed out again. -/
def TimerConfig.Silent (c : TimerConfig τ) (id : TimerId) : Prop :=
  c.Wired ∧ id.second ≤ c.table.timerSeq ∧ ¬ c.table.Pending id

theorem TimerStep.silent (issued : CancelsIssued allowed) {event : TimerEvent} {id : TimerId}
    (step : TimerStep allowed c event c') (silent : c.Silent id) : c'.Silent id := by
  obtain ⟨wired, old, quiet⟩ := silent
  have wired' := step.wired issued wired
  refine ⟨wired', ?_⟩
  cases step with
  | op permitted ran =>
      rcases Timers.runOp_cases ran with ⟨milli, task, interval, new, rfl, runs, -⟩ |
        ⟨cancelled, removed, rfl, rfl, cancels⟩ | ⟨milli, rfl, rfl, rfl⟩
      · constructor
        · rcases Timers.runAt_cases _ milli task interval runs with ⟨-, -, rfl⟩ |
            ⟨-, -, seq, -, -⟩ | ⟨-, -, seq, -, -⟩
          · exact old
          · simp only
            omega
          · simp only
            omega
        · intro pending
          rcases Timers.pending_of_runAt wired.linked runs pending with before | ⟨-, -, later⟩
          · exact quiet before
          · omega
      · constructor
        · rcases Timers.cancel_cases cancels with ⟨-, -, rep, -, rfl⟩ | ⟨-, -, -, rfl⟩ |
            ⟨-, -, -, rfl⟩ <;> exact old
        · exact fun pending => quiet (Timers.pending_of_cancel cancels pending)
      · exact ⟨old, quiet⟩
  | start idle => exact ⟨old, quiet⟩
  | fire running next ran =>
      constructor
      · rcases Timers.fire_cases ran with ⟨task, -, -, rfl⟩ | ⟨tr, rep, -, -, -, seq, -, -⟩
        · exact old
        · simp only
          omega
      · exact fun pending => quiet (Timers.pending_of_fire ran pending)
  | finish running nothing =>
      refine ⟨by simpa using old, fun pending => quiet ?_⟩
      simpa [Timers.Pending] using pending
  | exit => exact ⟨old, quiet⟩
  | drop exited idle =>
      refine ⟨old, fun pending => ?_⟩
      rcases pending with ⟨task, entry⟩ | ⟨rep, found⟩
      · simp [Timers.clear] at entry
      · simp [Timers.clear] at found

/-- A silent timer is not the one that fires. -/
theorem TimerStep.not_fired {event : TimerEvent} {id : TimerId}
    (step : TimerStep allowed c event c') (silent : c.Silent id) :
    ∀ key, event ≠ .fired key id := by
  rintro key rfl
  cases step with
  | op permitted ran =>
      rcases Timers.runOp_cases ran with ⟨_, _, _, _, same, -⟩ | ⟨_, _, -, same, -⟩ |
        ⟨_, -, same, -⟩ <;> cases same
  | fire running next ran =>
      exact silent.2.2 (Timers.pending_of_fired (Timers.due_entry next) ran)

/-- A pending timer that was created with a positive time: its id is the key of a
one-shot occurrence, or the negative id of a record. -/
def Timers.PendingPositive (t : Timers τ) (id : TimerId) : Prop :=
  (0 < id.first ∧ ∃ task, t.timers.find? id = some (.task task)) ∨
    (id.first < 0 ∧ ∃ rep, t.timerReps.find? id = some rep)

/-- Cancelling a pending timer succeeds, removes its own occurrence and record,
and touches no other timer. -/
theorem Timers.Linked.cancel_pending {t : Timers τ} (linked : t.Linked) {id : TimerId}
    (pending : t.PendingPositive id) :
    ∃ t', t.cancel id = .ok (true, t') ∧ t'.timerSeq = t.timerSeq ∧ ¬ t'.Pending id ∧
      (∀ key action, owner key action ≠ id →
        (t'.timers.find? key = some action ↔ t.timers.find? key = some action)) ∧
      ∀ tr, tr ≠ id → t'.timerReps.find? tr = t.timerReps.find? tr := by
  rcases pending with ⟨positive, task, entry⟩ | ⟨negative, rep, found⟩
  · refine ⟨{ t with timers := t.timers.erase id }, ?_, rfl, ?_, ?_, fun tr _ => rfl⟩
    · simp [Timers.cancel, not_lt.mpr positive.le, entry]
    · rintro (⟨other, still⟩ | ⟨rep, found⟩)
      · simp at still
      · exact linked.apart found entry rfl
    · intro key action apart
      have other : id ≠ key ∨ t.timers.find? key ≠ some action := by
        by_contra both
        push Not at both
        obtain ⟨rfl, same⟩ := both
        rw [entry] at same
        cases same
        exact apart rfl
      rcases other with apart_key | absent
      · simp [apart_key]
      · simp only [OrderedMap.find?_erase]
        split_ifs <;> simp [absent]
  · have entry := linked.pending found
    refine ⟨{ t with timers := t.timers.erase rep.timerid, timerReps := t.timerReps.erase id },
      ?_, rfl, ?_, ?_, ?_⟩
    · simp [Timers.cancel, negative, found]
    · rintro (⟨other, still⟩ | ⟨record, still⟩)
      · simp only [OrderedMap.find?_erase] at still
        split_ifs at still
        exact linked.apart found still rfl
      · simp at still
    · intro key action apart
      have other : rep.timerid ≠ key ∨ t.timers.find? key ≠ some action := by
        by_contra both
        push Not at both
        obtain ⟨rfl, same⟩ := both
        rw [entry] at same
        cases same
        exact apart rfl
      rcases other with apart_key | absent
      · simp [apart_key]
      · simp only [OrderedMap.find?_erase]
        split_ifs <;> simp [absent]
    · intro tr apart
      simp [Ne.symm apart]

/-- **A cancelled timer never fires again**, and the cancel adds, removes or
re-keys no occurrence of another timer. The configuration may be one in the middle
of a batch, seen by the callback of this timer or of another one. -/
theorem cancelled_timer_never_fires (reached : TimerReachable GivenIds c) (id : TimerId)
    (given : id ∈ c.issued) (pending : c.table.PendingPositive id) :
    ∃ t', c.table.cancel id = .ok (true, t') ∧
      (∀ labels last, LabelledRun (TimerStep GivenIds) { c with table := t' } labels last →
        ∀ key, TimerEvent.fired key id ∉ labels) ∧
      (∀ key action, Timers.owner key action ≠ id →
        (t'.timers.find? key = some action ↔ c.table.timers.find? key = some action)) ∧
      ∀ tr, tr ≠ id → t'.timerReps.find? tr = c.table.timerReps.find? tr := by
  have wired := reached.wired cancelsIssued_givenIds
  obtain ⟨t', cancels, seq, quiet, occurrences, records⟩ := wired.linked.cancel_pending pending
  refine ⟨t', cancels, ?_, occurrences, records⟩
  intro labels last run key member
  have silent : TimerConfig.Silent { c with table := t' } id :=
    ⟨wired.cancel given cancels, by simpa [seq] using wired.issued_le id given, quiet⟩
  exact run.forall_labels (fun state => state.Silent id) (fun label => label ≠ .fired key id)
    (fun _ _ _ silent step => step.silent cancelsIssued_givenIds silent)
    (fun _ _ _ silent step => step.not_fired silent key) silent _ member rfl

theorem cancelled_timer_never_fires_oneRepeating :
    ∃ t', oneRepeating.table.cancel ⟨-5, 1⟩ = .ok (true, t') ∧
      ∀ labels last, LabelledRun (TimerStep GivenIds) { oneRepeating with table := t' } labels last →
        ∀ key, TimerEvent.fired key ⟨-5, 1⟩ ∉ labels := by
  have reached : TimerReachable GivenIds oneRepeating :=
    ⟨0, [.created ⟨-5, 1⟩], .single (.op (show GivenIds _ (.runAt 5 () 10) from trivial) rfl)⟩
  obtain ⟨t', cancels, quiet, -⟩ := cancelled_timer_never_fires reached ⟨-5, 1⟩ (by decide)
    (.inr ⟨by decide, ⟨5, 10, ⟨5, 2⟩, ()⟩, rfl⟩)
  exact ⟨t', cancels, quiet⟩

end Reachable

end Handy
