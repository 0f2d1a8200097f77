import Handy.Timers

/-!
# The two timer maps stay linked

Every record of `timerReps_` has exactly one pending occurrence, under the key
the record stores, and every repeat closure of `timers_` points to a record that
is still there. Sequence numbers only grow, so a key made from a new sequence
number is fresh and no insertion replaces an entry.

`Linked` is this invariant for a table, `Wired` adds what the ids handed out
have to do with it. Both are kept by every step of the timers as long as only
ids that were handed out are cancelled (`TimerReachable.wired`).
-/

set_option autoImplicit false

namespace Handy

namespace Timers

variable {τ : Type} {t t' : Timers τ}

/-! ## Small facts about the operations -/

section RefreshNearest

variable (t)

@[simp] theorem refreshNearest_timers : t.refreshNearest.timers = t.timers := by
  unfold refreshNearest
  split <;> rfl

@[simp] theorem refreshNearest_timerReps : t.refreshNearest.timerReps = t.timerReps := by
  unfold refreshNearest
  split <;> rfl

@[simp] theorem refreshNearest_timerSeq : t.refreshNearest.timerSeq = t.timerSeq := by
  unfold refreshNearest
  split <;> rfl

@[simp] theorem refreshNearest_exit : t.refreshNearest.exit = t.exit := by
  unfold refreshNearest
  split <;> rfl

@[simp] theorem refreshNearest_clock : t.refreshNearest.clock = t.clock := by
  unfold refreshNearest
  split <;> rfl

end RefreshNearest

/-- The entry the loop condition finds is the first one, and its key is below the
bound. -/
theorem due_eq_some {now : ℤ} {key : TimerId} {action : TimerAction τ}
    (next : t.due now = some (key, action)) :
    t.timers.first? = some (key, action) ∧ key < ⟨now, 2 ^ 62⟩ := by
  unfold due at next
  split at next
  · cases next
  · rename_i first least
    split_ifs at next with below
    cases next
    exact ⟨least, below⟩

/-- When nothing is due, every key is at or above the bound. -/
theorem le_of_due_eq_none {now : ℤ} (nothing : t.due now = none) {key : TimerId}
    {action : TimerAction τ} (present : t.timers.find? key = some action) :
    (⟨now, 2 ^ 62⟩ : TimerId) ≤ key := by
  unfold due at nothing
  split at nothing
  · rename_i empty
    have member := OrderedMap.mem_entries_iff.mpr present
    rw [OrderedMap.first?_eq_none.mp empty] at member
    cases member
  · rename_i first value least
    split_ifs at nothing with below
    exact (not_lt.mp below).trans (OrderedMap.first?_le least present)

/-- **What `runAt` does**: nothing after exit; else it adds one occurrence under a
new key and, for a repeating timer, the record the occurrence points to. -/
theorem runAt_cases (t : Timers τ) (milli : ℤ) (task : τ) (interval : ℤ) {id : TimerId}
    (ran : t.runAt milli task interval = (id, t')) :
    (t.exit = true ∧ id = ⟨0, 0⟩ ∧ t' = t) ∨
    (interval ≠ 0 ∧ id = ⟨-milli, t.timerSeq + 1⟩ ∧ t'.timerSeq = t.timerSeq + 2 ∧
      t'.timers = t.timers.set ⟨milli, t.timerSeq + 2⟩ (.repeatable id) ∧
      t'.timerReps = t.timerReps.set id ⟨milli, interval, ⟨milli, t.timerSeq + 2⟩, task⟩) ∨
    (interval = 0 ∧ id = ⟨milli, t.timerSeq + 1⟩ ∧ t'.timerSeq = t.timerSeq + 1 ∧
      t'.timers = t.timers.insert id (.task task) ∧ t'.timerReps = t.timerReps) := by
  unfold runAt at ran
  split_ifs at ran with exited repeating
  · cases ran
    exact .inl ⟨exited, rfl, rfl⟩
  · cases ran
    exact .inr (.inl ⟨repeating, rfl, by simp⟩)
  · cases ran
    exact .inr (.inr ⟨not_not.mp repeating, rfl, by simp⟩)

/-- **What `cancel` does** when it does not fault. -/
theorem cancel_cases {id : TimerId} {removed : Bool} (ran : t.cancel id = .ok (removed, t')) :
    (id.first < 0 ∧ removed = true ∧ ∃ rep, t.timerReps.find? id = some rep ∧
      t' = { t with timers := t.timers.erase rep.timerid, timerReps := t.timerReps.erase id }) ∨
    (0 ≤ id.first ∧ removed = true ∧ (∃ action, t.timers.find? id = some action) ∧
      t' = { t with timers := t.timers.erase id }) ∨
    (0 ≤ id.first ∧ removed = false ∧ t.timers.find? id = none ∧ t' = t) := by
  unfold cancel at ran
  split_ifs at ran with negative found
  · split at ran
    · cases ran
    · rename_i rep found
      cases ran
      exact .inl ⟨negative, rfl, rep, found, rfl⟩
  · cases ran
    exact .inr (.inl ⟨not_lt.mp negative, rfl, Option.isSome_iff_exists.mp found, rfl⟩)
  · cases ran
    exact .inr (.inr ⟨not_lt.mp negative, rfl, by simpa using found, rfl⟩)

/-- **What an iteration of `handleTimeouts` does** when it does not fault: a
one-shot occurrence is erased, a repeating one is moved to its next deadline. -/
theorem fire_cases {key : TimerId} {action : TimerAction τ} {fired : Fired τ}
    (ran : t.fire key action = .ok (fired, t')) :
    (∃ task, action = .task task ∧ fired = ⟨key, key, task⟩ ∧
      t' = { t with timers := t.timers.erase key }) ∨
    (∃ tr rep, action = .repeatable tr ∧ fired = ⟨key, tr, rep.cb⟩ ∧
      t.timerReps.find? tr = some rep ∧ t'.timerSeq = t.timerSeq + 1 ∧
      t'.timers = (t.timers.erase key).set ⟨rep.at_ + rep.interval, t.timerSeq + 1⟩
        (.repeatable tr) ∧
      t'.timerReps = t.timerReps.set tr { rep with
        at_ := rep.at_ + rep.interval
        timerid := ⟨rep.at_ + rep.interval, t.timerSeq + 1⟩ }) := by
  unfold fire at ran
  cases action with
  | task task =>
      cases ran
      exact .inl ⟨task, rfl, rfl, rfl⟩
  | repeatable tr =>
      simp only [repeatableTimeout] at ran
      cases found : t.timerReps.find? tr with
      | none => simp [found] at ran
      | some rep =>
          simp only [found] at ran
          cases ran
          exact .inr ⟨tr, rep, rfl, rfl, found, by simp⟩

/-- What user code does to the maps is a `runAt`, a `cancel`, or nothing. -/
theorem runOp_cases {op : TimerOp τ} {event : TimerEvent} (ran : t.runOp op = .ok (event, t')) :
    (∃ milli task interval id, event = .created id ∧
      t.runAt milli task interval = (id, t') ∧
      (op = .runAt milli task interval ∨ op = .runAfter (milli - t.clock) task interval)) ∨
    (∃ id removed, op = .cancel id ∧ event = .cancelled id removed ∧
      t.cancel id = .ok (removed, t')) ∨
    (∃ milli, op = .elapse milli ∧ event = .elapsed milli ∧
      t' = { t with clock := t.clock + milli }) := by
  cases op with
  | runAt milli task interval =>
      cases ran
      exact .inl ⟨milli, task, interval, _, rfl, rfl, .inl rfl⟩
  | runAfter milli task interval =>
      cases ran
      exact .inl ⟨t.clock + milli, task, interval, _, rfl, rfl, .inr (by simp)⟩
  | cancel id =>
      simp only [runOp] at ran
      split at ran
      · cases ran
      · rename_i removed last cancelled
        cases ran
        exact .inr (.inl ⟨id, removed, rfl, rfl, cancelled⟩)
  | elapse milli =>
      cases ran
      exact .inr (.inr ⟨milli, rfl, rfl, rfl⟩)

/-! ## The invariant -/

/-- Every repeating timer has one pending occurrence and every repeat closure a
record; sequence numbers in use have been handed out. -/
structure Linked (t : Timers τ) : Prop where
  pending : ∀ {tr : TimerId} {rep : TimerRepeatable τ}, t.timerReps.find? tr = some rep →
    t.timers.find? rep.timerid = some (.repeatable tr)
  unique : ∀ {tr : TimerId} {rep : TimerRepeatable τ} {key : TimerId},
    t.timerReps.find? tr = some rep → t.timers.find? key = some (.repeatable tr) →
      key = rep.timerid
  present : ∀ {key tr : TimerId}, t.timers.find? key = some (.repeatable tr) →
    ∃ rep, t.timerReps.find? tr = some rep
  keys_le : ∀ {key : TimerId} {action : TimerAction τ}, t.timers.find? key = some action →
    1 ≤ key.second ∧ key.second ≤ t.timerSeq
  ids_le : ∀ {tr : TimerId} {rep : TimerRepeatable τ}, t.timerReps.find? tr = some rep →
    tr.second ≤ t.timerSeq
  apart : ∀ {tr key : TimerId} {rep : TimerRepeatable τ} {action : TimerAction τ},
    t.timerReps.find? tr = some rep → t.timers.find? key = some action →
      key.second ≠ tr.second

namespace Linked

theorem init (clock : ℤ) : (Timers.init clock : Timers τ).Linked where
  pending found := by cases found
  unique found := by cases found
  present found := by cases found
  keys_le found := by cases found
  ids_le found := by cases found
  apart found := by cases found

/-- A key with a new sequence number has no entry. -/
theorem fresh_key (linked : t.Linked) {key : TimerId} (new : t.timerSeq < key.second) :
    t.timers.find? key = none := by
  cases found : t.timers.find? key with
  | none => rfl
  | some action => exact absurd (linked.keys_le found).2 (not_le.mpr new)

theorem fresh_id (linked : t.Linked) {tr : TimerId} (new : t.timerSeq < tr.second) :
    t.timerReps.find? tr = none := by
  cases found : t.timerReps.find? tr with
  | none => rfl
  | some rep => exact absurd (linked.ids_le found) (not_le.mpr new)

/-- The invariant does not see the fields outside the two maps. -/
theorem of_maps (linked : t.Linked) (timers : t'.timers = t.timers)
    (reps : t'.timerReps = t.timerReps) (seq : t.timerSeq ≤ t'.timerSeq) : t'.Linked where
  pending found := by
    rw [reps] at found
    rw [timers]
    exact linked.pending found
  unique found entry := by
    rw [reps] at found
    rw [timers] at entry
    exact linked.unique found entry
  present entry := by
    rw [timers] at entry
    rw [reps]
    exact linked.present entry
  keys_le found := by
    rw [timers] at found
    obtain ⟨positive, bounded⟩ := linked.keys_le found
    exact ⟨positive, bounded.trans seq⟩
  ids_le found := by
    rw [reps] at found
    exact (linked.ids_le found).trans seq
  apart found entry := by
    rw [reps] at found
    rw [timers] at entry
    exact linked.apart found entry

/-- A one-shot occurrence under a new key keeps the maps linked. -/
theorem add_task (linked : t.Linked) (key : TimerId) (task : τ)
    (new : key.second = t.timerSeq + 1) (timers : t'.timers = t.timers.set key (.task task))
    (reps : t'.timerReps = t.timerReps) (seq : t'.timerSeq = t.timerSeq + 1) : t'.Linked := by
  have fresh : t.timers.find? key = none := linked.fresh_key (by omega)
  refine ⟨?_, ?_, ?_, ?_, ?_, ?_⟩
  · intro tr rep found
    rw [reps] at found
    have entry := linked.pending found
    have apart : key ≠ rep.timerid := by
      intro same
      rw [same, entry] at fresh
      cases fresh
    rw [timers, OrderedMap.find?_set, if_neg apart]
    exact entry
  · intro tr rep other found entry
    rw [reps] at found
    rw [timers, OrderedMap.find?_set] at entry
    split_ifs at entry with same
    · cases entry
    · exact linked.unique found entry
  · intro other tr entry
    rw [timers, OrderedMap.find?_set] at entry
    rw [reps]
    split_ifs at entry with same
    · cases entry
    · exact linked.present entry
  · intro other action entry
    rw [timers, OrderedMap.find?_set] at entry
    split_ifs at entry with same
    · subst same
      omega
    · have := linked.keys_le entry
      omega
  · intro tr rep found
    rw [reps] at found
    have := linked.ids_le found
    omega
  · intro tr other rep action found entry
    rw [reps] at found
    rw [timers, OrderedMap.find?_set] at entry
    split_ifs at entry with same
    · subst same
      have := linked.ids_le found
      omega
    · exact linked.apart found entry

/-- A record stored together with its one occurrence, under a key with a new
sequence number, keeps the maps linked. The record's id is new, or it is the id
of a record whose occurrence has just been taken. -/
theorem add_repeatable (linked : t.Linked) (seq : ℕ) (tr : TimerId) (rep : TimerRepeatable τ)
    (none_pending : ∀ key, t.timers.find? key ≠ some (.repeatable tr))
    (newer : t.timerSeq < rep.timerid.second) (key_le : rep.timerid.second ≤ seq)
    (id_lt : tr.second < rep.timerid.second)
    (id_apart : ∀ key action, t.timers.find? key = some action → key.second ≠ tr.second)
    (timers : t'.timers = t.timers.set rep.timerid (.repeatable tr))
    (reps : t'.timerReps = t.timerReps.set tr rep) (counter : t'.timerSeq = seq) : t'.Linked := by
  have fresh : t.timers.find? rep.timerid = none := linked.fresh_key newer
  refine ⟨?_, ?_, ?_, ?_, ?_, ?_⟩
  · intro other record found
    rw [reps, OrderedMap.find?_set] at found
    rw [timers, OrderedMap.find?_set]
    split_ifs at found with same
    · cases found
      rw [if_pos rfl, same]
    · have entry := linked.pending found
      have apart : rep.timerid ≠ record.timerid := by
        intro equal
        rw [equal, entry] at fresh
        cases fresh
      rw [if_neg apart]
      exact entry
  · intro other record key found entry
    rw [reps, OrderedMap.find?_set] at found
    rw [timers, OrderedMap.find?_set] at entry
    split_ifs at found with same
    · cases found
      split_ifs at entry with here
      · exact here.symm
      · subst same
        exact absurd entry (none_pending key)
    · split_ifs at entry with here
      · cases entry
        exact absurd rfl same
      · exact linked.unique found entry
  · intro key other entry
    rw [timers, OrderedMap.find?_set] at entry
    rw [reps, OrderedMap.find?_set]
    split_ifs at entry with here
    · cases entry
      exact ⟨rep, if_pos rfl⟩
    · split_ifs
      · exact ⟨rep, rfl⟩
      · exact linked.present entry
  · intro key action entry
    rw [timers, OrderedMap.find?_set] at entry
    split_ifs at entry with here
    · subst here
      omega
    · have := linked.keys_le entry
      omega
  · intro other record found
    rw [reps, OrderedMap.find?_set] at found
    split_ifs at found with same
    · subst same
      omega
    · have := linked.ids_le found
      omega
  · intro other key record action found entry
    rw [reps, OrderedMap.find?_set] at found
    rw [timers, OrderedMap.find?_set] at entry
    split_ifs at found with same <;> split_ifs at entry with here
    · subst same here
      omega
    · subst same
      exact id_apart key action entry
    · subst here
      have := linked.ids_le found
      omega
    · exact linked.apart found entry

/-- Erasing a one-shot occurrence keeps the maps linked. -/
theorem erase_task (linked : t.Linked) {key : TimerId} {task : τ}
    (entry : t.timers.find? key = some (.task task)) :
    ({ t with timers := t.timers.erase key } : Timers τ).Linked := by
  refine ⟨?_, ?_, ?_, ?_, linked.ids_le, ?_⟩
  · intro tr rep found
    have pending := linked.pending found
    have apart : key ≠ rep.timerid := by
      intro same
      rw [same, pending] at entry
      cases entry
    simpa [apart] using pending
  · intro tr rep other found other_entry
    simp only [OrderedMap.find?_erase] at other_entry
    split_ifs at other_entry
    exact linked.unique found other_entry
  · intro other tr other_entry
    simp only [OrderedMap.find?_erase] at other_entry
    split_ifs at other_entry
    exact linked.present other_entry
  · intro other action other_entry
    simp only [OrderedMap.find?_erase] at other_entry
    split_ifs at other_entry
    exact linked.keys_le other_entry
  · intro tr other rep action found other_entry
    simp only [OrderedMap.find?_erase] at other_entry
    split_ifs at other_entry
    exact linked.apart found other_entry

/-- Erasing a record and its occurrence keeps the maps linked. -/
theorem erase_repeatable (linked : t.Linked) {tr : TimerId} {rep : TimerRepeatable τ}
    (found : t.timerReps.find? tr = some rep) :
    ({ t with timers := t.timers.erase rep.timerid, timerReps := t.timerReps.erase tr } :
      Timers τ).Linked := by
  have entry := linked.pending found
  refine ⟨?_, ?_, ?_, ?_, ?_, ?_⟩
  · intro other record other_found
    simp only [OrderedMap.find?_erase] at other_found ⊢
    split_ifs at other_found with same
    have pending := linked.pending other_found
    have apart : rep.timerid ≠ record.timerid := by
      intro equal
      rw [← equal, entry] at pending
      cases pending
      exact same rfl
    rw [if_neg apart]
    exact pending
  · intro other record key other_found other_entry
    simp only [OrderedMap.find?_erase] at other_found other_entry
    split_ifs at other_found
    split_ifs at other_entry
    exact linked.unique other_found other_entry
  · intro key other other_entry
    simp only [OrderedMap.find?_erase] at other_entry ⊢
    split_ifs at other_entry with here
    have apart : tr ≠ other := by
      intro same
      subst same
      exact here (linked.unique found other_entry).symm
    rw [if_neg apart]
    exact linked.present other_entry
  · intro key action other_entry
    simp only [OrderedMap.find?_erase] at other_entry
    split_ifs at other_entry
    exact linked.keys_le other_entry
  · intro other record other_found
    simp only [OrderedMap.find?_erase] at other_found
    split_ifs at other_found
    exact linked.ids_le other_found
  · intro other key record action other_found other_entry
    simp only [OrderedMap.find?_erase] at other_found other_entry
    split_ifs at other_found
    split_ifs at other_entry
    exact linked.apart other_found other_entry

/-! ## The operations keep the invariant -/

theorem runAt (linked : t.Linked) {milli : ℤ} {task : τ} {interval : ℤ} {id : TimerId}
    (ran : t.runAt milli task interval = (id, t')) : t'.Linked := by
  rcases runAt_cases t milli task interval ran with ⟨-, -, rfl⟩ | ⟨-, rfl, seq, timers, reps⟩ |
    ⟨-, rfl, seq, timers, reps⟩
  · exact linked
  · refine linked.add_repeatable (t.timerSeq + 2) _ _ ?_ ?_ ?_ ?_ ?_ timers reps seq
    · intro key entry
      obtain ⟨rep, found⟩ := linked.present entry
      have := linked.ids_le found
      simp at this
    · simp
    · simp
    · simp
    · intro key action entry
      have := linked.keys_le entry
      simp only
      omega
  · have fresh : t.timers.find? ⟨milli, t.timerSeq + 1⟩ = none := linked.fresh_key (by simp)
    rw [OrderedMap.insert_of_fresh fresh] at timers
    exact linked.add_task _ task rfl timers reps seq

/-- Cancelling keeps the maps linked when the id is not the key of a repeating
timer's occurrence. -/
theorem cancel (linked : t.Linked) {id : TimerId} {removed : Bool}
    (outer : ∀ tr, t.timers.find? id ≠ some (.repeatable tr))
    (ran : t.cancel id = .ok (removed, t')) : t'.Linked := by
  rcases cancel_cases ran with ⟨-, -, rep, found, rfl⟩ | ⟨-, -, ⟨action, found⟩, rfl⟩ |
    ⟨-, -, -, rfl⟩
  · exact linked.erase_repeatable found
  · cases action with
    | task task => exact linked.erase_task found
    | repeatable tr => exact absurd found (outer tr)
  · exact linked

theorem fire (linked : t.Linked) {key : TimerId} {action : TimerAction τ} {fired : Fired τ}
    (entry : t.timers.find? key = some action) (ran : t.fire key action = .ok (fired, t')) :
    t'.Linked := by
  rcases fire_cases ran with ⟨task, rfl, -, rfl⟩ | ⟨tr, rep, rfl, -, found, seq, timers, reps⟩
  · exact linked.erase_task entry
  · -- The record and its occurrence are taken out and put back under a new key.
    have out := linked.erase_repeatable found
    have same : key = rep.timerid := linked.unique found entry
    subst same
    have id_le := linked.ids_le found
    refine out.add_repeatable (t.timerSeq + 1) tr { rep with
      at_ := rep.at_ + rep.interval
      timerid := ⟨rep.at_ + rep.interval, t.timerSeq + 1⟩ } ?_ ?_ ?_ ?_ ?_ timers ?_ seq
    · intro other pending
      obtain ⟨record, present⟩ := out.present pending
      simp at present
    · simp
    · simp
    · simp only
      omega
    · intro other action pending
      simp only [OrderedMap.find?_erase] at pending
      split_ifs at pending
      exact linked.apart found pending
    · rw [reps]
      exact OrderedMap.set_erase_self.symm

/-- A linked table never faults when an occurrence is fired. -/
theorem fire_ok (linked : t.Linked) {key : TimerId} {action : TimerAction τ}
    (entry : t.timers.find? key = some action) :
    ∃ fired t', t.fire key action = .ok (fired, t') := by
  cases action with
  | task task => exact ⟨_, _, rfl⟩
  | repeatable tr =>
      obtain ⟨rep, found⟩ := linked.present entry
      simp [Timers.fire, repeatableTimeout, found]

end Linked

end Timers

end Handy
