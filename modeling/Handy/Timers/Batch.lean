import Handy.Timers.Runs

/-!
# One call of `handleTimeouts`

The loop removes entries from the map it scans, puts repeating timers back
before their callback runs, and lets callbacks add and cancel timers. What makes
it finish, and what it runs, is described per timer: `expected t now id` is the
list of deadlines up to `now` at which the timer is still to run. Taking the
first due entry removes the head of that list for its own timer and leaves the
lists of all others alone (`Regular.fire_expected`); a callback that adds timers
due later leaves every list alone, and one that cancels a timer empties its list
(`Regular.runOps_spec`).

The total length of these lists bounds the number of iterations, and the order of
the map gives the order of the firings (`handleTimeouts_complete`).

The bound `{now, 1L << 62}` of the loop condition stands for the end of the
deadline `now`. It is one as long as sequence numbers are below `2 ^ 62`, which
no run of a machine leaves behind: one call of `runAt` uses up one number. The
counts below are stated up to that point.
-/

set_option autoImplicit false

namespace Handy

/-! ## Observing a trace -/

/-- The deadlines at which a timer ran. -/
def runsOf (id : TimerId) (trace : List TimerEvent) : List ℤ :=
  trace.filterMap fun
    | .fired key timer => if timer = id then some key.first else none
    | _ => none

/-- The keys taken from `timers_`, in order. -/
def firedKeys (trace : List TimerEvent) : List TimerId :=
  trace.filterMap fun
    | .fired key _ => some key
    | _ => none

@[simp] theorem runsOf_nil (id : TimerId) : runsOf id [] = [] := rfl

@[simp] theorem runsOf_append (id : TimerId) (first second : List TimerEvent) :
    runsOf id (first ++ second) = runsOf id first ++ runsOf id second :=
  List.filterMap_append

@[simp] theorem firedKeys_append (first second : List TimerEvent) :
    firedKeys (first ++ second) = firedKeys first ++ firedKeys second :=
  List.filterMap_append

theorem runsOf_fired (id key timer : TimerId) (trace : List TimerEvent) :
    runsOf id (.fired key timer :: trace) =
      if timer = id then key.first :: runsOf id trace else runsOf id trace := by
  unfold runsOf
  split_ifs with same <;> simp [same]

@[simp] theorem firedKeys_fired (key timer : TimerId) (trace : List TimerEvent) :
    firedKeys (.fired key timer :: trace) = key :: firedKeys trace := rfl

/-- The trace of user code: nothing in it fires. -/
def Passive (trace : List TimerEvent) : Prop := ∀ key timer, TimerEvent.fired key timer ∉ trace

theorem Passive.runsOf {trace : List TimerEvent} (passive : Passive trace) (id : TimerId) :
    runsOf id trace = [] := by
  refine List.filterMap_eq_nil_iff.mpr fun event member => ?_
  cases event with
  | fired key timer => exact absurd member (passive key timer)
  | _ => rfl

theorem Passive.firedKeys {trace : List TimerEvent} (passive : Passive trace) :
    firedKeys trace = [] := by
  refine List.filterMap_eq_nil_iff.mpr fun event member => ?_
  cases event with
  | fired key timer => exact absurd member (passive key timer)
  | _ => rfl

/-! ## The deadlines still to run -/

/-- The deadlines up to `now` of a timer first due at `a` and then every `i`:
`(now - a) / i + 1` of them when `a ≤ now`. -/
def occurrences (a i now : ℤ) : List ℤ :=
  (List.range ((now - a) / i + 1).toNat).map fun n : ℕ => a + n * i

theorem occurrences_cons {a i now : ℤ} (positive : 0 < i) (due : a ≤ now) :
    occurrences a i now = a :: occurrences (a + i) i now := by
  have step : (now - a) / i + 1 = (now - (a + i)) / i + 1 + 1 := by
    have : now - a = now - (a + i) + i := by ring
    rw [this, Int.add_ediv_of_dvd_right (dvd_refl i), Int.ediv_self positive.ne']
  have nonneg : 0 ≤ (now - (a + i)) / i + 1 := by
    have : 0 ≤ (now - a) / i := Int.ediv_nonneg (by omega) positive.le
    omega
  unfold occurrences
  rw [step, Int.toNat_add nonneg (by decide), show (1 : ℤ).toNat = 1 from rfl,
    List.range_succ_eq_map]
  simp only [List.map_cons, List.map_map, Nat.cast_zero, zero_mul, add_zero, List.cons.injEq,
    true_and]
  refine List.map_congr_left fun n _ => ?_
  simp only [Function.comp_apply, Nat.succ_eq_add_one]
  push_cast
  ring

theorem occurrences_eq_nil {a i now : ℤ} (positive : 0 < i) (later : now < a) :
    occurrences a i now = [] := by
  have : (now - a) / i < 0 := Int.ediv_neg_of_neg_of_pos (by omega) positive
  have : ((now - a) / i + 1).toNat = 0 := by omega
  simp [occurrences, this]

namespace Timers

variable {τ : Type} {t t' : Timers τ} {now : ℤ}

/-- The deadlines up to `now` at which a timer of the table is to run. -/
def expected (t : Timers τ) (now : ℤ) (id : TimerId) : List ℤ :=
  match t.timerReps.find? id with
  | some rep => occurrences rep.timerid.first rep.interval now
  | none =>
      match t.timers.find? id with
      | some (.task _) => if id.first ≤ now then [id.first] else []
      | _ => []

/-- The tables agree about a timer when they have the same record and the same
one-shot occurrence for its id. -/
theorem expected_congr {id : TimerId}
    (reps : t'.timerReps.find? id = t.timerReps.find? id)
    (tasks : ∀ task, t'.timers.find? id = some (.task task) ↔
      t.timers.find? id = some (.task task)) :
    t'.expected now id = t.expected now id := by
  unfold expected
  rw [reps]
  cases t.timerReps.find? id with
  | some rep => rfl
  | none =>
      cases entry : t.timers.find? id with
      | none =>
          cases entry' : t'.timers.find? id with
          | none => rfl
          | some action =>
              cases action with
              | task task => simp [(tasks task).mp entry'] at entry
              | repeatable tr => rfl
      | some action =>
          cases action with
          | task task => simp [(tasks task).mpr entry]
          | repeatable tr =>
              cases entry' : t'.timers.find? id with
              | none => rfl
              | some action' =>
                  cases action' with
                  | task task => simp [(tasks task).mp entry'] at entry
                  | repeatable tr' => rfl

/-- A linked table whose timers have positive times and whose repeating timers
have positive intervals. -/
structure Regular (t : Timers τ) : Prop extends t.Linked where
  at_eq : ∀ {tr : TimerId} {rep : TimerRepeatable τ}, t.timerReps.find? tr = some rep →
    rep.at_ = rep.timerid.first
  interval_pos : ∀ {tr : TimerId} {rep : TimerRepeatable τ}, t.timerReps.find? tr = some rep →
    0 < rep.interval
  key_pos : ∀ {key : TimerId} {action : TimerAction τ}, t.timers.find? key = some action →
    0 < key.first
  id_neg : ∀ {tr : TimerId} {rep : TimerRepeatable τ}, t.timerReps.find? tr = some rep →
    tr.first < 0

namespace Regular

theorem runAt (regular : t.Regular) {milli : ℤ} {task : τ} {interval : ℤ} {id : TimerId}
    (positive : 0 < milli) (nonneg : 0 ≤ interval)
    (ran : t.runAt milli task interval = (id, t')) : t'.Regular := by
  have linked := regular.toLinked.runAt ran
  rcases runAt_cases t milli task interval ran with ⟨-, -, rfl⟩ | ⟨repeating, rfl, -, timers, reps⟩ |
    ⟨-, rfl, -, timers, reps⟩
  · exact regular
  · refine ⟨linked, ?_, ?_, ?_, ?_⟩
    · intro tr rep found
      rw [reps, OrderedMap.find?_set] at found
      split_ifs at found
      · cases found
        rfl
      · exact regular.at_eq found
    · intro tr rep found
      rw [reps, OrderedMap.find?_set] at found
      split_ifs at found
      · cases found
        exact lt_of_le_of_ne nonneg (Ne.symm repeating)
      · exact regular.interval_pos found
    · intro key action entry
      rw [timers, OrderedMap.find?_set] at entry
      split_ifs at entry with same
      · subst same
        exact positive
      · exact regular.key_pos entry
    · intro tr rep found
      rw [reps, OrderedMap.find?_set] at found
      split_ifs at found with same
      · subst same
        simpa using positive
      · exact regular.id_neg found
  · have fresh : t.timers.find? ⟨milli, t.timerSeq + 1⟩ = none := regular.fresh_key (by simp)
    rw [OrderedMap.insert_of_fresh fresh] at timers
    refine ⟨linked, ?_, ?_, ?_, ?_⟩
    · intro tr rep found
      exact regular.at_eq (reps ▸ found)
    · intro tr rep found
      exact regular.interval_pos (reps ▸ found)
    · intro key action entry
      rw [timers, OrderedMap.find?_set] at entry
      split_ifs at entry with same
      · subst same
        exact positive
      · exact regular.key_pos entry
    · intro tr rep found
      exact regular.id_neg (reps ▸ found)

/-- A pending timer is cancelled through its own map. -/
theorem pendingPositive (regular : t.Regular) {id : TimerId} (pending : t.Pending id) :
    t.PendingPositive id := by
  rcases pending with ⟨task, entry⟩ | ⟨rep, found⟩
  · exact .inl ⟨regular.key_pos entry, task, entry⟩
  · exact .inr ⟨regular.id_neg found, rep, found⟩

/-- The facts about single entries hold of any table with fewer entries. -/
theorem of_fewer (regular : t.Regular) (linked : t'.Linked)
    (timers : ∀ key action, t'.timers.find? key = some action → t.timers.find? key = some action)
    (reps : ∀ tr rep, t'.timerReps.find? tr = some rep → t.timerReps.find? tr = some rep) :
    t'.Regular where
  toLinked := linked
  at_eq found := regular.at_eq (reps _ _ found)
  interval_pos found := regular.interval_pos (reps _ _ found)
  key_pos entry := regular.key_pos (timers _ _ entry)
  id_neg found := regular.id_neg (reps _ _ found)

theorem cancel (regular : t.Regular) {id : TimerId} {removed : Bool} (pending : t.Pending id)
    (ran : t.cancel id = .ok (removed, t')) : t'.Regular := by
  have outer : ∀ tr, t.timers.find? id ≠ some (.repeatable tr) := by
    intro tr entry
    rcases pending with ⟨task, other⟩ | ⟨rep, found⟩
    · rw [entry] at other
      cases other
    · exact regular.apart found entry rfl
  have linked := regular.toLinked.cancel outer ran
  rcases cancel_cases ran with ⟨-, -, rep, -, rfl⟩ | ⟨-, -, -, rfl⟩ | ⟨-, -, -, rfl⟩
  · refine regular.of_fewer linked ?_ ?_
    · intro key action entry
      simp only [OrderedMap.find?_erase] at entry
      split_ifs at entry
      exact entry
    · intro tr record found
      simp only [OrderedMap.find?_erase] at found
      split_ifs at found
      exact found
  · refine regular.of_fewer linked ?_ fun tr rep found => found
    intro key action entry
    simp only [OrderedMap.find?_erase] at entry
    split_ifs at entry
    exact entry
  · exact regular

theorem fire (regular : t.Regular) {key : TimerId} {action : TimerAction τ} {fired : Fired τ}
    (entry : t.timers.find? key = some action) (ran : t.fire key action = .ok (fired, t')) :
    t'.Regular := by
  have linked := regular.toLinked.fire entry ran
  rcases fire_cases ran with ⟨task, -, -, rfl⟩ | ⟨tr, rep, rfl, -, found, -, timers, reps⟩
  · refine regular.of_fewer linked ?_ fun tr rep found => found
    intro other value other_entry
    simp only [OrderedMap.find?_erase] at other_entry
    split_ifs at other_entry
    exact other_entry
  · have at_eq := regular.at_eq found
    have interval_pos := regular.interval_pos found
    have key_pos := regular.key_pos (regular.pending found)
    refine ⟨linked, ?_, ?_, ?_, ?_⟩
    · intro other record other_found
      rw [reps, OrderedMap.find?_set] at other_found
      split_ifs at other_found
      · cases other_found
        rfl
      · exact regular.at_eq other_found
    · intro other record other_found
      rw [reps, OrderedMap.find?_set] at other_found
      split_ifs at other_found
      · cases other_found
        exact interval_pos
      · exact regular.interval_pos other_found
    · intro other value other_entry
      rw [timers, OrderedMap.find?_set] at other_entry
      split_ifs at other_entry with same
      · subst same
        simp only
        omega
      · simp only [OrderedMap.find?_erase] at other_entry
        split_ifs at other_entry
        exact regular.key_pos other_entry
    · intro other record other_found
      rw [reps, OrderedMap.find?_set] at other_found
      split_ifs at other_found with same
      · exact same ▸ regular.id_neg found
      · exact regular.id_neg other_found

/-! ### Taking the first due entry -/

/-- Two occurrences of one timer are the same occurrence. -/
theorem owner_injective (regular : t.Regular) {key other : TimerId} {action value : TimerAction τ}
    (entry : t.timers.find? key = some action) (other_entry : t.timers.find? other = some value)
    (same : owner key action = owner other value) : key = other := by
  cases action with
  | task task =>
      cases value with
      | task _ => exact same
      | repeatable tr =>
          obtain ⟨rep, found⟩ := regular.present other_entry
          cases (show key = tr from same)
          exact absurd rfl (regular.apart found entry)
  | repeatable tr =>
      obtain ⟨rep, found⟩ := regular.present entry
      cases value with
      | task _ =>
          cases (show tr = other from same)
          exact absurd rfl (regular.apart found other_entry)
      | repeatable tr' =>
          cases (show tr = tr' from same)
          rw [regular.unique found entry, regular.unique found other_entry]

theorem expected_task (regular : t.Regular) (now : ℤ) {key : TimerId} {task : τ}
    (entry : t.timers.find? key = some (.task task)) :
    t.expected now key = if key.first ≤ now then [key.first] else [] := by
  have missing : t.timerReps.find? key = none := by
    cases found : t.timerReps.find? key with
    | none => rfl
    | some rep => exact absurd rfl (regular.apart found entry)
  simp [expected, missing, entry]

/-- **Taking a due entry runs the first expected deadline of its timer** and leaves
the other timers as they were. -/
theorem fire_expected (regular : t.Regular) {key : TimerId} {action : TimerAction τ}
    {fired : Fired τ} (entry : t.timers.find? key = some action) (due : key.first ≤ now)
    (ran : t.fire key action = .ok (fired, t')) :
    t.expected now fired.timer = key.first :: t'.expected now fired.timer ∧
      ∀ id, id ≠ fired.timer → t'.expected now id = t.expected now id := by
  rcases fire_cases ran with ⟨task, rfl, rfl, rfl⟩ | ⟨tr, rep, rfl, rfl, found, -, timers, reps⟩
  · have missing : t.timerReps.find? key = none := by
      cases found : t.timerReps.find? key with
      | none => rfl
      | some rep => exact absurd rfl (regular.apart found entry)
    constructor
    · rw [regular.expected_task now entry, if_pos due]
      simp [expected, missing]
    · intro id apart
      exact expected_congr rfl fun other => by simp [Ne.symm apart]
  · have key_eq := regular.unique found entry
    have at_eq := regular.at_eq found
    have fresh : t.timers.find? ⟨rep.at_ + rep.interval, t.timerSeq + 1⟩ = none :=
      regular.fresh_key (by simp)
    constructor
    · have before : t.expected now tr = occurrences rep.timerid.first rep.interval now := by
        simp [expected, found]
      have after : t'.expected now tr =
          occurrences (rep.at_ + rep.interval) rep.interval now := by
        simp [expected, reps]
      rw [before, after, at_eq, ← key_eq]
      exact occurrences_cons (regular.interval_pos found) due
    · intro id apart
      refine expected_congr ?_ fun task => ?_
      · rw [reps, OrderedMap.find?_set, if_neg (Ne.symm apart)]
      · rw [timers, OrderedMap.find?_set, OrderedMap.find?_erase]
        split_ifs with new old
        · subst new
          simp [fresh]
        · subst old
          simp [entry]
        · rfl

end Regular

/-- The number of occurrences still to run. -/
def weight (t : Timers τ) (now : ℤ) : ℕ :=
  (t.timers.entries.map fun entry => (t.expected now (owner entry.1 entry.2)).length).sum

/-- The weight counted over any arrangement of the entries. -/
theorem weight_eq_of_perm (now : ℤ) {entries : List (TimerId × TimerAction τ)}
    (perm : t.timers.entries.Perm entries) :
    t.weight now =
      (entries.map fun entry => (t.expected now (owner entry.1 entry.2)).length).sum :=
  (perm.map _).sum_eq

namespace Regular

theorem fire_weight (regular : t.Regular) {key : TimerId} {action : TimerAction τ}
    {fired : Fired τ} (entry : t.timers.find? key = some action) (due : key.first ≤ now)
    (ran : t.fire key action = .ok (fired, t')) : t'.weight now + 1 = t.weight now := by
  obtain ⟨head, others⟩ := regular.fire_expected entry due ran
  have own : owner key action = fired.timer := by
    rcases fire_cases ran with ⟨task, rfl, rfl, -⟩ | ⟨tr, rep, rfl, rfl, -⟩ <;> rfl
  -- The entries other than the one taken belong to other timers.
  have rest : ((t.timers.erase key).entries.map fun entry =>
        (t'.expected now (owner entry.1 entry.2)).length) =
      (t.timers.erase key).entries.map fun entry =>
        (t.expected now (owner entry.1 entry.2)).length := by
    refine List.map_congr_left ?_
    rintro ⟨other, value⟩ member
    have found := OrderedMap.mem_entries_iff.mp member
    rw [OrderedMap.find?_erase] at found
    split_ifs at found with same
    rw [others]
    intro equal
    exact same (regular.owner_injective entry found (own.trans equal.symm))
  have before := weight_eq_of_perm now (OrderedMap.entries_erase_perm entry)
  rw [before, List.map_cons, List.sum_cons, own, head, List.length_cons]
  rcases fire_cases ran with ⟨task, rfl, rfl, rfl⟩ | ⟨tr, rep, rfl, rfl, found, -, timers, -⟩
  · have gone : expected { t with timers := t.timers.erase key } now key = [] := by
      have := regular.expected_task now entry
      rw [if_pos due] at this
      rw [this] at head
      simpa using head
    rw [gone, List.length_nil, ← rest]
    simp only [weight]
    omega
  · have fresh : (t.timers.erase key).find? ⟨rep.at_ + rep.interval, t.timerSeq + 1⟩ = none := by
      rw [OrderedMap.find?_erase, regular.fresh_key (by simp), ite_self]
    have after : t'.timers.entries.Perm (_ :: (t.timers.erase key).entries) :=
      timers ▸ OrderedMap.entries_set_perm fresh _
    rw [weight_eq_of_perm now after, List.map_cons, List.sum_cons, rest]
    simp only [owner]
    omega

end Regular

/-! ### Callbacks -/

/-- What a callback may do while a batch is handled at clock value `now`: add
timers due later, cancel pending timers, and take time. -/
def DuringBatch (now : ℤ) (t : Timers τ) : TimerOp τ → Prop
  | .runAt milli _ interval => now < milli ∧ 0 ≤ interval
  | .runAfter milli _ interval => now < t.clock + milli ∧ 0 ≤ interval
  | .cancel id => t.Pending id
  | .elapse _ => True

/-- Every operation of the list is permitted in the table it is performed on. -/
def OpsDuringBatch (now : ℤ) : Timers τ → List (TimerOp τ) → Prop
  | _, [] => True
  | t, op :: rest => t.DuringBatch now op ∧
      ∀ event t', t.runOp op = .ok (event, t') → OpsDuringBatch now t' rest

/-- What the events of a callback did to the table: the expectations of cancelled
timers are gone, those of all others unchanged, and new keys are due later. -/
structure CallbackEffect (now : ℤ) (events : List TimerEvent) (t t' : Timers τ) : Prop where
  regular : t'.Regular
  weight_le : t'.weight now ≤ t.weight now
  passive : Passive events
  kept : ∀ id, .cancelled id true ∉ events → t'.expected now id = t.expected now id
  emptied : ∀ id, .cancelled id true ∈ events → t'.expected now id = []
  keys : ∀ key action, t'.timers.find? key = some action →
    t.timers.find? key = some action ∨ now < key.first

theorem CallbackEffect.refl (regular : t.Regular) : CallbackEffect now [] t t where
  regular := regular
  weight_le := le_rfl
  passive := fun key timer member => by cases member
  kept := fun id _ => rfl
  emptied := fun id member => by cases member
  keys := fun key action entry => .inl entry

theorem CallbackEffect.cons {t₁ t₂ : Timers τ} {event : TimerEvent} {events : List TimerEvent}
    (first : CallbackEffect now [event] t t₁) (rest : CallbackEffect now events t₁ t₂) :
    CallbackEffect now (event :: events) t t₂ where
  regular := rest.regular
  weight_le := rest.weight_le.trans first.weight_le
  passive key timer member := by
    rcases List.mem_cons.mp member with same | later
    · exact first.passive key timer (List.mem_singleton.mpr same)
    · exact rest.passive key timer later
  kept id untouched := by
    rw [rest.kept id fun member => untouched (List.mem_cons_of_mem _ member)]
    refine first.kept id fun member => untouched ?_
    rw [List.mem_singleton.mp member]
    exact List.mem_cons_self ..
  emptied id cancelled := by
    by_cases later : .cancelled id true ∈ events
    · exact rest.emptied id later
    · rw [rest.kept id later]
      rcases List.mem_cons.mp cancelled with same | again
      · exact first.emptied id (List.mem_singleton.mpr same)
      · exact absurd again later
  keys key action entry := by
    rcases rest.keys key action entry with before | new
    · exact first.keys key action before
    · exact .inr new

namespace Regular

/-- A timer added with a deadline after `now` is not expected to run. -/
theorem runAt_expected (regular : t.Regular) {milli : ℤ} {task : τ} {interval : ℤ} {id : TimerId}
    (later : now < milli) (nonneg : 0 ≤ interval)
    (ran : t.runAt milli task interval = (id, t')) (other : TimerId) :
    t'.expected now other = t.expected now other := by
  rcases runAt_cases t milli task interval ran with ⟨-, -, rfl⟩ | ⟨repeating, rfl, -, timers, reps⟩ |
    ⟨-, rfl, -, timers, reps⟩
  · rfl
  · have fresh : t.timers.find? ⟨milli, t.timerSeq + 2⟩ = none := regular.fresh_key (by simp)
    by_cases same : other = ⟨-milli, t.timerSeq + 1⟩
    · subst same
      have after : t'.expected now ⟨-milli, t.timerSeq + 1⟩ = occurrences milli interval now := by
        simp [expected, reps]
      have before : t.expected now ⟨-milli, t.timerSeq + 1⟩ = [] := by
        simp [expected, regular.fresh_id, regular.fresh_key]
      rw [after, before]
      exact occurrences_eq_nil (lt_of_le_of_ne nonneg (Ne.symm repeating)) later
    · refine expected_congr ?_ fun found => ?_
      · rw [reps, OrderedMap.find?_set, if_neg (Ne.symm same)]
      · rw [timers, OrderedMap.find?_set]
        split_ifs with here
        · subst here
          simp [fresh]
        · rfl
  · have fresh : t.timers.find? ⟨milli, t.timerSeq + 1⟩ = none := regular.fresh_key (by simp)
    rw [OrderedMap.insert_of_fresh fresh] at timers
    by_cases same : other = ⟨milli, t.timerSeq + 1⟩
    · subst same
      simp [expected, reps, timers, fresh, regular.fresh_id, not_le.mpr later]
    · refine expected_congr (by rw [reps]) fun found => ?_
      rw [timers, OrderedMap.find?_set, if_neg (Ne.symm same)]

/-- Adding a timer due later does not change the weight. -/
theorem runAt_effect (regular : t.Regular) {milli : ℤ} {task : τ} {interval : ℤ} {id : TimerId}
    (positive : 0 < now) (later : now < milli) (nonneg : 0 ≤ interval)
    (ran : t.runAt milli task interval = (id, t')) :
    CallbackEffect now [.created id] t t' := by
  have expected_eq := regular.runAt_expected later nonneg ran
  have added : (t'.timers = t.timers) ∨ ∃ key action, t.timers.find? key = none ∧
      now < key.first ∧ t.expected now (owner key action) = [] ∧
        t'.timers = t.timers.set key action := by
    rcases runAt_cases t milli task interval ran with ⟨-, -, rfl⟩ | ⟨-, rfl, -, timers, -⟩ |
      ⟨-, rfl, -, timers, -⟩
    · exact .inl rfl
    · refine .inr ⟨_, _, regular.fresh_key (by simp), later, ?_, timers⟩
      simp [owner, expected, regular.fresh_id, regular.fresh_key]
    · have fresh : t.timers.find? ⟨milli, t.timerSeq + 1⟩ = none := regular.fresh_key (by simp)
      rw [OrderedMap.insert_of_fresh fresh] at timers
      refine .inr ⟨_, _, fresh, later, ?_, timers⟩
      simp [owner, expected, regular.fresh_id, fresh]
  refine ⟨regular.runAt (positive.trans later) nonneg ran, ?_, ?_, fun other _ => expected_eq other,
    ?_, ?_⟩
  · rcases added with timers | ⟨key, action, fresh, -, unexpected, timers⟩
    · simp [weight, timers, expected_eq]
    · have perm : t'.timers.entries.Perm ((key, action) :: t.timers.entries) :=
        timers ▸ OrderedMap.entries_set_perm fresh action
      rw [weight_eq_of_perm now perm]
      simp [weight, expected_eq, unexpected]
  · intro key timer member
    cases List.mem_singleton.mp member
  · intro other member
    cases List.mem_singleton.mp member
  · intro key action entry
    rcases added with timers | ⟨new, value, -, new_later, -, timers⟩
    · exact .inl (timers ▸ entry)
    · rw [timers, OrderedMap.find?_set] at entry
      split_ifs at entry with same
      · exact .inr (same ▸ new_later)
      · exact .inl entry

/-- Cancelling a pending timer empties its expectations. -/
theorem cancel_effect (regular : t.Regular) (now : ℤ) {id : TimerId} (pending : t.Pending id) :
    ∃ t', t.cancel id = .ok (true, t') ∧ CallbackEffect now [.cancelled id true] t t' := by
  obtain ⟨t', cancels, -, quiet, occurrences_eq, records⟩ :=
    regular.cancel_pending (regular.pendingPositive pending)
  have others : ∀ other, other ≠ id → t'.expected now other = t.expected now other := by
    intro other apart
    exact expected_congr (records other apart) fun task => occurrences_eq other (.task task) apart
  have gone : t'.expected now id = [] := by
    unfold expected
    cases found : t'.timerReps.find? id with
    | some rep => exact absurd (.inr ⟨rep, found⟩) quiet
    | none =>
        cases entry : t'.timers.find? id with
        | none => rfl
        | some action =>
            cases action with
            | task task => exact absurd (.inl ⟨task, entry⟩) quiet
            | repeatable tr => rfl
  have fewer : t'.timers.entries.Sublist t.timers.entries := by
    rcases cancel_cases cancels with ⟨-, -, rep, -, rfl⟩ | ⟨-, -, -, rfl⟩ | ⟨-, -, -, rfl⟩
    · exact List.filter_sublist
    · exact List.filter_sublist
    · exact .refl _
  refine ⟨t', cancels, regular.cancel pending cancels, ?_, ?_, ?_, ?_, ?_⟩
  · have pointwise : ∀ other, (t'.expected now other).length ≤ (t.expected now other).length := by
      intro other
      by_cases same : other = id
      · simp [same, gone]
      · rw [others other same]
    calc t'.weight now
        ≤ (t'.timers.entries.map fun entry => (t.expected now (owner entry.1 entry.2)).length).sum :=
          List.sum_le_sum fun entry _ => pointwise _
      _ ≤ t.weight now := (fewer.map _).sum_le_sum fun _ _ => Nat.zero_le _
  · intro key timer member
    cases List.mem_singleton.mp member
  · intro other untouched
    refine others other fun same => untouched ?_
    rw [same]
    exact List.mem_singleton_self _
  · intro other member
    cases List.mem_singleton.mp member
    exact gone
  · intro key action entry
    rw [← OrderedMap.mem_entries_iff] at entry ⊢
    exact .inl (fewer.subset entry)

theorem runOp_effect (regular : t.Regular) (positive : 0 < now) {op : TimerOp τ}
    (permitted : t.DuringBatch now op) :
    ∃ event t', t.runOp op = .ok (event, t') ∧ CallbackEffect now [event] t t' := by
  cases op with
  | runAt milli task interval =>
      exact ⟨_, _, rfl, regular.runAt_effect positive permitted.1 permitted.2 rfl⟩
  | runAfter milli task interval =>
      exact ⟨_, _, rfl, regular.runAt_effect positive permitted.1 permitted.2 rfl⟩
  | cancel id =>
      obtain ⟨t', cancels, effect⟩ := regular.cancel_effect now permitted
      exact ⟨_, t', by simp [runOp, cancels], effect⟩
  | elapse milli =>
      refine ⟨_, _, rfl, ⟨regular.of_fewer (regular.of_maps rfl rfl le_rfl) ?_ ?_, le_rfl, ?_, ?_,
        ?_, ?_⟩⟩
      · exact fun key action entry => entry
      · exact fun tr rep found => found
      · intro key timer member
        cases List.mem_singleton.mp member
      · exact fun id _ => rfl
      · intro id member
        cases List.mem_singleton.mp member
      · exact fun key action entry => .inl entry

/-- **A callback never faults**, and its effect is that of its operations. -/
theorem runOps_effect (positive : 0 < now) {ops : List (TimerOp τ)} :
    ∀ {t : Timers τ}, t.Regular → OpsDuringBatch now t ops →
      ∃ events t', t.runOps ops = .ok (events, t') ∧ CallbackEffect now events t t' := by
  induction ops with
  | nil => exact fun regular _ => ⟨[], _, rfl, .refl regular⟩
  | cons op rest ih =>
      intro t regular permitted
      obtain ⟨event, t₁, ran, first⟩ := regular.runOp_effect positive permitted.1
      obtain ⟨events, t₂, later, effect⟩ := ih first.regular (permitted.2 event t₁ ran)
      exact ⟨event :: events, t₂, by simp [runOps, ran, later], first.cons effect⟩

end Regular

/-! ### The loop -/

/-- What the loop of `handleTimeouts` did, from `t` to `t'`. -/
structure BatchResult (now : ℤ) (trace : List TimerEvent) (t t' : Timers τ) : Prop where
  regular : t'.Regular
  finished : t'.due now = none
  ordered : (firedKeys trace).Pairwise (· < ·)
  above : ∀ bound : TimerId, (∀ key action, t.timers.find? key = some action → bound < key) →
    ∀ key ∈ firedKeys trace, bound < key
  runs_prefix : ∀ id, runsOf id trace <+: t.expected now id
  runs : ∀ id, .cancelled id true ∉ trace →
    runsOf id trace ++ t'.expected now id = t.expected now id
  silenced : ∀ id earlier later, trace = earlier ++ .cancelled id true :: later →
    runsOf id later = []

theorem BatchResult.refl (regular : t.Regular) (nothing : t.due now = none) :
    BatchResult now [] t t where
  regular := regular
  finished := nothing
  ordered := List.Pairwise.nil
  above bound _ key member := by cases member
  runs_prefix id := List.nil_prefix
  runs id _ := rfl
  silenced id earlier later same := by simp at same

theorem first_le_of_lt {key : TimerId} (below : key < ⟨now, 2 ^ 62⟩) : key.first ≤ now := by
  rcases (TimerId.lt_iff _ _).mp below with less | ⟨same, -⟩
  · exact less.le
  · exact same.le

/-- After an iteration every key is above the one that was taken. -/
theorem Regular.fire_above (regular : t.Regular) {key : TimerId} {action : TimerAction τ}
    {fired : Fired τ} (least : t.timers.first? = some (key, action))
    (ran : t.fire key action = .ok (fired, t')) :
    ∀ other value, t'.timers.find? other = some value → key < other := by
  have still : ∀ other value, (t.timers.erase key).find? other = some value → key < other := by
    intro other value entry
    rw [OrderedMap.find?_erase] at entry
    split_ifs at entry with same
    exact lt_of_le_of_ne (OrderedMap.first?_le least entry) same
  rcases fire_cases ran with ⟨task, rfl, -, rfl⟩ | ⟨tr, rep, rfl, -, found, -, timers, -⟩
  · exact still
  · intro other value entry
    rw [timers, OrderedMap.find?_set] at entry
    split_ifs at entry with same
    · subst same
      have key_eq := regular.unique found (OrderedMap.find?_of_first? least)
      have at_eq := regular.at_eq found
      have interval_pos := regular.interval_pos found
      rw [key_eq]
      exact (TimerId.lt_iff _ _).mpr (.inl (by simp only; omega))
    · exact still other value entry

/-- One iteration, followed by the rest of the loop. -/
theorem BatchResult.step {t₁ t₂ t₃ : Timers τ} (regular : t.Regular) {key : TimerId}
    {action : TimerAction τ} {fired : Fired τ} {events later : List TimerEvent}
    (next : t.due now = some (key, action)) (ran : t.fire key action = .ok (fired, t₁))
    (effect : CallbackEffect now events t₁ t₂) (rest : BatchResult now later t₂ t₃) :
    BatchResult now (.fired key fired.timer :: events ++ later) t t₃ := by
  obtain ⟨least, below⟩ := due_eq_some next
  have due := first_le_of_lt below
  obtain ⟨head, others⟩ := regular.fire_expected (due_entry next) due ran
  have beyond : ∀ other ∈ firedKeys later, key < other := by
    refine rest.above key fun other value entry => ?_
    rcases effect.keys other value entry with before | new
    · exact regular.fire_above least ran other value before
    · exact (TimerId.lt_iff _ _).mpr (.inl (by omega))
  have quiet : ∀ id, runsOf id events = [] := effect.passive.runsOf
  -- The runs of a timer: this one, if it is the one that fired, then those of the rest.
  have runs_eq : ∀ id, runsOf id (.fired key fired.timer :: events ++ later) =
      (if fired.timer = id then [key.first] else []) ++ runsOf id later := by
    intro id
    rw [List.cons_append, runsOf_fired, runsOf_append, quiet id]
    split_ifs <;> simp
  have expected_eq : ∀ id, t.expected now id =
      (if fired.timer = id then [key.first] else []) ++ t₁.expected now id := by
    intro id
    split_ifs with same
    · subst same
      exact head
    · exact (others id (Ne.symm same)).symm
  refine ⟨rest.regular, rest.finished, ?_, ?_, ?_, ?_, ?_⟩
  · simp only [List.cons_append, firedKeys_fired, firedKeys_append, effect.passive.firedKeys,
      List.nil_append]
    exact List.pairwise_cons.mpr ⟨beyond, rest.ordered⟩
  · intro bound lower other member
    simp only [List.cons_append, firedKeys_fired, firedKeys_append, effect.passive.firedKeys,
      List.nil_append, List.mem_cons] at member
    have first := lower key action (due_entry next)
    rcases member with rfl | member
    · exact first
    · exact first.trans (beyond other member)
  · intro id
    rw [runs_eq, expected_eq]
    by_cases cancelled : .cancelled id true ∈ events
    · have none_left := rest.runs_prefix id
      rw [effect.emptied id cancelled, List.prefix_nil] at none_left
      rw [none_left, List.append_nil]
      exact List.prefix_append _ _
    · rw [← effect.kept id cancelled]
      exact (List.prefix_append_right_inj _).mpr (rest.runs_prefix id)
  · intro id untouched
    have not_here : .cancelled id true ∉ events := fun member => untouched (by simp [member])
    have not_later : .cancelled id true ∉ later := fun member => untouched (by simp [member])
    rw [runs_eq, expected_eq, List.append_assoc, rest.runs id not_later,
      effect.kept id not_here]
  · intro id earlier after same
    cases earlier with
    | nil => cases same
    | cons first earlier =>
        simp only [List.cons_append, List.cons.injEq] at same
        rcases List.append_eq_append_iff.mp same.2 with ⟨middle, -, rest_eq⟩ |
          ⟨middle, events_eq, tail_eq⟩
        · exact rest.silenced id middle after rest_eq
        · cases middle with
          | nil => exact rest.silenced id [] after (by simpa using tail_eq.symm)
          | cons last middle =>
              simp only [List.cons_append, List.cons.injEq] at tail_eq
              obtain ⟨rfl, rfl⟩ := tail_eq
              have none_left := rest.runs_prefix id
              rw [effect.emptied id (by simp [events_eq]), List.prefix_nil] at none_left
              have passive : Passive middle := fun other timer member =>
                effect.passive other timer (by simp [events_eq, member])
              rw [runsOf_append, none_left, passive.runsOf]
              rfl

/-- **The loop ends**, after at most as many iterations as occurrences are due. -/
theorem Regular.loop_ends {tasks : Fired τ → Timers τ → List (TimerOp τ)}
    (permitted : ∀ fired t, OpsDuringBatch now t (tasks fired t)) :
    ∀ (bound : ℕ) {t : Timers τ}, t.Regular → t.weight now ≤ bound →
      ∃ trace t', (∀ fuel, bound < fuel → handleTimeoutsLoop tasks now fuel t = .ok (trace, t')) ∧
        BatchResult now trace t t' := by
  intro bound
  induction bound with
  | zero =>
      intro t regular light
      have nothing : t.due now = none := by
        cases next : t.due now with
        | none => rfl
        | some entry =>
            obtain ⟨key, action⟩ := entry
            obtain ⟨fired, t₁, ran⟩ := regular.fire_ok (due_entry next)
            have := regular.fire_weight (due_entry next) (first_le_of_lt (due_eq_some next).2) ran
            omega
      refine ⟨[], t, fun fuel enough => ?_, .refl regular nothing⟩
      obtain ⟨fuel, rfl⟩ := Nat.exists_eq_succ_of_ne_zero enough.ne'
      simp [handleTimeoutsLoop, nothing]
  | succ bound ih =>
      intro t regular light
      cases next : t.due now with
      | none =>
          refine ⟨[], t, fun fuel enough => ?_, .refl regular next⟩
          obtain ⟨fuel, rfl⟩ := Nat.exists_eq_succ_of_ne_zero (by omega : fuel ≠ 0)
          simp [handleTimeoutsLoop, next]
      | some entry =>
          obtain ⟨key, action⟩ := entry
          have due := first_le_of_lt (due_eq_some next).2
          have positive : 0 < now := (regular.key_pos (due_entry next)).trans_le due
          obtain ⟨fired, t₁, ran⟩ := regular.fire_ok (due_entry next)
          have lighter := regular.fire_weight (due_entry next) due ran
          obtain ⟨events, t₂, called, effect⟩ := runOps_effect positive
            (regular.fire (due_entry next) ran) (permitted fired t₁)
          have := effect.weight_le
          obtain ⟨later, t₃, ends, rest⟩ := ih effect.regular (by omega)
          refine ⟨_, t₃, fun fuel enough => ?_, .step regular next ran effect rest⟩
          obtain ⟨fuel, rfl⟩ := Nat.exists_eq_succ_of_ne_zero (by omega : fuel ≠ 0)
          simp [handleTimeoutsLoop, next, ran, called, ends fuel (by omega)]

/-- While sequence numbers are below the bound of the loop condition, a finished
batch leaves only keys after `now`. -/
theorem Linked.lt_first_of_finished (linked : t.Linked) (nothing : t.due now = none)
    (small : t.timerSeq < 2 ^ 62) {key : TimerId} {action : TimerAction τ}
    (entry : t.timers.find? key = some action) : now < key.first := by
  have bound := le_of_due_eq_none nothing entry
  by_contra early
  have := (linked.keys_le entry).2
  refine absurd ((TimerId.lt_iff _ _).mpr ?_) (not_lt.mpr bound)
  rcases lt_or_eq_of_le (not_lt.mp early) with less | same
  · exact .inl less
  · exact .inr ⟨same, by simp only; omega⟩

theorem Regular.expected_eq_nil (regular : t.Regular)
    (later : ∀ key action, t.timers.find? key = some action → now < key.first) (id : TimerId) :
    t.expected now id = [] := by
  unfold expected
  cases found : t.timerReps.find? id with
  | some rep =>
      exact occurrences_eq_nil (regular.interval_pos found) (later _ _ (regular.pending found))
  | none =>
      cases entry : t.timers.find? id with
      | none => rfl
      | some action =>
          cases action with
          | task task => exact if_neg (not_le.mpr (later _ _ entry))
          | repeatable tr => rfl

end Timers

/-! ## Reachable tables -/

section Reachable

variable {τ : Type} {c c' : TimerConfig τ}

/-- Timers have positive times and intervals that are zero or positive, and only
pending timers are cancelled. -/
def PositiveTimers (c : TimerConfig τ) : TimerOp τ → Prop
  | .runAt milli _ interval => 0 < milli ∧ 0 ≤ interval
  | .runAfter milli _ interval => 0 < c.table.clock + milli ∧ 0 ≤ interval
  | .cancel id => c.table.Pending id
  | .elapse _ => True

theorem TimerStep.regular {event : TimerEvent} (step : TimerStep PositiveTimers c event c')
    (regular : c.table.Regular) : c'.table.Regular := by
  cases step with
  | op permitted ran =>
      rcases Timers.runOp_cases ran with ⟨milli, task, interval, id, rfl, runs, shape⟩ |
        ⟨id, removed, rfl, rfl, cancels⟩ | ⟨milli, rfl, rfl, rfl⟩
      · rcases shape with rfl | rfl
        · exact regular.runAt permitted.1 permitted.2 runs
        · have positive : 0 < c.table.clock + (milli - c.table.clock) := permitted.1
          exact regular.runAt (by omega) permitted.2 runs
      · exact regular.cancel permitted cancels
      · exact regular.of_fewer (regular.of_maps rfl rfl le_rfl) (fun _ _ entry => entry)
          fun _ _ found => found
  | start idle => exact regular
  | fire running next ran => exact regular.fire (Timers.due_entry next) ran
  | finish running nothing =>
      refine regular.of_fewer (regular.of_maps (by simp) (by simp) (by simp)) ?_ ?_
      · simp
      · simp
  | exit =>
      exact regular.of_fewer (regular.of_maps rfl rfl le_rfl) (fun _ _ entry => entry)
        fun _ _ found => found
  | drop exited idle =>
      refine regular.of_fewer ⟨?_, ?_, ?_, ?_, ?_, ?_⟩ ?_ ?_ <;> simp [Timers.clear]

theorem TimerReachable.regular (reached : TimerReachable PositiveTimers c) : c.table.Regular := by
  obtain ⟨clock, labels, run⟩ := reached
  refine run.invariant (fun state => state.table.Regular)
    (fun _ _ _ regular step => step.regular regular) ?_
  refine ⟨Timers.Linked.init clock, ?_, ?_, ?_, ?_⟩ <;> intro _ _ found <;> cases found

/-- What a call of `handleTimeouts` at clock value `now` is to have done: keys are
taken in increasing order; a timer that no callback cancelled ran at exactly its
deadlines up to `now`, one that a callback cancelled at the first of them and not
after the cancel; what is left is due later. -/
structure TimeoutsHandled (now : ℤ) (trace : List TimerEvent) (t t' : Timers τ) : Prop where
  ordered : (firedKeys trace).Pairwise (· < ·)
  one_shot : ∀ key task, t.timers.find? key = some (.task task) → key.first ≤ now →
    .cancelled key true ∉ trace → runsOf key trace = [key.first]
  repeating : ∀ tr rep, t.timerReps.find? tr = some rep → rep.timerid.first ≤ now →
    .cancelled tr true ∉ trace →
      ((runsOf tr trace).length : ℤ) = (now - rep.timerid.first) / rep.interval + 1 ∧
        runsOf tr trace = occurrences rep.timerid.first rep.interval now
  no_others : ∀ id, runsOf id trace <+: t.expected now id
  silenced : ∀ id earlier later, trace = earlier ++ .cancelled id true :: later →
    runsOf id later = []
  remaining : ∀ key action, t'.timers.find? key = some action → now < key.first

/-- **One call of `handleTimeouts` ends**, for callbacks that cancel pending timers
and add timers due later, takes keys in increasing order and runs no timer beyond
its deadlines; and below `2 ^ 62` sequence numbers it runs every timer exactly as
often as it is due. -/
theorem handleTimeouts_complete (reached : TimerReachable PositiveTimers c)
    (tasks : Fired τ → Timers τ → List (TimerOp τ))
    (permitted : ∀ fired t, Timers.OpsDuringBatch c.table.clock t (tasks fired t)) :
    ∃ fuel trace t', (∀ more, fuel ≤ more →
        c.table.handleTimeouts tasks more = .ok (trace, t')) ∧
      (firedKeys trace).Pairwise (· < ·) ∧
      (∀ id, runsOf id trace <+: c.table.expected c.table.clock id) ∧
      (t'.timerSeq < 2 ^ 62 → TimeoutsHandled c.table.clock trace c.table t') := by
  have regular := reached.regular
  obtain ⟨trace, last, ends, result⟩ := Timers.Regular.loop_ends permitted _ regular le_rfl
  refine ⟨c.table.weight c.table.clock + 1, trace, last.refreshNearest, ?_, result.ordered,
    result.runs_prefix, ?_⟩
  · intro more enough
    simp [Timers.handleTimeouts, ends more (by omega)]
  · intro small
    rw [Timers.refreshNearest_timerSeq] at small
    have later : ∀ key action, last.timers.find? key = some action → c.table.clock < key.first :=
      fun key action entry => result.regular.lt_first_of_finished result.finished small entry
    have runs : ∀ id, .cancelled id true ∉ trace →
        runsOf id trace = c.table.expected c.table.clock id := by
      intro id untouched
      have := result.runs id untouched
      rwa [result.regular.expected_eq_nil later, List.append_nil] at this
    refine ⟨result.ordered, ?_, ?_, result.runs_prefix, result.silenced, by simpa using later⟩
    · intro key task entry due untouched
      rw [runs key untouched, regular.expected_task _ entry, if_pos due]
    · intro tr rep found due untouched
      have expected_eq : c.table.expected c.table.clock tr =
          occurrences rep.timerid.first rep.interval c.table.clock := by
        simp [Timers.expected, found]
      have : 0 ≤ (c.table.clock - rep.timerid.first) / rep.interval :=
        Int.ediv_nonneg (by omega) (regular.interval_pos found).le
      rw [runs tr untouched, expected_eq]
      refine ⟨?_, rfl⟩
      simp only [occurrences, List.length_map, List.length_range]
      omega

/-- A timer first due at 5 and then every 10 milliseconds, at time 25. -/
def lateRepeating : TimerConfig Unit :=
  ⟨{ oneRepeating.table with clock := 25 }, none, [⟨-5, 1⟩]⟩

example : (lateRepeating.table.handleTimeouts (fun _ _ => []) 4).map
    (fun result => runsOf ⟨-5, 1⟩ result.1) = .ok [5, 15, 25] := rfl

theorem lateRepeating_reachable : TimerReachable PositiveTimers lateRepeating :=
  ⟨0, [.created ⟨-5, 1⟩, .elapsed 25],
    .cons (.op (show PositiveTimers _ (.runAt 5 () 10) from ⟨by decide, by decide⟩) rfl)
      (.single (.op (show PositiveTimers _ (.elapse 25) from trivial) rfl))⟩

theorem handleTimeouts_complete_lateRepeating :
    ∃ fuel trace t', (∀ more, fuel ≤ more →
        lateRepeating.table.handleTimeouts (fun _ _ => []) more = .ok (trace, t')) ∧
      (t'.timerSeq < 2 ^ 62 → TimeoutsHandled 25 trace lateRepeating.table t') := by
  obtain ⟨fuel, trace, t', ends, -, -, handled⟩ := handleTimeouts_complete lateRepeating_reachable
    (fun _ _ => []) fun _ _ => trivial
  exact ⟨fuel, trace, t', ends, handled⟩

end Reachable

end Handy
