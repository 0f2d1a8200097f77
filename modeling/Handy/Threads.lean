import Handy.Lib.LabelledRun
import Handy.Lib.Mutex
import Handy.Lib.WorkQueue

/-!
# The thread pool

The worker threads of a `ThreadPool` share a `SafeQueue` of tasks, which is a list, a mutex, a
condition variable and a flag. A task is named by the call of `addTask` that brings it; a task
that calls `addTask` or `exit` itself makes a call like any other, and its worker is at `run`
meanwhile.

A step is what a thread does between two points at which another thread may come in: taking
and releasing the mutex, a reading of the flag, a change of the list, a notification. The flag
is read and written without the mutex where the source does so. A wait on the condition
variable releases the mutex and blocks in one step; it ends with a notification, or for no
reason, and the thread then takes the mutex again.

The mutex is exclusive (`mutex_move`), the tasks of the pool are a queue of work
(`work_move`), and once `exit` has notified everybody no worker blocks again (`Told`).
Together: no task is lost, doubled or overtaken, and no wait outlives `exit`
(`tasks_conserved`).
-/

set_option autoImplicit false

namespace Handy

/-- The threads: the workers, and whoever makes a call of `addTask` or of `exit`. -/
inductive Thread (ω π ξ : Type) where
  | worker (w : ω)
  | caller (p : π)
  | exiter (x : ξ)
  deriving DecidableEq, Repr

/-- Where a thread is. -/
inductive Place (π : Type) where
  /-- A worker at the test of `while (!tasks_.exited())`. -/
  | top
  /-- `pop_wait` is to take the mutex. -/
  | popEnter
  /-- The first test of `wait_ready`. -/
  | waitTest
  /-- The test that `ready_.wait` makes of its condition. -/
  | waitCondition
  /-- The condition was false, and `ready_.wait` is to block. -/
  | waitBlock
  /-- In `ready_.wait`, without the mutex. -/
  | waiting
  /-- `wait_ready` has returned, and the first item is to be taken. -/
  | popFront
  /-- `pop_wait` returns, with the task it has taken if there was one. -/
  | popLeave (taken : Option π)
  | run (task : π)
  | done
  /-- A call that has not been made. -/
  | idle
  /-- `push` is to take the mutex. -/
  | pushEnter
  | pushCheck
  | pushBack
  | pushNotify
  | pushLeave (result : Bool)
  /-- `addTask` has returned. -/
  | added (result : Bool)
  /-- `exit` has set the flag and is to take the mutex. -/
  | exitEnter
  | exitNotify
  | exitLeave
  /-- `exit` has returned. -/
  | exited
  deriving DecidableEq, Repr

namespace Place

variable {π : Type}

/-- The places at which a thread has the mutex. -/
def locked : Place π → Bool
  | .waitTest | .waitCondition | .waitBlock | .popFront | .popLeave _ => true
  | .pushCheck | .pushBack | .pushNotify | .pushLeave _ => true
  | .exitNotify | .exitLeave => true
  | _ => false

/-- The task that a worker has taken and not finished. -/
def task : Place π → Option π
  | .popLeave taken => taken
  | .run task => some task
  | _ => none

/-- Where a worker goes on when `pop_wait` has returned. -/
def afterPop : Option π → Place π
  | none => .top
  | some task => .run task

/-- The task of a call is in the queue: `addTask` has returned true, or is about to. -/
def accepted : Place π → Bool
  | .pushNotify | .pushLeave true | .added true => true
  | _ => false

/-- A call of `exit` has made its `notify_all`. -/
def notified : Place π → Bool
  | .exitLeave | .exited => true
  | _ => false

/-- The places of a call of `addTask` that has not been admitted. -/
def unadmitted : Place π → Bool
  | .idle | .pushEnter | .pushCheck | .pushLeave false | .added false => true
  | _ => false

theorem accepted_of_unadmitted {place : Place π} (unadmitted : place.unadmitted = true) :
    place.accepted = false := by
  revert unadmitted
  fun_cases Place.accepted place <;> simp [Place.unadmitted]

theorem locked_afterPop (taken : Option π) : (afterPop taken).locked = false := by
  cases taken <;> rfl

theorem accepted_afterPop (taken : Option π) : (afterPop taken).accepted = false := by
  cases taken <;> rfl

theorem task_afterPop (taken : Option π) : (afterPop taken).task = taken := by
  cases taken <;> rfl

end Place

/-- The pool and its threads. The waiters are the workers that are blocked on the condition
variable. The last three fields are histories: the tasks in the order in which they were put
into the queue, taken out of it, and finished. -/
structure ThreadPool (ω π ξ : Type) where
  items : List π
  exit : Bool
  owner : Option (Thread ω π ξ)
  waiters : List ω
  place : Thread ω π ξ → Place π
  accepted : List π
  dequeued : List π
  executed : List π

namespace ThreadPool

variable {ω π ξ : Type}

/-- Where the threads begin. -/
def start : Thread ω π ξ → Place π
  | .worker _ => .top
  | _ => .idle

/-- The pool when it is made. -/
def init : ThreadPool ω π ξ :=
  ⟨[], false, none, [], start, [], [], []⟩

/-- The condition of `wait_ready`. -/
def Ready (pool : ThreadPool ω π ξ) : Prop :=
  pool.exit = true ∨ pool.items ≠ []

/-- The condition on which `push` returns false. -/
def Refusing (capacity : ℕ) (pool : ThreadPool ω π ξ) : Prop :=
  pool.exit = true ∨ capacity ≠ 0 ∧ capacity ≤ pool.items.length

variable [DecidableEq ω] [DecidableEq π] [DecidableEq ξ]

/-- A thread goes to another place. -/
def move (pool : ThreadPool ω π ξ) (thread : Thread ω π ξ) (place : Place π) :
    ThreadPool ω π ξ :=
  { pool with place := Function.update pool.place thread place }

/-- A step of a thread. -/
inductive Step (capacity : ℕ) (pool : ThreadPool ω π ξ) :
    Thread ω π ξ → ThreadPool ω π ξ → Prop where
  -- the loop of `ThreadPool::start`
  | again {w : ω} (here : pool.place (.worker w) = .top) (running : pool.exit = false) :
      Step capacity pool (.worker w) (pool.move (.worker w) .popEnter)
  | stop {w : ω} (here : pool.place (.worker w) = .top) (exited : pool.exit = true) :
      Step capacity pool (.worker w) (pool.move (.worker w) .done)
  | finish {w : ω} {p : π} (here : pool.place (.worker w) = .run p) :
      Step capacity pool (.worker w) { pool.move (.worker w) .top with
        executed := pool.executed ++ [p] }
  -- `SafeQueue::pop_wait` and `wait_ready`
  | popLock {w : ω} (here : pool.place (.worker w) = .popEnter) (free : pool.owner = none) :
      Step capacity pool (.worker w) { pool.move (.worker w) .waitTest with
        owner := some (.worker w) }
  | testReady {w : ω} (here : pool.place (.worker w) = .waitTest) (ready : pool.Ready) :
      Step capacity pool (.worker w) (pool.move (.worker w) .popFront)
  | testUnready {w : ω} (here : pool.place (.worker w) = .waitTest) (unready : ¬ pool.Ready) :
      Step capacity pool (.worker w) (pool.move (.worker w) .waitCondition)
  | conditionReady {w : ω} (here : pool.place (.worker w) = .waitCondition) (ready : pool.Ready) :
      Step capacity pool (.worker w) (pool.move (.worker w) .popFront)
  | conditionUnready {w : ω} (here : pool.place (.worker w) = .waitCondition)
      (unready : ¬ pool.Ready) :
      Step capacity pool (.worker w) (pool.move (.worker w) .waitBlock)
  | block {w : ω} (here : pool.place (.worker w) = .waitBlock) :
      Step capacity pool (.worker w) { pool.move (.worker w) .waiting with
        owner := none, waiters := w :: pool.waiters }
  | spurious {w : ω} (blocked : w ∈ pool.waiters) :
      Step capacity pool (.worker w) { pool with waiters := pool.waiters.erase w }
  | relock {w : ω} (here : pool.place (.worker w) = .waiting) (woken : w ∉ pool.waiters)
      (free : pool.owner = none) :
      Step capacity pool (.worker w) { pool.move (.worker w) .waitCondition with
        owner := some (.worker w) }
  | popNothing {w : ω} (here : pool.place (.worker w) = .popFront) (empty : pool.items = []) :
      Step capacity pool (.worker w) (pool.move (.worker w) (.popLeave none))
  | popItem {w : ω} (here : pool.place (.worker w) = .popFront) {p : π} {rest : List π}
      (first : pool.items = p :: rest) :
      Step capacity pool (.worker w) { pool.move (.worker w) (.popLeave (some p)) with
        items := rest, dequeued := pool.dequeued ++ [p] }
  | popUnlock {w : ω} {taken : Option π} (here : pool.place (.worker w) = .popLeave taken) :
      Step capacity pool (.worker w) { pool.move (.worker w) (.afterPop taken) with owner := none }
  -- `ThreadPool::addTask` and `SafeQueue::push`
  | addTask {p : π} (here : pool.place (.caller p) = .idle) :
      Step capacity pool (.caller p) (pool.move (.caller p) .pushEnter)
  | pushLock {p : π} (here : pool.place (.caller p) = .pushEnter) (free : pool.owner = none) :
      Step capacity pool (.caller p) { pool.move (.caller p) .pushCheck with
        owner := some (.caller p) }
  | refuse {p : π} (here : pool.place (.caller p) = .pushCheck)
      (refusing : pool.Refusing capacity) :
      Step capacity pool (.caller p) (pool.move (.caller p) (.pushLeave false))
  | grant {p : π} (here : pool.place (.caller p) = .pushCheck)
      (admitting : ¬ pool.Refusing capacity) :
      Step capacity pool (.caller p) (pool.move (.caller p) .pushBack)
  | pushBack {p : π} (here : pool.place (.caller p) = .pushBack) :
      Step capacity pool (.caller p) { pool.move (.caller p) .pushNotify with
        items := pool.items ++ [p], accepted := pool.accepted ++ [p] }
  | notifyOne {p : π} (here : pool.place (.caller p) = .pushNotify) {w : ω}
      (blocked : w ∈ pool.waiters) :
      Step capacity pool (.caller p) { pool.move (.caller p) (.pushLeave true) with
        waiters := pool.waiters.erase w }
  | notifyNobody {p : π} (here : pool.place (.caller p) = .pushNotify)
      (nobody : pool.waiters = []) :
      Step capacity pool (.caller p) (pool.move (.caller p) (.pushLeave true))
  | pushUnlock {p : π} {result : Bool} (here : pool.place (.caller p) = .pushLeave result) :
      Step capacity pool (.caller p) { pool.move (.caller p) (.added result) with owner := none }
  -- `SafeQueue::exit`
  | exitFlag {x : ξ} (here : pool.place (.exiter x) = .idle) :
      Step capacity pool (.exiter x) { pool.move (.exiter x) .exitEnter with exit := true }
  | exitLock {x : ξ} (here : pool.place (.exiter x) = .exitEnter) (free : pool.owner = none) :
      Step capacity pool (.exiter x) { pool.move (.exiter x) .exitNotify with
        owner := some (.exiter x) }
  | notifyAll {x : ξ} (here : pool.place (.exiter x) = .exitNotify) :
      Step capacity pool (.exiter x) { pool.move (.exiter x) .exitLeave with waiters := [] }
  | exitUnlock {x : ξ} (here : pool.place (.exiter x) = .exitLeave) :
      Step capacity pool (.exiter x) { pool.move (.exiter x) .exited with owner := none }

variable {capacity : ℕ} {pool after : ThreadPool ω π ξ} {thread : Thread ω π ξ}

/-! ## The mutex -/

/-- The thread is at a place at which it has the mutex. -/
def locked (pool : ThreadPool ω π ξ) (thread : Thread ω π ξ) : Bool :=
  (pool.place thread).locked

theorem locked_move (thread : Thread ω π ξ) (next : Place π) :
    (pool.move thread next).locked = Function.update pool.locked thread next.locked := by
  funext other
  by_cases same : other = thread
  · subst same
    simp [locked, move]
  · simp [locked, move, same]

section Moves

variable {place next : Place π}

theorem mutex_stays (here : pool.place thread = place) (same : place.locked = next.locked) :
    Mutex.Move pool.owner pool.locked thread pool.owner (pool.move thread next).locked := by
  rw [locked_move]
  exact .stay (by rw [locked, here, same])

theorem mutex_taken (free : pool.owner = none) :
    Mutex.Move pool.owner pool.locked thread (some thread) (pool.move thread next).locked := by
  rw [locked_move]
  exact .take free

theorem mutex_released (here : pool.place thread = place) (inside : place.locked = true)
    (outside : next.locked = false) :
    Mutex.Move pool.owner pool.locked thread none (pool.move thread next).locked := by
  rw [locked_move, outside]
  exact .release (by rw [locked, here, inside])

end Moves

/-- What a step does to the mutex. -/
theorem mutex_move (step : Step capacity pool thread after) :
    Mutex.Move pool.owner pool.locked thread after.owner after.locked := by
  cases step with
  | spurious _ => exact .idle
  | popLock _ free | relock _ _ free | pushLock _ free | exitLock _ free => exact mutex_taken free
  | block here | pushUnlock here | exitUnlock here => exact mutex_released here rfl rfl
  | popUnlock here => exact mutex_released here rfl (Place.locked_afterPop _)
  | again here _ | stop here _ | finish here | testReady here _ | testUnready here _
  | conditionReady here _ | conditionUnready here _ | popNothing here _ | popItem here _
  | addTask here | refuse here _ | grant here _ | pushBack here | notifyOne here _
  | notifyNobody here _ | exitFlag here | notifyAll here => exact mutex_stays here rfl

/-! ## The tasks -/

/-- The tasks of the pool, with what each worker has in its hands. -/
def work (pool : ThreadPool ω π ξ) : WorkQueue ω π :=
  ⟨pool.items, fun w => (pool.place (.worker w)).task, pool.accepted, pool.dequeued, pool.executed⟩

/-- What places say of their threads stays when a thread goes to a place that says the same. -/
theorem view_move {β : Type} (view : Place π → β) {place next : Place π}
    (here : pool.place thread = place) (same : view place = view next) (other : Thread ω π ξ) :
    view ((pool.move thread next).place other) = view (pool.place other) := by
  by_cases moved : other = thread
  · subst moved
    rw [here, same]
    simp [move]
  · simp [move, moved]

/-- The accepted tasks are those of the calls that were accepted. -/
def Recorded (pool : ThreadPool ω π ξ) : Prop :=
  ∀ p, p ∈ pool.accepted ↔ (pool.place (.caller p)).accepted = true

theorem recorded_move (recorded : pool.Recorded) {place next : Place π}
    (here : pool.place thread = place) (same : place.accepted = next.accepted) :
    (pool.move thread next).Recorded := by
  intro p
  rw [view_move Place.accepted here same]
  exact recorded p

theorem recorded_step (recorded : pool.Recorded) (step : Step capacity pool thread after) :
    after.Recorded := by
  cases step with
  | spurious _ => exact recorded
  | @popUnlock w taken here =>
      exact recorded_move recorded here (Place.accepted_afterPop taken).symm
  | @pushBack p here =>
      intro q
      by_cases same : q = p
      · subst same
        simp [move, Place.accepted]
      · simp [move, same, recorded q]
  | @pushUnlock p result here =>
      exact recorded_move recorded here (by cases result <;> rfl)
  | popLock here _ | relock here _ _ | pushLock here _ | exitLock here _ | block here
  | exitUnlock here | again here _ | stop here _ | finish here | testReady here _
  | testUnready here _ | conditionReady here _ | conditionUnready here _ | popNothing here _
  | popItem here _ | addTask here | refuse here _ | grant here _ | notifyOne here _
  | notifyNobody here _ | exitFlag here | notifyAll here => exact recorded_move recorded here rfl

/-- A thread that goes to a place with the same task in its hands leaves the tasks alone. -/
theorem work_stays {place next : Place π} (here : pool.place thread = place)
    (same : place.task = next.task) : WorkQueue.Move pool.work (pool.move thread next).work := by
  have held : (pool.move thread next).work = pool.work :=
    WorkQueue.ext rfl (funext fun w => view_move Place.task here same (.worker w)) rfl rfl rfl
  rw [held]
  exact .idle

/-- What is in the hands of the workers when one of them has moved. -/
theorem held_move (w : ω) (next : Place π) :
    (pool.move (.worker w) next).work.held = Function.update pool.work.held w next.task := by
  funext v
  by_cases same : v = w
  · subst same
    simp [work, move]
  · simp [work, move, same]

/-- What a step does to the tasks. -/
theorem work_move (recorded : pool.Recorded) (step : Step capacity pool thread after) :
    WorkQueue.Move pool.work after.work := by
  cases step with
  | spurious _ => exact .idle
  | @finish w p here =>
      have holding : pool.work.held w = some p := by simp [work, here, Place.task]
      have finished := WorkQueue.Move.finish holding
      rwa [← show _ = Function.update pool.work.held w none from held_move w .top] at finished
  | @popItem w here p rest first =>
      have free : pool.work.held w = none := by simp [work, here, Place.task]
      have taken := WorkQueue.Move.take free first
      rwa [← show _ = Function.update pool.work.held w (some p) from
        held_move w (.popLeave (some p))] at taken
  | @pushBack p here =>
      have fresh : p ∉ pool.work.accepted := by
        intro member
        have accepted := (recorded p).mp member
        rw [here] at accepted
        cases accepted
      have held : (pool.move (.caller p) .pushNotify).work.held = pool.work.held := by
        funext w
        exact view_move Place.task here rfl (.worker w)
      have accepted := WorkQueue.Move.accept fresh
      rwa [← held] at accepted
  | @popUnlock w taken here => exact work_stays here (Place.task_afterPop taken).symm
  | popLock here _ | relock here _ _ | pushLock here _ | exitLock here _ | block here
  | exitUnlock here | again here _ | stop here _ | testReady here _
  | testUnready here _ | conditionReady here _ | conditionUnready here _ | popNothing here _
  | addTask here | refuse here _ | grant here _ | notifyOne here _ | pushUnlock here
  | notifyNobody here _ | exitFlag here | notifyAll here => exact work_stays here rfl

/-! ## The capacity -/

/-- The queue is within its capacity, and a call that has passed the check finds room. -/
structure Bounded (capacity : ℕ) (pool : ThreadPool ω π ξ) : Prop where
  within : capacity ≠ 0 → pool.items.length ≤ capacity
  room : ∀ thread, pool.place thread = .pushBack → capacity ≠ 0 → pool.items.length < capacity

/-- A thread that is at a place after another has moved elsewhere was there before. -/
theorem place_of_move {next place : Place π} {other : Thread ω π ξ} (elsewhere : next ≠ place)
    (now : (pool.move thread next).place other = place) : pool.place other = place := by
  by_cases same : other = thread
  · subst same
    simp only [move, Function.update_self] at now
    exact absurd now elsewhere
  · simpa [move, same] using now

theorem bounded_step (exclusive : Mutex.Exclusive pool.owner pool.locked)
    (bounded : pool.Bounded capacity) (step : Step capacity pool thread after) :
    after.Bounded capacity := by
  cases step with
  | spurious _ => exact ⟨bounded.within, bounded.room⟩
  | @popItem w here p rest first =>
      have shorter : rest.length < pool.items.length := by rw [first]; simp
      constructor
      · intro limited
        exact shorter.le.trans (bounded.within limited)
      · intro other now limited
        exact shorter.trans (bounded.room other (place_of_move (by simp) now) limited)
  | @grant p here admitting =>
      refine ⟨bounded.within, fun other now limited => ?_⟩
      by_contra full
      exact admitting (.inr ⟨limited, not_lt.mp full⟩)
  | @pushBack p here =>
      constructor
      · intro limited
        have free := bounded.room (.caller p) here limited
        simpa using free
      · -- two calls cannot be past the check at once
        intro other now limited
        have before : pool.place other = .pushBack := place_of_move (by simp) now
        have same : other = .caller p :=
          exclusive.unique (by simp [locked, before, Place.locked]) (by simp [locked, here, Place.locked])
        subst same
        simp [move] at now
  | @popUnlock w taken here =>
      have elsewhere : Place.afterPop taken ≠ .pushBack := by
        cases taken <;> simp [Place.afterPop]
      exact ⟨bounded.within, fun other now => bounded.room other (place_of_move elsewhere now)⟩
  | _ =>
      constructor
      · exact bounded.within
      · intro other now
        exact bounded.room other (place_of_move (by simp) now)

/-! ## The exit -/

/-- Some call of `exit` has made its `notify_all`. -/
def Notified (place : Thread ω π ξ → Place π) : Prop :=
  ∃ thread, (place thread).notified = true

/-- A call of `exit` sets the flag first. Once it has notified everybody, nobody is blocked or
about to be, and no task is about to be accepted. -/
structure Told (exit : Bool) (waiters : List ω) (place : Thread ω π ξ → Place π) : Prop where
  flagged : ∀ x, place (.exiter x) ≠ .idle → exit = true
  exited : Notified place → exit = true
  nobody : Notified place → waiters = []
  unblocked : Notified place → ∀ thread, place thread ≠ .waitBlock
  unaccepted : Notified place → ∀ thread, place thread ≠ .pushBack

/-- A step after which a call has notified everybody is the notification, or one after it. -/
theorem notified_before {place next : Place π} (here : pool.place thread = place)
    (same : place.notified = next.notified) (now : Notified (pool.move thread next).place) :
    Notified pool.place := by
  obtain ⟨other, noted⟩ := now
  exact ⟨other, by rwa [view_move Place.notified here same] at noted⟩

theorem flagged_move (flagged : ∀ x, pool.place (.exiter x) ≠ .idle → pool.exit = true)
    {place next : Place π} (here : pool.place thread = place)
    (started : ∀ x, thread = .exiter x → place ≠ .idle) (x : ξ)
    (active : (pool.move thread next).place (.exiter x) ≠ .idle) : pool.exit = true := by
  by_cases moved : Thread.exiter x = thread
  · subst moved
    exact flagged x (by rw [here]; exact started x rfl)
  · simp only [move, Function.update_of_ne moved] at active
    exact flagged x active

theorem told_move (told : Told pool.exit pool.waiters pool.place) {place next : Place π}
    (here : pool.place thread = place) (same : place.notified = next.notified)
    (started : ∀ x, thread = .exiter x → place ≠ .idle)
    (unblocking : next ≠ .waitBlock) (unaccepting : next ≠ .pushBack) :
    Told pool.exit pool.waiters (pool.move thread next).place :=
  { flagged := flagged_move told.flagged here started
    exited := fun noted => told.exited (notified_before here same noted)
    nobody := fun noted => told.nobody (notified_before here same noted)
    unblocked := fun noted other now =>
      told.unblocked (notified_before here same noted) other (place_of_move unblocking now)
    unaccepted := fun noted other now =>
      told.unaccepted (notified_before here same noted) other (place_of_move unaccepting now) }

/-- Before the notification a worker may still find nothing to do, and a call an open pool. -/
theorem told_unnotified (told : Told pool.exit pool.waiters pool.place) {place next : Place π}
    (here : pool.place thread = place) (same : place.notified = next.notified)
    (started : ∀ x, thread = .exiter x → place ≠ .idle) (waiters : List ω)
    (unnotified : ¬ Notified pool.place) :
    Told pool.exit waiters (pool.move thread next).place :=
  have still : ¬ Notified (pool.move thread next).place := fun noted =>
    unnotified (notified_before here same noted)
  { flagged := flagged_move told.flagged here started
    exited := fun noted => absurd noted still
    nobody := fun noted => absurd noted still
    unblocked := fun noted => absurd noted still
    unaccepted := fun noted => absurd noted still }

/-- The notification finds no thread that is about to block or to accept a task, since such a
thread has the mutex. -/
theorem told_notifyAll (exclusive : Mutex.Exclusive pool.owner pool.locked)
    (told : Told pool.exit pool.waiters pool.place) {x : ξ}
    (here : pool.place (.exiter x) = .exitNotify) :
    Told pool.exit [] (pool.move (.exiter x) .exitLeave).place := by
  have flagged : pool.exit = true := told.flagged x (by rw [here]; simp)
  have alone {place : Place π} (inside : place.locked = true) (elsewhere : place ≠ .exitNotify)
      (other : Thread ω π ξ) : pool.place other ≠ place := by
    intro now
    have same : other = .exiter x :=
      exclusive.unique (by rw [locked, now, inside]) (by rw [locked, here]; rfl)
    subst same
    exact elsewhere (now.symm.trans here)
  exact
    { flagged := fun _ _ => flagged
      exited := fun _ => flagged
      nobody := fun _ => rfl
      unblocked := fun _ other now =>
        alone rfl (by simp) other (place_of_move (by simp) now)
      unaccepted := fun _ other now =>
        alone rfl (by simp) other (place_of_move (by simp) now) }

theorem told_step (exclusive : Mutex.Exclusive pool.owner pool.locked)
    (told : Told pool.exit pool.waiters pool.place) (step : Step capacity pool thread after) :
    Told after.exit after.waiters after.place := by
  cases step with
  | spurious _ => exact { told with nobody := fun noted => by simp [told.nobody noted] }
  | conditionUnready here unready =>
      exact told_unnotified told here (by rfl) nofun _ fun noted =>
        unready (.inl (told.exited noted))
  | grant here admitting =>
      exact told_unnotified told here (by rfl) nofun _ fun noted =>
        admitting (.inl (told.exited noted))
  | block here =>
      exact told_unnotified told here (by rfl) nofun _ fun noted => told.unblocked noted _ here
  | @notifyOne p here w blocked =>
      have moved : Told pool.exit pool.waiters (pool.move (.caller p) (.pushLeave true)).place :=
        told_move told here rfl nofun nofun nofun
      exact { moved with nobody := fun noted => by rw [moved.nobody noted, List.erase_nil] }
  | @exitFlag x here =>
      have before : Notified (pool.move (.exiter x) .exitEnter).place → Notified pool.place :=
        notified_before here rfl
      exact
        { flagged := fun _ _ => rfl
          exited := fun _ => rfl
          nobody := fun noted => told.nobody (before noted)
          unblocked := fun noted other now =>
            told.unblocked (before noted) other (place_of_move (by simp) now)
          unaccepted := fun noted other now =>
            told.unaccepted (before noted) other (place_of_move (by simp) now) }
  | notifyAll here => exact told_notifyAll exclusive told here
  | @popUnlock w taken here =>
      cases taken <;> exact told_move told here (by rfl) nofun nofun nofun
  | popLock here _ | relock here _ _ | pushLock here _ | exitLock here _
  | exitUnlock here | again here _ | stop here _ | testReady here _ | pushBack here | pushUnlock here
  | testUnready here _ | conditionReady here _ | popNothing here _ | popItem here _
  | addTask here | refuse here _ | finish here
  | notifyNobody here _ =>
      exact told_move told here (by rfl) (by simp) (by simp) (by simp)

/-- A notification is not taken back. -/
theorem notified_step (noted : Notified pool.place) (step : Step capacity pool thread after) :
    Notified after.place := by
  obtain ⟨other, noted⟩ := noted
  have stays {place next : Place π} (here : pool.place thread = place)
      (same : place.notified = true → next.notified = true) :
      Notified (pool.move thread next).place := by
    by_cases moved : other = thread
    · subst moved
      rw [here] at noted
      exact ⟨other, by simpa [move] using same noted⟩
    · exact ⟨other, by simpa [move, moved] using noted⟩
  cases step with
  | spurious _ => exact ⟨other, noted⟩
  | exitUnlock here => exact stays here fun _ => rfl
  | popLock here _ | relock here _ _ | pushLock here _ | exitLock here _ | block here
  | popUnlock here | again here _ | stop here _ | finish here | testReady here _ | pushBack here
  | testUnready here _ | conditionReady here _ | conditionUnready here _ | popNothing here _
  | popItem here _ | addTask here | refuse here _ | grant here _ | notifyOne here _ | pushUnlock here
  | notifyNobody here _ | exitFlag here | notifyAll here => exact stays here (by simp [Place.notified])

/-! ## Whole runs -/

/-- What holds of the pool at all times. -/
structure Sound (capacity : ℕ) (pool : ThreadPool ω π ξ) : Prop where
  exclusive : Mutex.Exclusive pool.owner pool.locked
  recorded : pool.Recorded
  conserved : pool.work.Conserved
  bounded : pool.Bounded capacity
  told : Told pool.exit pool.waiters pool.place

omit [DecidableEq ω] [DecidableEq π] [DecidableEq ξ] in
theorem sound_init : (init : ThreadPool ω π ξ).Sound capacity := by
  have unlocked : ∀ thread : Thread ω π ξ, (start thread).locked = false := by
    rintro (w | p | x) <;> rfl
  have unnotified : ¬ Notified (start : Thread ω π ξ → Place π) := by
    rintro ⟨w | p | x, noted⟩ <;> cases noted
  exact
    { exclusive := fun thread inside => by simp [locked, init, unlocked] at inside
      recorded := fun p => by simp [init, start, Place.accepted]
      conserved := WorkQueue.conserved_empty
      bounded := ⟨fun _ => Nat.zero_le _, by rintro (w | p | x) now <;> cases now⟩
      told := ⟨fun x active => absurd rfl active, fun noted => absurd noted unnotified,
        fun noted => absurd noted unnotified, fun noted => absurd noted unnotified,
        fun noted => absurd noted unnotified⟩ }

theorem Sound.step (sound : pool.Sound capacity) (step : Step capacity pool thread after) :
    after.Sound capacity :=
  { exclusive := sound.exclusive.move (mutex_move step)
    recorded := recorded_step sound.recorded step
    conserved := sound.conserved.move (work_move sound.recorded step)
    bounded := bounded_step sound.exclusive sound.bounded step
    told := told_step sound.exclusive sound.told step }

/-- Only a call that was admitted before the notification adds to the accepted tasks. -/
theorem accepted_step (told : Told pool.exit pool.waiters pool.place) (noted : Notified pool.place)
    (step : Step capacity pool thread after) : after.accepted = pool.accepted := by
  cases step with
  | pushBack here => exact absurd here (told.unaccepted noted _)
  | _ => rfl

/-- A call that has not been admitted when the flag is set never is. -/
theorem unadmitted_step {p : π} (exited : pool.exit = true)
    (unadmitted : (pool.place (.caller p)).unadmitted = true)
    (step : Step capacity pool thread after) :
    after.exit = true ∧ (after.place (.caller p)).unadmitted = true := by
  have stays {place next : Place π} (here : pool.place thread = place)
      (same : place.unadmitted = true → next.unadmitted = true) :
      ((pool.move thread next).place (.caller p)).unadmitted = true := by
    by_cases moved : Thread.caller p = thread
    · subst moved
      rw [here] at unadmitted
      simpa [move] using same unadmitted
    · simpa [move, moved] using unadmitted
  cases step with
  | spurious _ => exact ⟨exited, unadmitted⟩
  | grant here admitting => exact absurd (.inl exited) admitting
  | exitFlag here => exact ⟨rfl, unadmitted⟩
  | addTask here | pushLock here _ | refuse here _ => exact ⟨exited, stays here fun _ => rfl⟩
  | @pushUnlock q result here =>
      refine ⟨exited, stays here fun before => ?_⟩
      cases result with
      | true => cases before
      | false => rfl
  | pushBack here | notifyOne here _ | notifyNobody here _ =>
      exact ⟨exited, stays here fun before => by cases before⟩
  | popLock here _ | relock here _ _ | exitLock here _ | block here | exitUnlock here
  | popUnlock here | again here _ | stop here _ | finish here | testReady here _
  | testUnready here _ | conditionReady here _ | conditionUnready here _ | popNothing here _
  | popItem here _ | notifyAll here => exact ⟨exited, unadmitted⟩

section Runs

variable {later : ThreadPool ω π ξ} {labels more : List (Thread ω π ξ)}

theorem sound_of_run (run : LabelledRun (Step capacity) init labels pool) : pool.Sound capacity :=
  run.invariant (Sound capacity) (fun _ _ _ sound step => sound.step step) sound_init

/-- **Nothing is accepted once `exit` has notified everybody.** -/
theorem accepted_of_run (sound : pool.Sound capacity) (noted : Notified pool.place)
    (run : LabelledRun (Step capacity) pool more later) : later.accepted = pool.accepted := by
  have kept := run.invariant
    (fun now => now.Sound capacity ∧ Notified now.place ∧ now.accepted = pool.accepted)
    (fun _ _ _ before step => ⟨before.1.step step, notified_step before.2.1 step,
      (accepted_step before.1.told before.2.1 step).trans before.2.2⟩)
    ⟨sound, noted, rfl⟩
  exact kept.2.2

/-- **A call of `addTask` that is made when the flag is set returns false.** -/
theorem refused_of_run {p : π} (exited : pool.exit = true) (unmade : pool.place (.caller p) = .idle)
    (run : LabelledRun (Step capacity) pool more later) :
    (later.place (.caller p)).accepted = false := by
  have kept := run.invariant
    (fun now => now.exit = true ∧ (now.place (.caller p)).unadmitted = true)
    (fun _ _ _ before step => unadmitted_step before.1 before.2 step)
    ⟨exited, by rw [unmade]; rfl⟩
  exact Place.accepted_of_unadmitted kept.2

/-- A worker has the task in its hands. -/
def Running (pool : ThreadPool ω π ξ) (p : π) : Prop :=
  ∃ w, (pool.place (.worker w)).task = some p

/-- **Tasks are conserved.** In every state that the pool reaches, whatever its capacity and
however its threads are interleaved: a task is accepted if and only if it is executed, running
or queued, and it is only one of these, with one worker and executed once; the tasks were
dequeued in the order of their acceptance; the queue is within its capacity; once `exit` has
notified everybody the flag is set, no worker is blocked, and from then on nothing is
accepted; and a call of `addTask` that is made when the flag is set is never accepted. -/
theorem tasks_conserved (run : LabelledRun (Step capacity) init labels pool) :
    (∀ p, (pool.place (.caller p)).accepted = true ↔
      p ∈ pool.executed ∨ pool.Running p ∨ p ∈ pool.items) ∧
    (∀ p, p ∈ pool.executed → ¬ pool.Running p ∧ p ∉ pool.items) ∧
    (∀ p, pool.Running p → p ∉ pool.items) ∧
    (∀ p v w, (pool.place (.worker v)).task = some p → (pool.place (.worker w)).task = some p →
      v = w) ∧
    pool.executed.Nodup ∧ pool.items.Nodup ∧
    pool.accepted = pool.dequeued ++ pool.items ∧
    (∀ p, p ∈ pool.accepted ↔ (pool.place (.caller p)).accepted = true) ∧
    (0 < capacity → pool.items.length ≤ capacity) ∧
    (∀ x, (pool.place (.exiter x)).notified = true → pool.exit = true ∧ ∀ w, w ∉ pool.waiters) ∧
    (∀ x later more, (pool.place (.exiter x)).notified = true →
      LabelledRun (Step capacity) pool more later → later.accepted = pool.accepted) ∧
    (∀ p later more, pool.exit = true → pool.place (.caller p) = .idle →
      LabelledRun (Step capacity) pool more later →
        (later.place (.caller p)).accepted = false) := by
  have sound := sound_of_run run
  have conserved := sound.conserved
  have distinct : (pool.dequeued ++ pool.items).Nodup := conserved.order ▸ conserved.distinct
  have gone (p : π) : p ∈ pool.dequeued ↔ p ∈ pool.executed ∨ pool.Running p := conserved.gone p
  have apart {p : π} (before : p ∈ pool.dequeued) : p ∉ pool.items := fun queued =>
    (List.nodup_append.mp distinct).2.2 p before p queued rfl
  refine ⟨fun p => ?_, fun p done => ⟨?_, apart ((gone p).mpr (.inl done))⟩,
    fun p running => apart ((gone p).mpr (.inr running)), fun p v w => conserved.single,
    conserved.once, (List.nodup_append.mp distinct).2.1, conserved.order, sound.recorded,
    fun limited => sound.bounded.within limited.ne', fun x noted => ?_,
    fun x later more noted => accepted_of_run sound ⟨_, noted⟩,
    fun p later more exited unmade => refused_of_run exited unmade⟩
  · rw [← sound.recorded p, show pool.accepted = _ from conserved.order, List.mem_append]
    exact (or_congr (gone p) Iff.rfl).trans or_assoc
  · rintro ⟨w, running⟩
    exact conserved.unfinished running done
  · refine ⟨sound.told.exited ⟨_, noted⟩, fun w => ?_⟩
    rw [sound.told.nobody ⟨_, noted⟩]
    exact List.not_mem_nil

/-- A worker finds nothing to do and blocks. A task comes, and the worker is notified and
executes it; then the pool is told to exit. -/
theorem tasks_conserved_one_worker : ∃ (pool : ThreadPool Unit Unit Unit)
    (labels : List (Thread Unit Unit Unit)),
    pool.executed = [()] ∧ (pool.place (.exiter ())).notified = true ∧
    LabelledRun (Step 1) init labels pool ∧
    (∀ x, (pool.place (.exiter x)).notified = true → pool.exit = true ∧ ∀ w, w ∉ pool.waiters) := by
  have run : ∃ (pool : ThreadPool Unit Unit Unit) (labels : List (Thread Unit Unit Unit)),
      pool.executed = [()] ∧ (pool.place (.exiter ())).notified = true ∧
      LabelledRun (Step 1) init labels pool := by
    refine ⟨_, _, ?_, ?_,
      -- the worker blocks
      .cons (.again (w := ()) rfl rfl) <| .cons (.popLock (w := ()) rfl rfl) <|
      .cons (.testUnready (w := ()) rfl (by simp [Ready, move, init])) <|
      .cons (.conditionUnready (w := ()) rfl (by simp [Ready, move, init])) <|
      .cons (.block (w := ()) rfl) <|
      -- a task is added
      .cons (.addTask (p := ()) rfl) <| .cons (.pushLock (p := ()) rfl rfl) <|
      .cons (.grant (p := ()) rfl (by simp [Refusing, move, init])) <|
      .cons (.pushBack (p := ()) rfl) <|
      .cons (.notifyOne (p := ()) rfl (w := ()) (by simp [move])) <|
      .cons (.pushUnlock (p := ()) rfl) <|
      -- the worker executes it
      .cons (.relock (w := ()) rfl (by simp [move, init]) rfl) <|
      .cons (.conditionReady (w := ()) rfl (by simp [Ready, move, init])) <|
      .cons (.popItem (w := ()) rfl rfl) <| .cons (.popUnlock (w := ()) rfl) <|
      .cons (.finish (w := ()) rfl) <|
      -- the pool exits
      .cons (.exitFlag (x := ()) rfl) <| .cons (.exitLock (x := ()) rfl rfl) <|
      .cons (.notifyAll (x := ()) rfl) <| .refl _⟩
    · rfl
    · rfl
  obtain ⟨pool, labels, executed, noted, taken⟩ := run
  exact ⟨pool, labels, executed, noted, taken, (tasks_conserved taken).2.2.2.2.2.2.2.2.2.1⟩

end Runs

end ThreadPool

end Handy
