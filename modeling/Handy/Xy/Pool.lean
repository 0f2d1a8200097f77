import Handy.Lib.LabelledRun
import Handy.Lib.Mutex

/-!
# Stopping the thread pool of `xy`

The workers of `xy::ThreadPool` take tasks from a `SafeQueue`, a list with a mutex, a condition
variable and a flag. `push` takes the mutex, but `stop` sets the flag and notifies everybody
without it.

A step is what a thread does between two points at which another thread may come in. A worker has
the mutex from its test of the condition to the moment at which the wait blocks, and `stop` may
come in between: the worker then blocks although it has been notified (`worker_is_stranded`). The
queue is empty then and stays so, unless somebody pushes. No worker is stranded if no `notify_all`
is made while a worker is between its test and its wait (`never_stranded`), and one can be
otherwise (`unheard_strands`).
-/

set_option autoImplicit false

namespace Handy.Xy

/-- The threads: the workers, and whoever makes a call of `addTask` or of `ThreadPool::stop`. -/
inductive Thread (ω π ξ : Type) where
  | worker (w : ω)
  | caller (p : π)
  | stopper (x : ξ)
  deriving DecidableEq, Repr

/-- Where a thread is. -/
inductive Place (π : Type) where
  /-- A worker at the test of `while (!stop_)`. -/
  | top
  /-- `pop_wait` is to take the mutex. -/
  | popEnter
  /-- `cv_.wait` tests its condition. -/
  | test
  /-- The condition was false, and `cv_.wait` is to block. -/
  | failed
  /-- In `cv_.wait`, without the mutex. -/
  | waiting
  /-- The wait is over, and the first task is to be taken. -/
  | popFront
  /-- `pop_wait` returns, with the task it has taken if there was one. -/
  | popLeave (taken : Option π)
  | run (task : π)
  | done
  /-- A call that has not been made. -/
  | idle
  /-- `push` is to take the mutex. -/
  | pushEnter
  | pushBack
  | pushNotify
  | pushLeave
  | pushed
  /-- The flag of the pool is set. -/
  | poolStopped
  /-- So is the flag of the queue. -/
  | queueStopped
  /-- `stop` has notified everybody. -/
  | stopped
  deriving DecidableEq, Repr

namespace Place

variable {π : Type}

/-- The places at which a thread has the mutex. -/
def locked : Place π → Bool
  | .test | .failed | .popFront | .popLeave _ | .pushBack | .pushNotify | .pushLeave => true
  | _ => false

/-- A call of `stop` has set the flag of the queue. -/
def flagged : Place π → Bool
  | .queueStopped | .stopped => true
  | _ => false

/-- Where a worker goes on when `pop_wait` has returned. -/
def afterPop : Option π → Place π
  | none => .top
  | some task => .run task

theorem afterPop_plain (taken : Option π) : (afterPop taken).locked = false ∧
    (afterPop taken).flagged = false ∧ afterPop taken ≠ .failed := by
  cases taken <;> exact ⟨rfl, rfl, nofun⟩

end Place

/-- The pool and its threads; `blocked` holds of the workers that wait to be notified. -/
structure ThreadPool (ω π ξ : Type) where
  tasks : List π
  poolStop : Bool
  queueStop : Bool
  owner : Option (Thread ω π ξ)
  blocked : ω → Bool
  place : Thread ω π ξ → Place π

namespace ThreadPool

variable {ω π ξ : Type}

/-- Where the threads begin. -/
def start : Thread ω π ξ → Place π
  | .worker _ => .top
  | _ => .idle

/-- The pool when it is started. -/
def init : ThreadPool ω π ξ := ⟨[], false, false, none, fun _ => false, start⟩

/-- The condition of `wait_ready`. -/
def Ready (pool : ThreadPool ω π ξ) : Prop := pool.tasks ≠ [] ∨ pool.queueStop = true

variable [DecidableEq ω] [DecidableEq π] [DecidableEq ξ]

/-- A thread goes to another place. -/
def move (pool : ThreadPool ω π ξ) (thread : Thread ω π ξ) (place : Place π) :
    ThreadPool ω π ξ :=
  { pool with place := Function.update pool.place thread place }

/-- A step of a thread. -/
inductive Step (pool : ThreadPool ω π ξ) : Thread ω π ξ → ThreadPool ω π ξ → Prop where
  -- the loop of `ThreadPool::start`
  | again {w : ω} (here : pool.place (.worker w) = .top) (running : pool.poolStop = false) :
      Step pool (.worker w) (pool.move (.worker w) .popEnter)
  | quit {w : ω} (here : pool.place (.worker w) = .top) (stopped : pool.poolStop = true) :
      Step pool (.worker w) (pool.move (.worker w) .done)
  | finish {w : ω} {p : π} (here : pool.place (.worker w) = .run p) :
      Step pool (.worker w) (pool.move (.worker w) .top)
  -- `SafeQueue::pop_wait` and `wait_ready`
  | popLock {w : ω} (here : pool.place (.worker w) = .popEnter) (free : pool.owner = none) :
      Step pool (.worker w) { pool.move (.worker w) .test with owner := some (.worker w) }
  | testReady {w : ω} (here : pool.place (.worker w) = .test) (ready : pool.Ready) :
      Step pool (.worker w) (pool.move (.worker w) .popFront)
  | testUnready {w : ω} (here : pool.place (.worker w) = .test) (unready : ¬ pool.Ready) :
      Step pool (.worker w) (pool.move (.worker w) .failed)
  | block {w : ω} (here : pool.place (.worker w) = .failed) :
      Step pool (.worker w) { pool.move (.worker w) .waiting with
        owner := none, blocked := Function.update pool.blocked w true }
  | spurious {w : ω} (blocked : pool.blocked w = true) :
      Step pool (.worker w) { pool with blocked := Function.update pool.blocked w false }
  | relock {w : ω} (here : pool.place (.worker w) = .waiting) (woken : pool.blocked w = false)
      (free : pool.owner = none) :
      Step pool (.worker w) { pool.move (.worker w) .test with owner := some (.worker w) }
  | popNothing {w : ω} (here : pool.place (.worker w) = .popFront) (empty : pool.tasks = []) :
      Step pool (.worker w) (pool.move (.worker w) (.popLeave none))
  | popTask {w : ω} (here : pool.place (.worker w) = .popFront) {p : π} {rest : List π}
      (first : pool.tasks = p :: rest) :
      Step pool (.worker w) { pool.move (.worker w) (.popLeave (some p)) with tasks := rest }
  | popUnlock {w : ω} {taken : Option π} (here : pool.place (.worker w) = .popLeave taken) :
      Step pool (.worker w) { pool.move (.worker w) (.afterPop taken) with owner := none }
  -- `ThreadPool::addTask` and `SafeQueue::push`
  | addTask {p : π} (here : pool.place (.caller p) = .idle) :
      Step pool (.caller p) (pool.move (.caller p) .pushEnter)
  | pushLock {p : π} (here : pool.place (.caller p) = .pushEnter) (free : pool.owner = none) :
      Step pool (.caller p) { pool.move (.caller p) .pushBack with owner := some (.caller p) }
  | pushBack {p : π} (here : pool.place (.caller p) = .pushBack) :
      Step pool (.caller p) { pool.move (.caller p) .pushNotify with tasks := pool.tasks ++ [p] }
  | notifyOne {p : π} (here : pool.place (.caller p) = .pushNotify) {w : ω}
      (blocked : pool.blocked w = true) :
      Step pool (.caller p) { pool.move (.caller p) .pushLeave with
        blocked := Function.update pool.blocked w false }
  | notifyNobody {p : π} (here : pool.place (.caller p) = .pushNotify)
      (nobody : ∀ w, pool.blocked w = false) :
      Step pool (.caller p) (pool.move (.caller p) .pushLeave)
  | pushUnlock {p : π} (here : pool.place (.caller p) = .pushLeave) :
      Step pool (.caller p) { pool.move (.caller p) .pushed with owner := none }
  -- `ThreadPool::stop` and `SafeQueue::stop`
  | poolFlag {x : ξ} (here : pool.place (.stopper x) = .idle) :
      Step pool (.stopper x) { pool.move (.stopper x) .poolStopped with poolStop := true }
  | queueFlag {x : ξ} (here : pool.place (.stopper x) = .poolStopped) :
      Step pool (.stopper x) { pool.move (.stopper x) .queueStopped with queueStop := true }
  | notifyAll {x : ξ} (here : pool.place (.stopper x) = .queueStopped) :
      Step pool (.stopper x) { pool.move (.stopper x) .stopped with blocked := fun _ => false }

/-- `stop` has returned, the queue is empty and a worker is blocked. -/
def Stranded (pool : ThreadPool ω π ξ) : Prop :=
  (∃ x, pool.place (.stopper x) = .stopped) ∧ pool.tasks = [] ∧
    ∃ w, pool.place (.worker w) = .waiting ∧ pool.blocked w = true

/-- The next step is no `notify_all` that a worker between its test and its wait misses. -/
def Heard (pool : ThreadPool ω π ξ) (thread : Thread ω π ξ) : Prop :=
  ∀ x, thread = .stopper x → pool.place thread = .queueStopped →
    ∀ w, pool.place (.worker w) ≠ .failed

/-- A step that no worker misses. -/
def HeardStep (pool : ThreadPool ω π ξ) (thread : Thread ω π ξ) (after : ThreadPool ω π ξ) : Prop :=
  pool.Heard thread ∧ Step pool thread after

variable {pool after : ThreadPool ω π ξ} {thread : Thread ω π ξ}

/-- A thread that is at a place after another has moved elsewhere was there before. -/
theorem place_of_move {next place : Place π} {other : Thread ω π ξ} (elsewhere : next ≠ place)
    (now : (pool.move thread next).place other = place) : pool.place other = place := by
  by_cases same : other = thread
  · subst same
    simp only [move, Function.update_self] at now
    exact absurd now elsewhere
  · simpa [move, same] using now

/-! ## The workers that have been told -/

/-- A call of `stop` that has set the flag leaves it set, and when it has returned no worker is
blocked or about to block. -/
structure Told (queueStop : Bool) (blocked : ω → Bool) (place : Thread ω π ξ → Place π) : Prop where
  flag : ∀ x, (place (.stopper x)).flagged = true → queueStop = true
  awake : ∀ x w, place (.stopper x) = .stopped →
    place (.worker w) ≠ .failed ∧ blocked w = false

omit [DecidableEq ω] [DecidableEq π] [DecidableEq ξ] in
theorem told_init : Told false (fun _ => false) (start : Thread ω π ξ → Place π) :=
  ⟨nofun, nofun⟩

/-- A thread moves, and a worker may have been woken. -/
theorem told_move (told : Told pool.queueStop pool.blocked pool.place) {next : Place π}
    (unflagged : next.flagged = false) (unfailed : next ≠ .failed) {blocked : ω → Bool}
    (woken : ∀ w, pool.blocked w = false → blocked w = false) :
    Told pool.queueStop blocked (pool.move thread next).place := by
  constructor
  · intro x now
    by_cases same : Thread.stopper x = thread
    · rw [same] at now
      simp [move, unflagged] at now
    · exact told.flag x (by simpa [move, same] using now)
  · intro x w now
    have elsewhere : next ≠ .stopped := by
      rintro rfl
      cases unflagged
    obtain ⟨ready, calm⟩ := told.awake x w (place_of_move elsewhere now)
    exact ⟨fun failed => ready (place_of_move unfailed failed), woken w calm⟩

omit [DecidableEq π] [DecidableEq ξ] in
theorem wakes (w v : ω) (calm : pool.blocked v = false) :
    Function.update pool.blocked w false v = false := by
  by_cases same : v = w
  · subst same
    simp
  · simp [same, calm]

/-- While the flag is clear, nothing has been promised. -/
theorem told_of_clear (told : Told pool.queueStop pool.blocked pool.place)
    (clear : pool.queueStop = false) {next : Place π} (unflagged : next.flagged = false)
    {blocked : ω → Bool} : Told pool.queueStop blocked (pool.move thread next).place := by
  have unset : ∀ x, ((pool.move thread next).place (.stopper x)).flagged = false := by
    intro x
    by_cases same : Thread.stopper x = thread
    · rw [same]
      simpa [move] using unflagged
    · have before : ¬ (pool.place (.stopper x)).flagged = true := fun flagged =>
        Bool.false_ne_true (clear.symm.trans (told.flag x flagged))
      simpa [move, same] using before
  refine ⟨fun x now => ?_, fun x w now => ?_⟩
  · rw [unset x] at now
    cases now
  · have flagged := unset x
    rw [now] at flagged
    cases flagged

theorem told_step (told : Told pool.queueStop pool.blocked pool.place)
    (step : HeardStep pool thread after) : Told after.queueStop after.blocked after.place := by
  obtain ⟨heard, step⟩ := step
  cases step with
  | testUnready here unready =>
      have clear : pool.queueStop = false := by
        simpa [Ready] using fun set => unready (.inr set)
      exact told_of_clear told clear rfl
  | @block w here =>
      refine ⟨?_, ?_⟩
      · intro x now
        exact told.flag x (by simpa [move] using now)
      · intro x v now
        have stopped : pool.place (.stopper x) = .stopped := by simpa [move] using now
        exact absurd here (told.awake x w stopped).1
  | spurious _ =>
      refine ⟨told.flag, fun x v now => ?_⟩
      obtain ⟨ready, calm⟩ := told.awake x v now
      exact ⟨ready, wakes _ v calm⟩
  | notifyOne here blocked => exact told_move told rfl (by simp) (wakes _)
  | @queueFlag x here =>
      refine ⟨fun _ _ => rfl, fun y w now => ?_⟩
      obtain ⟨ready, calm⟩ := told.awake y w (place_of_move (by simp) now)
      exact ⟨ready, calm⟩
  | @notifyAll x here =>
      refine ⟨fun _ _ => told.flag x (by rw [here]; rfl), fun y w now => ⟨?_, rfl⟩⟩
      intro failed
      exact heard x rfl here w failed
  | popUnlock here =>
      exact told_move told (Place.afterPop_plain _).2.1 (Place.afterPop_plain _).2.2 fun _ => id
  | again _ _ | quit _ _ | finish _ | popLock _ _ | testReady _ _ | relock _ _ _ | popNothing _ _
  | popTask _ _ | addTask _ | pushLock _ _ | pushBack _ | notifyNobody _ _ | pushUnlock _
  | poolFlag _ => exact told_move told rfl (by simp) fun _ => id

/-- **Stopping the pool strands no worker**, in any run in which no worker is between its test and
its wait when `notify_all` is made. -/
theorem never_stranded {threads : List (Thread ω π ξ)}
    (run : LabelledRun HeardStep init threads pool) : ¬ pool.Stranded := by
  have told := run.invariant (fun pool => Told pool.queueStop pool.blocked pool.place)
    (fun _ _ _ => told_step) told_init
  rintro ⟨⟨x, stopped⟩, -, w, -, blocked⟩
  rw [(told.awake x w stopped).2] at blocked
  cases blocked

omit [DecidableEq ω] [DecidableEq π] [DecidableEq ξ] in
theorem heard_worker (pool : ThreadPool ω π ξ) (w : ω) : pool.Heard (.worker w) :=
  fun _ other => by cases other

/-- One worker, and a call of `stop` that is made while it is waiting. -/
theorem never_stranded_woken : ∃ pool : ThreadPool Unit Unit Unit,
    pool.place (.stopper ()) = .stopped ∧ ¬ pool.Stranded := by
  obtain ⟨pool, threads, run, stopped⟩ : ∃ (pool : ThreadPool Unit Unit Unit) (threads : _),
      LabelledRun HeardStep init threads pool ∧ pool.place (.stopper ()) = .stopped := by
    refine ⟨_, _, .cons ⟨heard_worker _ (), .again rfl rfl⟩ <|
      .cons ⟨heard_worker _ (), .popLock rfl rfl⟩ <|
      .cons ⟨heard_worker _ (), .testUnready rfl (by simp [Ready, init, move])⟩ <|
      .cons ⟨heard_worker _ (), .block rfl⟩ <|
      .cons ⟨fun _ _ here => (by cases here), .poolFlag (x := ()) rfl⟩ <|
      .cons ⟨fun _ _ here => (by cases here), .queueFlag (x := ()) rfl⟩ <|
      .cons ⟨fun _ _ _ _ failed => (by cases failed), .notifyAll (x := ()) rfl⟩ (.refl _), rfl⟩
  exact ⟨pool, stopped, never_stranded run⟩

/-! ## A notification that is missed -/

/-- The thread is at a place at which it has the mutex. -/
def locked (pool : ThreadPool ω π ξ) (thread : Thread ω π ξ) : Bool := (pool.place thread).locked

theorem locked_move (thread : Thread ω π ξ) (next : Place π) :
    (pool.move thread next).locked = Function.update pool.locked thread next.locked := by
  funext other
  by_cases same : other = thread
  · subst same
    simp [locked, move]
  · simp [locked, move, same]

section Moves

variable {place next : Place π}

theorem mutex_stays (here : pool.place thread = place) (same : place.locked = next.locked) :
    Mutex.Move pool.owner pool.locked thread pool.owner (pool.move thread next).locked := by
  rw [locked_move]
  exact .stay (by rw [locked, here, same])

theorem mutex_taken (free : pool.owner = none) :
    Mutex.Move pool.owner pool.locked thread (some thread) (pool.move thread next).locked := by
  rw [locked_move]
  exact .take free

theorem mutex_released (here : pool.place thread = place) (inside : place.locked = true)
    (outside : next.locked = false) :
    Mutex.Move pool.owner pool.locked thread none (pool.move thread next).locked := by
  rw [locked_move, outside]
  exact .release (by rw [locked, here, inside])

end Moves

/-- What a step does to the mutex. -/
theorem mutex_move (step : Step pool thread after) :
    Mutex.Move pool.owner pool.locked thread after.owner after.locked := by
  cases step with
  | spurious _ => exact .idle
  | popLock _ free | relock _ _ free | pushLock _ free => exact mutex_taken free
  | block here | pushUnlock here => exact mutex_released here rfl rfl
  | popUnlock here => exact mutex_released here rfl (Place.afterPop_plain _).1
  | again here _ | quit here _ | finish here | testReady here _ | testUnready here _
  | popNothing here _ | popTask here _ | addTask here | pushBack here | notifyOne here _
  | notifyNobody here _ | poolFlag here | queueFlag here | notifyAll here =>
      exact mutex_stays here rfl

/-- The mutex is exclusive, and the queue is empty while a worker is between its test and its
wait. -/
structure Sound (pool : ThreadPool ω π ξ) : Prop where
  exclusive : Mutex.Exclusive pool.owner pool.locked
  empty : ∀ w, pool.place (.worker w) = .failed → pool.tasks = []

omit [DecidableEq ω] [DecidableEq π] [DecidableEq ξ] in
theorem sound_init : (init : ThreadPool ω π ξ).Sound := by
  refine ⟨fun thread inside => ?_, nofun⟩
  cases thread <;> cases inside

omit [DecidableEq ω] [DecidableEq π] [DecidableEq ξ] in
/-- Nobody else changes the queue while a worker is between its test and its wait. -/
theorem Sound.alone (sound : pool.Sound) {w : ω} (failed : pool.place (.worker w) = .failed)
    (inside : pool.locked thread = true) : thread = .worker w :=
  sound.exclusive.unique inside (by rw [locked, failed]; rfl)

theorem Sound.step (sound : pool.Sound) (step : Step pool thread after) : after.Sound := by
  refine ⟨sound.exclusive.move (mutex_move step), fun v failed => ?_⟩
  cases step with
  | testUnready here unready =>
      by_contra something
      exact unready (.inl something)
  | @popTask w here p rest first =>
      by_cases same : v = w
      · subst same
        simp [move] at failed
      · have before : pool.place (.worker v) = .failed := by simpa [move, same] using failed
        have moving := sound.alone before (show pool.locked (.worker w) = true by rw [locked, here]; rfl)
        exact absurd (Thread.worker.inj moving).symm same
  | @pushBack p here =>
      cases sound.alone failed (show pool.locked (.caller p) = true by rw [locked, here]; rfl)
  | popUnlock here => exact sound.empty v (place_of_move (Place.afterPop_plain _).2.2 failed)
  | again _ _ | quit _ _ | finish _ | popLock _ _ | testReady _ _ | block _ | relock _ _ _
  | popNothing _ _ => exact sound.empty v (place_of_move (by simp) failed)
  | spurious _ | addTask _ | pushLock _ _ | notifyOne _ _ | notifyNobody _ _ | pushUnlock _
  | poolFlag _ | queueFlag _ | notifyAll _ => exact sound.empty v failed

/-- **A worker that misses the `notify_all` is stranded** by the two next steps. -/
theorem unheard_strands {threads : List (Thread ω π ξ)} (run : LabelledRun Step init threads pool)
    (unheard : ¬ pool.Heard thread) :
    ∃ more last, LabelledRun Step pool more last ∧ last.Stranded := by
  have sound := run.invariant Sound (fun _ _ _ sound step => sound.step step) sound_init
  simp only [Heard, not_forall, not_not] at unheard
  obtain ⟨x, rfl, here, w, failed⟩ := unheard
  refine ⟨_, _, .cons (.notifyAll here) (.single (.block (w := w) ?_)), ⟨x, ?_⟩, ?_, w, ?_, ?_⟩
  · simpa [move] using failed
  · simp [move]
  · exact sound.empty w failed
  · simp [move]
  · simp

/-- A worker has found the queue empty when the pool is stopped. -/
theorem worker_is_stranded : ∃ (pool : ThreadPool Unit Unit Unit) (threads : _),
    LabelledRun Step init threads pool ∧ pool.Stranded := by
  refine ⟨_, _, .cons (.again (w := ()) rfl rfl) <| .cons (.popLock (w := ()) rfl rfl) <|
    .cons (.testUnready (w := ()) rfl (by simp [Ready, init, move])) <|
    .cons (.poolFlag (x := ()) rfl) <| .cons (.queueFlag (x := ()) rfl) <|
    .cons (.notifyAll (x := ()) rfl) <| .cons (.block (w := ()) rfl) (.refl _),
    ⟨(), rfl⟩, rfl, (), rfl, rfl⟩

end ThreadPool

end Handy.Xy
