import Handy.Lib.LabelledRun
import Handy.Lib.Mutex
import Handy.Lib.WorkQueue

/-!
# The thread pool of `ctpl`

The workers of `ctpl::thread_pool` take functors from a queue that has a mutex of its own, so a
`push` or a `pop` of the queue is one step. Another mutex and a condition variable are for the
workers that find nothing to do. `push` puts its functor into the queue first and takes the mutex
only to notify. A worker takes the mutex, tries the queue again, reads `isDone` and its own flag,
and blocks; the mutex is released when it does.

`resize` and `stop` are called by one thread, the control: `resize` starts workers, or sets the
flags of the last ones and lets them go, and `stop` waits for all that are left. The program may
also take functors out of the queue itself, with `pop` or `clear_queue`. A worker is a thread and
not an index, and a functor is named by the call of `push` that brings it.

No functor is lost or doubled, and the workers take them in the order of the pushes
(`functors_conserved`).
-/

set_option autoImplicit false

namespace Handy.Ctpl

/-- Who takes a step: a worker, a call of `push`, the thread that calls `resize` and `stop`, and
the program that takes functors out of the queue. -/
inductive Thread (ω π : Type) where
  | worker (w : ω)
  | caller (p : π)
  | control
  | user
  deriving DecidableEq, Repr

/-- Where a worker is. -/
inductive Worker (π : Type) where
  /-- The thread has not been made. -/
  | absent
  /-- It is to try the queue, without the mutex. -/
  | start
  | run (functor : π)
  /-- It is to read its flag. -/
  | ran
  /-- It is to take the mutex. -/
  | enter
  /-- The condition of `cv.wait` tries the queue. -/
  | test
  /-- The queue was empty, and `isDone` is to be read. -/
  | empty
  /-- `isDone` was false, and the flag is to be read. -/
  | notDone
  /-- The condition was false, and `cv.wait` is to block. -/
  | failed
  /-- In `cv.wait`, without the mutex. -/
  | waiting
  /-- The wait is over, with a functor if there was one. -/
  | leave (taken : Option π)
  | quit
  deriving DecidableEq, Repr

/-- Where a call of `push` is. -/
inductive Caller where
  | idle
  /-- The functor is in the queue, and the mutex is to be taken. -/
  | queued
  | notify
  | leave
  | returned
  deriving DecidableEq, Repr

/-- What is to follow when all workers have been notified. -/
inductive After where
  | resize
  | stop
  deriving DecidableEq, Repr

/-- Where the control is. -/
inductive Control (ω : Type) where
  | idle
  /-- `resize` lets workers go. -/
  | shrinking
  /-- `stop(false)` sets the flags of these workers. -/
  | flagging (left : List ω)
  /-- `stop(false)` empties the queue. -/
  | emptying
  | notifyEnter (after : After)
  | notifyAll (after : After)
  | notifyLeave (after : After)
  /-- `stop` waits for these workers. -/
  | joining (left : List ω)
  /-- `stop` empties the queue when the workers are gone. -/
  | clearing
  deriving DecidableEq, Repr

/-- What became of a functor: it was run, the program took it out of the queue, or `stop` did. -/
inductive Fate where
  | ran
  | taken
  | cleared
  deriving DecidableEq, Repr

namespace Worker

variable {π : Type}

/-- The places at which a worker has the mutex. -/
def locked : Worker π → Bool
  | .test | .empty | .notDone | .failed | .leave _ => true
  | _ => false

/-- The functor that a worker has taken and not finished. -/
def task : Worker π → Option π
  | .leave taken => taken
  | .run functor => some functor
  | _ => none

/-- Where a worker goes on when the wait is over. -/
def afterWait : Option π → Worker π
  | none => .quit
  | some functor => .run functor

theorem locked_afterWait (taken : Option π) : (afterWait taken).locked = false := by
  cases taken <;> rfl

theorem task_afterWait (taken : Option π) : (afterWait taken).task = taken := by
  cases taken <;> rfl

end Worker

/-- The places at which a call of `push` has the mutex. -/
def Caller.locked : Caller → Bool
  | .notify | .leave => true
  | _ => false

/-- The places at which the control has the mutex. -/
def Control.locked {ω : Type} : Control ω → Bool
  | .notifyAll _ | .notifyLeave _ => true
  | _ => false

/-- The pool and its threads; `blocked` holds of the workers that wait to be notified. The last
three fields are histories: the functors in the order of their pushes, in the order in which they
were taken out of the queue, and with what became of them. -/
structure ThreadPool (ω π : Type) where
  q : List π
  isDone : Bool
  isStop : Bool
  flag : ω → Bool
  threads : List ω
  owner : Option (Thread ω π)
  blocked : ω → Bool
  worker : ω → Worker π
  caller : π → Caller
  control : Control ω
  pushed : List π
  dequeued : List π
  ended : List (π × Fate)

namespace ThreadPool

variable {ω π : Type}

/-- The pool when it is made. -/
def init : ThreadPool ω π :=
  ⟨[], false, false, fun _ => false, [], none, fun _ => false, fun _ => .absent, fun _ => .idle,
    .idle, [], [], []⟩

/-- A functor is taken out of the queue and deleted. -/
def drop (pool : ThreadPool ω π) (p : π) (rest : List π) (fate : Fate) : ThreadPool ω π :=
  { pool with q := rest, dequeued := pool.dequeued ++ [p], ended := pool.ended ++ [(p, fate)] }

variable [DecidableEq ω] [DecidableEq π]

/-- A worker goes to another place. -/
def move (pool : ThreadPool ω π) (w : ω) (place : Worker π) : ThreadPool ω π :=
  { pool with worker := Function.update pool.worker w place }

/-- A call of `push` goes to another place. -/
def call (pool : ThreadPool ω π) (p : π) (place : Caller) : ThreadPool ω π :=
  { pool with caller := Function.update pool.caller p place }

/-- A step of a thread. -/
inductive Step (pool : ThreadPool ω π) : Thread ω π → ThreadPool ω π → Prop where
  -- the loop of `set_thread`
  | popFirst {w : ω} (here : pool.worker w = .start) {p : π} {rest : List π}
      (first : pool.q = p :: rest) :
      Step pool (.worker w) { pool.move w (.run p) with
        q := rest, dequeued := pool.dequeued ++ [p] }
  | popNothing {w : ω} (here : pool.worker w = .start) (nothing : pool.q = []) :
      Step pool (.worker w) (pool.move w .enter)
  | finish {w : ω} {p : π} (here : pool.worker w = .run p) :
      Step pool (.worker w) { pool.move w .ran with ended := pool.ended ++ [(p, .ran)] }
  | wanted {w : ω} (here : pool.worker w = .ran) (flag : pool.flag w = false) :
      Step pool (.worker w) (pool.move w .start)
  | unwanted {w : ω} (here : pool.worker w = .ran) (flag : pool.flag w = true) :
      Step pool (.worker w) (pool.move w .quit)
  | lock {w : ω} (here : pool.worker w = .enter) (free : pool.owner = none) :
      Step pool (.worker w) { pool.move w .test with owner := some (.worker w) }
  -- the condition of `cv.wait`
  | testPop {w : ω} (here : pool.worker w = .test) {p : π} {rest : List π}
      (first : pool.q = p :: rest) :
      Step pool (.worker w) { pool.move w (.leave (some p)) with
        q := rest, dequeued := pool.dequeued ++ [p] }
  | testNothing {w : ω} (here : pool.worker w = .test) (nothing : pool.q = []) :
      Step pool (.worker w) (pool.move w .empty)
  | readDone {w : ω} (here : pool.worker w = .empty) (done : pool.isDone = true) :
      Step pool (.worker w) (pool.move w (.leave none))
  | readNotDone {w : ω} (here : pool.worker w = .empty) (notDone : pool.isDone = false) :
      Step pool (.worker w) (pool.move w .notDone)
  | readFlag {w : ω} (here : pool.worker w = .notDone) (flag : pool.flag w = true) :
      Step pool (.worker w) (pool.move w (.leave none))
  | readNoFlag {w : ω} (here : pool.worker w = .notDone) (flag : pool.flag w = false) :
      Step pool (.worker w) (pool.move w .failed)
  | block {w : ω} (here : pool.worker w = .failed) :
      Step pool (.worker w) { pool.move w .waiting with
        owner := none, blocked := Function.update pool.blocked w true }
  | spurious {w : ω} (blocked : pool.blocked w = true) :
      Step pool (.worker w) { pool with blocked := Function.update pool.blocked w false }
  | relock {w : ω} (here : pool.worker w = .waiting) (woken : pool.blocked w = false)
      (free : pool.owner = none) :
      Step pool (.worker w) { pool.move w .test with owner := some (.worker w) }
  | unlock {w : ω} {taken : Option π} (here : pool.worker w = .leave taken) :
      Step pool (.worker w) { pool.move w (.afterWait taken) with owner := none }
  -- `push`
  | push {p : π} (here : pool.caller p = .idle) :
      Step pool (.caller p) { pool.call p .queued with
        q := pool.q ++ [p], pushed := pool.pushed ++ [p] }
  | pushLock {p : π} (here : pool.caller p = .queued) (free : pool.owner = none) :
      Step pool (.caller p) { pool.call p .notify with owner := some (.caller p) }
  | notifyOne {p : π} (here : pool.caller p = .notify) {w : ω} (blocked : pool.blocked w = true) :
      Step pool (.caller p) { pool.call p .leave with
        blocked := Function.update pool.blocked w false }
  | notifyNobody {p : π} (here : pool.caller p = .notify) (nobody : ∀ w, pool.blocked w = false) :
      Step pool (.caller p) (pool.call p .leave)
  | pushUnlock {p : π} (here : pool.caller p = .leave) :
      Step pool (.caller p) { pool.call p .returned with owner := none }
  -- `pop` and `clear_queue`
  | take {p : π} {rest : List π} (first : pool.q = p :: rest) :
      Step pool .user (pool.drop p rest .taken)
  -- `resize`
  | grow {w : ω} (here : pool.control = .idle) (stop : pool.isStop = false)
      (done : pool.isDone = false) (absent : pool.worker w = .absent) :
      Step pool .control { pool.move w .start with
        flag := Function.update pool.flag w false, threads := pool.threads ++ [w] }
  | shrink {w : ω} {front : List ω} (here : pool.control = .idle ∨ pool.control = .shrinking)
      (stop : pool.isStop = false) (done : pool.isDone = false)
      (last : pool.threads = front ++ [w]) :
      Step pool .control { pool with
        flag := Function.update pool.flag w true, threads := front, control := .shrinking }
  | shrunk (here : pool.control = .shrinking) :
      Step pool .control { pool with control := .notifyEnter .resize }
  -- `stop`
  | stopNow (here : pool.control = .idle) (stop : pool.isStop = false) :
      Step pool .control { pool with isStop := true, control := .flagging pool.threads }
  | flagOne {w : ω} {left : List ω} (here : pool.control = .flagging (w :: left)) :
      Step pool .control { pool with
        flag := Function.update pool.flag w true, control := .flagging left }
  | flagged (here : pool.control = .flagging []) :
      Step pool .control { pool with control := .emptying }
  | emptyOne (here : pool.control = .emptying) {p : π} {rest : List π} (first : pool.q = p :: rest) :
      Step pool .control (pool.drop p rest .cleared)
  | emptied (here : pool.control = .emptying) (nothing : pool.q = []) :
      Step pool .control { pool with control := .notifyEnter .stop }
  | stopWait (here : pool.control = .idle) (stop : pool.isStop = false)
      (done : pool.isDone = false) :
      Step pool .control { pool with isDone := true, control := .notifyEnter .stop }
  | notifyLock {after : After} (here : pool.control = .notifyEnter after)
      (free : pool.owner = none) :
      Step pool .control { pool with control := .notifyAll after, owner := some .control }
  | notifyAll {after : After} (here : pool.control = .notifyAll after) :
      Step pool .control { pool with control := .notifyLeave after, blocked := fun _ => false }
  | resized (here : pool.control = .notifyLeave .resize) :
      Step pool .control { pool with control := .idle, owner := none }
  | notified (here : pool.control = .notifyLeave .stop) :
      Step pool .control { pool with control := .joining pool.threads, owner := none }
  | join {w : ω} {left : List ω} (here : pool.control = .joining (w :: left))
      (quit : pool.worker w = .quit) :
      Step pool .control { pool with control := .joining left }
  | joined (here : pool.control = .joining []) :
      Step pool .control { pool with control := .clearing }
  | clearOne (here : pool.control = .clearing) {p : π} {rest : List π} (first : pool.q = p :: rest) :
      Step pool .control (pool.drop p rest .cleared)
  | stopped (here : pool.control = .clearing) (nothing : pool.q = []) :
      Step pool .control { pool with control := .idle, threads := [] }

variable {pool after : ThreadPool ω π} {thread : Thread ω π}

omit [DecidableEq π] in
/-- What places say of their workers stays when a worker goes to a place that says the same. -/
theorem view_move {β : Type} (view : Worker π → β) {w : ω} {place next : Worker π}
    (here : pool.worker w = place) (same : view place = view next) (v : ω) :
    view ((pool.move w next).worker v) = view (pool.worker v) := by
  by_cases moved : v = w
  · subst moved
    rw [here, same]
    simp [move]
  · simp [move, moved]

/-! ## The mutex -/

/-- The thread is at a place at which it has the mutex. -/
def locked (pool : ThreadPool ω π) : Thread ω π → Bool
  | .worker w => (pool.worker w).locked
  | .caller p => (pool.caller p).locked
  | .control => pool.control.locked
  | .user => false

theorem locked_move (w : ω) (next : Worker π) :
    (pool.move w next).locked = Function.update pool.locked (.worker w) next.locked := by
  funext other
  cases other with
  | worker v => by_cases same : v = w <;> simp [locked, move, same]
  | caller _ | control | user => simp [locked, move]

theorem locked_call (p : π) (next : Caller) :
    (pool.call p next).locked = Function.update pool.locked (.caller p) next.locked := by
  funext other
  cases other with
  | caller q => by_cases same : q = p <;> simp [locked, call, same]
  | worker _ | control | user => simp [locked, call]

theorem locked_control (control : Control ω) :
    locked { pool with control := control } =
      Function.update pool.locked .control control.locked := by
  funext other
  cases other with
  | control => simp [locked]
  | worker _ | caller _ | user => simp [locked]

section Moves

variable {w : ω} {p : π}

theorem worker_stays {place next : Worker π} (here : pool.worker w = place)
    (same : place.locked = next.locked) :
    Mutex.Move pool.owner pool.locked (.worker w) pool.owner (pool.move w next).locked := by
  rw [locked_move]
  exact .stay (by rw [locked, here, same])

theorem worker_takes (free : pool.owner = none) (next : Worker π) :
    Mutex.Move pool.owner pool.locked (.worker w) (some (.worker w)) (pool.move w next).locked := by
  rw [locked_move]
  exact .take free

theorem worker_releases {place next : Worker π} (here : pool.worker w = place)
    (inside : place.locked = true) (outside : next.locked = false) :
    Mutex.Move pool.owner pool.locked (.worker w) none (pool.move w next).locked := by
  rw [locked_move, outside]
  exact .release (by rw [locked, here, inside])

theorem caller_stays {place next : Caller} (here : pool.caller p = place)
    (same : place.locked = next.locked) :
    Mutex.Move pool.owner pool.locked (.caller p) pool.owner (pool.call p next).locked := by
  rw [locked_call]
  exact .stay (by rw [locked, here, same])

theorem caller_takes (free : pool.owner = none) (next : Caller) :
    Mutex.Move pool.owner pool.locked (.caller p) (some (.caller p)) (pool.call p next).locked := by
  rw [locked_call]
  exact .take free

theorem caller_releases {place next : Caller} (here : pool.caller p = place)
    (inside : place.locked = true) (outside : next.locked = false) :
    Mutex.Move pool.owner pool.locked (.caller p) none (pool.call p next).locked := by
  rw [locked_call, outside]
  exact .release (by rw [locked, here, inside])

theorem control_stays {place next : Control ω} (here : pool.control = place)
    (same : place.locked = next.locked) :
    Mutex.Move pool.owner pool.locked .control pool.owner
      (locked { pool with control := next }) := by
  rw [show locked { pool with control := next } = _ from locked_control next]
  exact .stay (by rw [locked, here, same])

theorem control_takes (free : pool.owner = none) (next : Control ω) :
    Mutex.Move pool.owner pool.locked .control (some .control)
      (locked { pool with control := next }) := by
  rw [show locked { pool with control := next } = _ from locked_control next]
  exact .take free

theorem control_releases {place next : Control ω} (here : pool.control = place)
    (inside : place.locked = true) (outside : next.locked = false) :
    Mutex.Move pool.owner pool.locked .control none (locked { pool with control := next }) := by
  rw [show locked { pool with control := next } = _ from locked_control next, outside]
  exact .release (by rw [locked, here, inside])

end Moves

/-- What a step does to the mutex. -/
theorem mutex_move (step : Step pool thread after) :
    Mutex.Move pool.owner pool.locked thread after.owner after.locked := by
  cases step with
  | lock _ free | relock _ _ free => exact worker_takes free _
  | block here => exact worker_releases here rfl rfl
  | unlock here => exact worker_releases here rfl (Worker.locked_afterWait _)
  | popFirst here _ | popNothing here _ | finish here | wanted here _ | unwanted here _
  | testPop here _ | testNothing here _ | readDone here _ | readNotDone here _ | readFlag here _
  | readNoFlag here _ => exact worker_stays here rfl
  | spurious _ | take _ | emptyOne _ _ | clearOne _ _ => exact .idle
  | push here | notifyOne here _ | notifyNobody here _ => exact caller_stays here rfl
  | pushLock _ free => exact caller_takes free _
  | pushUnlock here => exact caller_releases here rfl rfl
  | @grow w here stop done absent =>
      have same : (pool.move w .start).locked = pool.locked := by
        rw [locked_move, show Worker.locked (Worker.start : Worker π) =
          pool.locked (.worker w) by rw [locked, absent]; rfl, Function.update_eq_self]
      have moved : Mutex.Move pool.owner pool.locked .control pool.owner
          (pool.move w .start).locked := by
        rw [same]
        exact .idle
      exact moved
  | shrink here _ _ _ =>
      rcases here with here | here
      · exact control_stays here rfl
      · exact control_stays here rfl
  | shrunk here | stopNow here _ | flagOne here | flagged here | emptied here _ | stopWait here _ _
  | notifyAll here | join here _ | joined here | stopped here _ => exact control_stays here rfl
  | notifyLock _ free => exact control_takes free _
  | resized here | notified here => exact control_releases here rfl rfl

/-! ## The functors -/

/-- The functors of the pool, with what each worker has in its hands; `none` is the program, which
takes a functor out of the queue and is through with it. -/
def work (pool : ThreadPool ω π) : WorkQueue (Option ω) π :=
  ⟨pool.q, fun holder => holder.bind fun w => (pool.worker w).task, pool.pushed, pool.dequeued,
    pool.ended.map Prod.fst⟩

/-- The functors that were pushed are those of the calls that have begun. -/
def Recorded (pool : ThreadPool ω π) : Prop := ∀ p, p ∈ pool.pushed ↔ pool.caller p ≠ .idle

omit [DecidableEq ω] in
theorem recorded_call (recorded : pool.Recorded) {p : π} {place next : Caller}
    (here : pool.caller p = place) (begun : place ≠ .idle) (begins : next ≠ .idle) :
    (pool.call p next).Recorded := by
  intro q
  rw [show (pool.call p next).pushed = pool.pushed from rfl, recorded q]
  by_cases same : q = p
  · subst same
    simp [call, here, begun, begins]
  · simp [call, same]

theorem recorded_step (recorded : pool.Recorded) (step : Step pool thread after) :
    after.Recorded := by
  cases step with
  | @push p here =>
      intro q
      by_cases same : q = p
      · subst same
        simp [call]
      · simp [call, same, recorded q]
  | pushLock here _ | notifyOne here _ | notifyNobody here _ | pushUnlock here =>
      exact recorded_call recorded here (by simp) (by simp)
  | _ => exact recorded

omit [DecidableEq π] in
/-- What is in the hands of the workers when one of them has moved. -/
theorem held_move (w : ω) (next : Worker π) :
    (pool.move w next).work.held = Function.update pool.work.held (some w) next.task := by
  funext holder
  cases holder with
  | none => simp [work]
  | some v => by_cases same : v = w <;> simp [work, move, same]

omit [DecidableEq π] in
/-- A worker that goes to a place with the same functor in its hands leaves the functors alone. -/
theorem work_stays {w : ω} {place next : Worker π} (here : pool.worker w = place)
    (same : place.task = next.task) (conserved : pool.work.Conserved) :
    (pool.move w next).work.Conserved := by
  have held : (pool.move w next).work = pool.work := by
    refine WorkQueue.ext rfl ?_ rfl rfl rfl
    rw [held_move, ← same, ← here]
    exact Function.update_eq_self ..
  rwa [held]

omit [DecidableEq π] in
/-- A worker takes the first functor. -/
theorem work_pop {w : ω} {place next : Worker π} {p : π} {rest : List π}
    (here : pool.worker w = place) (free : place.task = none) (holds : next.task = some p)
    (first : pool.q = p :: rest) (conserved : pool.work.Conserved) :
    (work { pool.move w next with q := rest, dequeued := pool.dequeued ++ [p] }).Conserved := by
  have empty : pool.work.held (some w) = none := by simp [work, here, free]
  have taken := conserved.take empty first
  rwa [← show _ = Function.update pool.work.held (some w) (some p) from
    (held_move w next).trans (by rw [holds])] at taken

omit [DecidableEq π] in
/-- The program takes a functor out of the queue. -/
theorem work_drop {p : π} {rest : List π} (first : pool.q = p :: rest) (fate : Fate)
    (conserved : pool.work.Conserved) : (pool.drop p rest fate).work.Conserved := by
  have taken := conserved.take (w := none) rfl first
  have dropped := taken.finish (Function.update_self ..)
  rw [Function.update_idem] at dropped
  have nobody : Function.update pool.work.held none none = pool.work.held :=
    Function.update_eq_self none pool.work.held
  have ended : (pool.drop p rest fate).ended.map Prod.fst = pool.ended.map Prod.fst ++ [p] := by
    simp [drop]
  have same : (pool.drop p rest fate).work = { pool.work with
      queued := rest
      held := Function.update pool.work.held none none
      dequeued := pool.work.dequeued ++ [p]
      executed := pool.work.executed ++ [p] } :=
    WorkQueue.ext rfl nobody.symm rfl rfl ended
  rw [same]
  exact dropped

theorem conserved_step (recorded : pool.Recorded) (conserved : pool.work.Conserved)
    (step : Step pool thread after) : after.work.Conserved := by
  cases step with
  | popFirst here first | testPop here first => exact work_pop here rfl rfl first conserved
  | @finish w p here =>
      have holding : pool.work.held (some w) = some p := by simp [work, here, Worker.task]
      have finished := conserved.finish holding
      have held : (pool.move w .ran).work.held = Function.update pool.work.held (some w) none :=
        held_move w .ran
      have ended : (pool.ended ++ [(p, Fate.ran)]).map Prod.fst = pool.ended.map Prod.fst ++ [p] := by
        simp
      have same : (work { pool.move w .ran with ended := pool.ended ++ [(p, .ran)] }) =
          { pool.work with
            held := Function.update pool.work.held (some w) none
            executed := pool.work.executed ++ [p] } :=
        WorkQueue.ext rfl held rfl rfl ended
      rw [same]
      exact finished
  | @push p here =>
      have fresh : p ∉ pool.work.accepted := by
        intro member
        exact (recorded p).mp member here
      exact conserved.accept fresh
  | take first | emptyOne _ first | clearOne _ first => exact work_drop first _ conserved
  | unlock here => exact work_stays here (Worker.task_afterWait _).symm conserved
  | grow _ _ _ absent => exact work_stays absent rfl conserved
  | lock here _ | relock here _ _ | block here | popNothing here _ | wanted here _ | unwanted here _
  | testNothing here _ | readDone here _ | readNotDone here _ | readFlag here _
  | readNoFlag here _ => exact work_stays here rfl conserved
  | _ => exact conserved

end ThreadPool

open ThreadPool

variable {ω π : Type} [DecidableEq ω] [DecidableEq π]

theorem functors_invariant {labels : List (Thread ω π)} {pool : ThreadPool ω π}
    (run : LabelledRun Step init labels pool) : pool.Recorded ∧ pool.work.Conserved := by
  refine run.invariant (fun pool => pool.Recorded ∧ pool.work.Conserved) ?_ ⟨?_, ?_⟩
  · rintro before label after ⟨recorded, conserved⟩ step
    exact ⟨recorded_step recorded step, conserved_step recorded conserved step⟩
  · intro p
    simp [init]
  · have start : (init : ThreadPool ω π).work = WorkQueue.empty := by
      refine WorkQueue.ext rfl ?_ rfl rfl rfl
      funext holder
      cases holder <;> rfl
    rw [start]
    exact WorkQueue.conserved_empty

/-- **No functor is lost or doubled.** In every run, a functor that was pushed is in the queue, or
with one worker, or has ended in one way, and they leave the queue in the order in which they were
pushed. -/
theorem functors_conserved {labels : List (Thread ω π)} {pool : ThreadPool ω π}
    (run : LabelledRun Step init labels pool) :
    pool.pushed = pool.dequeued ++ pool.q ∧ pool.pushed.Nodup ∧
      (∀ p, pool.caller p ≠ .idle ↔ p ∈ pool.pushed) ∧
      (∀ p, p ∈ pool.dequeued ↔
        (∃ fate, (p, fate) ∈ pool.ended) ∨ ∃ w, (pool.worker w).task = some p) ∧
      (pool.ended.map Prod.fst).Nodup ∧
      (∀ v w p, (pool.worker v).task = some p → (pool.worker w).task = some p → v = w) ∧
      ∀ w p fate, (pool.worker w).task = some p → (p, fate) ∉ pool.ended := by
  obtain ⟨recorded, conserved⟩ := functors_invariant run
  have held : ∀ p, (∃ holder, pool.work.held holder = some p) ↔
      ∃ w, (pool.worker w).task = some p := by
    intro p
    constructor
    · rintro ⟨holder, holds⟩
      cases holder with
      | none => cases holds
      | some w => exact ⟨w, holds⟩
    · rintro ⟨w, holds⟩
      exact ⟨some w, holds⟩
  refine ⟨conserved.order, conserved.distinct, fun p => (recorded p).symm, fun p => ?_,
    conserved.once, fun v w p one other => ?_, fun w p fate holds member => ?_⟩
  · refine (conserved.gone p).trans (or_congr ?_ (held p))
    simp [work]
  · exact Option.some.inj (@WorkQueue.Conserved.single _ _ _ conserved (some v) (some w) p one other)
  · have gone : p ∉ pool.ended.map Prod.fst :=
      @WorkQueue.Conserved.unfinished _ _ _ conserved (some w) p holds
    exact gone (List.mem_map.mpr ⟨_, member, rfl⟩)

/-- A functor that is pushed while there is no worker. -/
theorem functors_conserved_queued : ∃ pool : ThreadPool Unit Unit, pool.q = [()] ∧
    pool.pushed = pool.dequeued ++ pool.q := by
  obtain ⟨pool, labels, run, queued⟩ : ∃ (pool : ThreadPool Unit Unit) (labels : _),
      LabelledRun Step init labels pool ∧ pool.q = [()] :=
    ⟨_, _, .single (.push (p := ()) rfl), rfl⟩
  exact ⟨pool, queued, (functors_conserved run).1⟩

end Handy.Ctpl
