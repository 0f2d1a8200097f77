import Handy.Lib.LabelledRun
import Handy.Lib.WorkQueue

/-!
# Tasks from other threads

`EventsImp::safeCall` pushes a task into a `SafeQueue` and writes a byte to the wakeup pipe;
`wakeup` and `exit` write the byte alone. The loop thread waits in the poller, calls the
handlers of what is reported, and runs the timers. The handler of the pipe reads up to 1024
bytes and then runs tasks until the queue is empty. Callbacks and tasks on the loop thread may
make calls of their own, and then it is the loop thread that writes.

The pushes and pops are single steps, since they are made under the mutex of the queue. The
queue has the capacity given to the `EventBase`, where zero is no limit, and a push that finds
it full loses its task. The pipe has some capacity; the write blocks when it is full, since
only the end for reading is made non-blocking.

Tasks are run once and in order, and a thread that waits in the poller while there are tasks
is going to be woken (`tasks_run_in_order`). The loop thread can block in its own
write for ever (`loop_blocks_itself`), unless the calls leave room in the pipe
(`loop_never_blocks`).
-/

set_option autoImplicit false

namespace Handy

/-- What the loop thread runs of the user: a handler or timer, or a task of the queue. -/
inductive LoopCode (τ : Type) where
  | callback
  | task (t : τ)
  deriving DecidableEq, Repr

/-- Where the loop thread is. A call of a thread has a task, or none for a bare `wakeup`. -/
inductive LoopPlace (τ : Type) where
  /-- In `epoll_wait`. -/
  | polling
  /-- Between two handlers. -/
  | round
  /-- The handler of the pipe is to read. -/
  | handler
  /-- `while (tasks_.pop_wait(&task, 0))`. -/
  | draining
  | user (code : LoopCode τ)
  /-- User code has pushed, and is to write. -/
  | writing (code : LoopCode τ) (call : Option τ)
  /-- The fatal error of the read. -/
  | aborted
  deriving DecidableEq, Repr

/-- The task that the loop thread has taken and not finished. -/
def LoopPlace.task {τ : Type} : LoopPlace τ → Option τ
  | .user (.task t) | .writing (.task t) _ => some t
  | _ => none

/-- The loop thread is going to look at the queue, or to wake itself. -/
def LoopPlace.active {τ : Type} : LoopPlace τ → Bool
  | .draining | .user (.task _) | .writing _ _ => true
  | _ => false

/-- The queue, the pipe and the threads. `posting` holds the calls of other threads between
their push and their write, and `reported` says that the poller has reported the pipe in this
round. The last fields are histories. -/
structure Wakeup (τ : Type) where
  tasks : List τ
  bytes : ℕ
  reported : Bool
  posting : List (Option τ)
  loop : LoopPlace τ
  accepted : List τ
  refused : List τ
  dequeued : List τ
  executed : List τ

namespace Wakeup

variable {τ : Type}

/-- `loop` is called on a new `EventBase`. -/
def init : Wakeup τ :=
  ⟨[], 0, false, [], .polling, [], [], [], []⟩

/-- `tasks_.push(move(task))`; its result is ignored. A bare `wakeup` pushes nothing. -/
def push (limit : ℕ) (base : Wakeup τ) : Option τ → Wakeup τ
  | none => base
  | some t =>
      if limit ≠ 0 ∧ limit ≤ base.tasks.length then { base with refused := base.refused ++ [t] }
      else { base with tasks := base.tasks ++ [t], accepted := base.accepted ++ [t] }

/-- Tasks are named, and each call brings a new one. -/
def Fresh (base : Wakeup τ) (call : Option τ) : Prop :=
  ∀ t, call = some t → t ∉ base.accepted ∧ t ∉ base.refused

/-- The steps: the push and the write of a call by another thread or by the loop thread, and
the other steps of the loop thread. -/
inductive Label (τ : Type) where
  | post (call : Option τ)
  | write (call : Option τ)
  | selfPost (call : Option τ)
  | selfWrite
  | loop
  deriving DecidableEq, Repr

/-- The task of a call that begins. -/
def Label.posted : Label τ → Option τ
  | .post call | .selfPost call => call
  | _ => none

variable [DecidableEq τ]

/-- A step, with a task queue and a pipe of the given sizes. -/
inductive Step (limit capacity : ℕ) (base : Wakeup τ) : Label τ → Wakeup τ → Prop where
  -- `safeCall` and `wakeup` in other threads
  | post {call : Option τ} (fresh : base.Fresh call) :
      Step limit capacity base (.post call)
        { base.push limit call with posting := call :: base.posting }
  | write {call : Option τ} (posted : call ∈ base.posting) (room : base.bytes < capacity) :
      Step limit capacity base (.write call)
        { base with bytes := base.bytes + 1, posting := base.posting.erase call }
  -- and in the loop thread
  | selfPost {code : LoopCode τ} {call : Option τ} (here : base.loop = .user code)
      (fresh : base.Fresh call) :
      Step limit capacity base (.selfPost call)
        { base.push limit call with loop := .writing code call }
  | selfWrite {code : LoopCode τ} {call : Option τ} (here : base.loop = .writing code call)
      (room : base.bytes < capacity) :
      Step limit capacity base .selfWrite
        { base with bytes := base.bytes + 1, loop := .user code }
  -- `loop_once`
  | poll {reported : Bool} (here : base.loop = .polling)
      (readable : reported = true → 0 < base.bytes) :
      Step limit capacity base .loop { base with loop := .round, reported := reported }
  | callback (here : base.loop = .round) :
      Step limit capacity base .loop { base with loop := .user .callback }
  | callbackEnd (here : base.loop = .user .callback) :
      Step limit capacity base .loop { base with loop := .round }
  | roundEnd (here : base.loop = .round) (handled : base.reported = false) :
      Step limit capacity base .loop { base with loop := .polling }
  -- the handler of the pipe
  | handle (here : base.loop = .round) (reported : base.reported = true) :
      Step limit capacity base .loop { base with loop := .handler, reported := false }
  | read (here : base.loop = .handler) (readable : 0 < base.bytes) :
      Step limit capacity base .loop
        { base with loop := .draining, bytes := base.bytes - min base.bytes 1024 }
  | interrupted (here : base.loop = .handler) :
      Step limit capacity base .loop { base with loop := .round }
  | readFails (here : base.loop = .handler) (empty : base.bytes = 0) :
      Step limit capacity base .loop { base with loop := .aborted }
  | pop (here : base.loop = .draining) {t : τ} {rest : List τ} (first : base.tasks = t :: rest) :
      Step limit capacity base .loop
        { base with loop := .user (.task t), tasks := rest, dequeued := base.dequeued ++ [t] }
  | taskEnd {t : τ} (here : base.loop = .user (.task t)) :
      Step limit capacity base .loop
        { base with loop := .draining, executed := base.executed ++ [t] }
  | drained (here : base.loop = .draining) (empty : base.tasks = []) :
      Step limit capacity base .loop { base with loop := .round }

section Tasks

variable {limit capacity : ℕ} {base after : Wakeup τ} {label : Label τ}

/-! ## Tasks are run once and in order -/

/-- The tasks, with the one that the loop thread has in its hands. -/
def work (base : Wakeup τ) : WorkQueue Unit τ :=
  ⟨base.tasks, fun _ => base.loop.task, base.accepted, base.dequeued, base.executed⟩

omit [DecidableEq τ] in
/-- A push adds its task to the queue of work, or does nothing to it. -/
theorem push_work {call : Option τ} (fresh : base.Fresh call) :
    WorkQueue.Move base.work (base.push limit call).work := by
  fun_cases push limit base call with
  | case1 => exact .idle
  | case2 t full => exact .idle
  | case3 t space => exact .accept (fresh t rfl).1

omit [DecidableEq τ] in
theorem push_loop (call : Option τ) : (base.push limit call).loop = base.loop := by
  fun_cases push limit base call <;> rfl

omit [DecidableEq τ] in
/-- A place with the same task in hands. -/
theorem work_moved {loop : LoopPlace τ} (held : loop.task = base.loop.task) :
    { base with loop := loop }.work = base.work :=
  WorkQueue.ext rfl (funext fun _ => held) rfl rfl rfl

/-- What a step does to the tasks. -/
theorem work_move (step : Step limit capacity base label after) :
    WorkQueue.Move base.work after.work := by
  have stays {loop : LoopPlace τ} (held : loop.task = base.loop.task) :
      WorkQueue.Move base.work { base with loop := loop }.work := by
    rw [work_moved held]
    exact .idle
  have only (held : Option τ) : Function.update base.work.held () held = fun _ => held :=
    funext fun _ => Function.update_self ..
  cases step with
  | post fresh => exact push_work fresh
  | write _ _ => exact .idle
  | @selfPost code call here fresh =>
      have held : (LoopPlace.writing code call).task = (base.push limit call).loop.task := by
        rw [push_loop, here]
        cases code <;> rfl
      have pushed : WorkQueue.Move base.work (base.push limit call).work := push_work fresh
      rwa [← work_moved held] at pushed
  | @selfWrite code call here room => exact stays (by rw [here]; cases code <;> rfl)
  | @pop here t rest first =>
      have free : base.work.held () = none := by simp [work, here, LoopPlace.task]
      have taken := WorkQueue.Move.take free first
      rwa [only] at taken
  | @taskEnd t here =>
      have holding : base.work.held () = some t := by simp [work, here, LoopPlace.task]
      have finished := WorkQueue.Move.finish holding
      rwa [only] at finished
  | poll here _ | callback here | callbackEnd here | roundEnd here _ | handle here _ | read here _
  | interrupted here | readFails here _ | drained here _ => exact stays (by rw [here]; rfl)

/-! ## Nobody sleeps on tasks -/

/-- There is nothing in the queue, or the loop thread is going to know. -/
def Noticed (base : Wakeup τ) : Prop :=
  base.tasks ≠ [] → 0 < base.bytes ∨ (∃ t, some t ∈ base.posting) ∨ base.loop.active = true

theorem noticed_step (noticed : base.Noticed) (step : Step limit capacity base label after) :
    after.Noticed := by
  cases step with
  | @post call fresh =>
      cases call with
      | some t => exact fun _ => .inr (.inl ⟨t, List.mem_cons_self⟩)
      | none =>
          intro some
          rcases noticed some with written | ⟨t, posted⟩ | active
          · exact .inl written
          · exact .inr (.inl ⟨t, List.mem_cons_of_mem _ posted⟩)
          · exact .inr (.inr active)
  | write _ _ | selfWrite _ _ => exact fun _ => .inl (Nat.succ_pos _)
  | selfPost _ _ | read _ _ | pop _ _ | taskEnd _ => exact fun _ => .inr (.inr rfl)
  | drained here empty => exact fun some => absurd empty some
  | poll here _ | callback here | callbackEnd here | roundEnd here _ | handle here _
  | interrupted here | readFails here _ =>
      intro some
      rcases noticed some with written | posted | active
      · exact .inl written
      · exact .inr (.inl posted)
      · rw [here] at active
        cases active

/-- The handler of the pipe is called when there is something to read, since only it reads. -/
structure Readable (base : Wakeup τ) : Prop where
  reported : base.reported = true → 0 < base.bytes
  handler : base.loop = .handler → 0 < base.bytes ∧ base.reported = false
  sane : base.loop ≠ .aborted

omit [DecidableEq τ] in
theorem push_bytes (call : Option τ) : (base.push limit call).bytes = base.bytes := by
  fun_cases push limit base call <;> rfl

omit [DecidableEq τ] in
theorem push_reported (call : Option τ) : (base.push limit call).reported = base.reported := by
  fun_cases push limit base call <;> rfl

theorem readable_step (readable : base.Readable) (step : Step limit capacity base label after) :
    after.Readable := by
  obtain ⟨reported, handler, sane⟩ := readable
  cases step with
  | post _ =>
      refine ⟨?_, ?_, ?_⟩
      · simpa [push_bytes, push_reported] using reported
      · simpa [push_bytes, push_reported, push_loop] using handler
      · simpa [push_loop] using sane
  | write _ _ => exact ⟨fun _ => Nat.succ_pos _, fun here => ⟨Nat.succ_pos _, (handler here).2⟩, sane⟩
  | selfPost here _ =>
      exact ⟨by simpa [push_bytes, push_reported] using reported, nofun, nofun⟩
  | selfWrite _ _ => exact ⟨fun _ => Nat.succ_pos _, nofun, nofun⟩
  | poll here ready => exact ⟨ready, nofun, nofun⟩
  | handle here noted => exact ⟨nofun, fun _ => ⟨reported noted, rfl⟩, nofun⟩
  | read here _ =>
      refine ⟨fun noted => ?_, nofun, nofun⟩
      exact absurd noted (by simp [(handler here).2])
  | readFails here empty => exact absurd empty (handler here).1.ne'
  | callback _ | callbackEnd _ | roundEnd _ _ | interrupted _ | pop _ _ | taskEnd _
  | drained _ _ => exact ⟨reported, nofun, nofun⟩

/-- What holds of the queue and the pipe at all times. -/
structure Sound (base : Wakeup τ) : Prop where
  conserved : base.work.Conserved
  sequential : base.work.Sequential
  noticed : base.Noticed
  readable : base.Readable

omit [DecidableEq τ] in
theorem sound_init : (init : Wakeup τ).Sound :=
  { conserved := WorkQueue.conserved_empty
    sequential := rfl
    noticed := fun some => absurd rfl some
    readable := ⟨nofun, nofun, nofun⟩ }

theorem Sound.step (sound : base.Sound) (step : Step limit capacity base label after) :
    after.Sound :=
  { conserved := sound.conserved.move (work_move step)
    sequential := sound.sequential.move (work_move step)
    noticed := noticed_step sound.noticed step
    readable := readable_step sound.readable step }

theorem sound_of_run {labels : List (Label τ)}
    (run : LabelledRun (Step limit capacity) init labels base) : base.Sound :=
  run.invariant Sound (fun _ _ _ sound step => sound.step step) sound_init

/-- Without a limit no task is refused. -/
theorem refused_step (unlimited : limit = 0) (none : base.refused = [])
    (step : Step limit capacity base label after) : after.refused = [] := by
  have pushed (call : Option τ) : (base.push limit call).refused = [] := by
    fun_cases push limit base call with
    | case1 => exact none
    | case2 t full => exact absurd unlimited full.1
    | case3 t space => exact none
  cases step with
  | post _ | selfPost _ _ => exact pushed _
  | _ => exact none

theorem refused_of_run {labels : List (Label τ)}
    (run : LabelledRun (Step 0 capacity) init labels base) : base.refused = [] :=
  run.invariant (fun base => base.refused = []) (fun _ _ _ => refused_step rfl) rfl

/-- Without a limit every call pushes its task. -/
theorem accepted_step (step : Step 0 capacity base label after) :
    after.accepted = base.accepted ++ label.posted.toList := by
  have pushed (call : Option τ) : (base.push 0 call).accepted = base.accepted ++ call.toList := by
    fun_cases push 0 base call with
    | case1 => exact (List.append_nil _).symm
    | case2 t full => exact absurd rfl full.1
    | case3 t space => rfl
  cases step with
  | post _ | selfPost _ _ => exact pushed _
  | _ => exact (List.append_nil _).symm

/-- **No task is lost, doubled or overtaken.** With an unlimited task queue, whatever the
threads do: no push is refused, and the tasks that were pushed are those of the calls, in the order
in which these began; the tasks that were run, the one that is running and those in
the queue are, in order, those that were pushed, without repetition; and if the loop thread
waits in the poller while the queue is not empty, then there is a byte in the pipe, or a thread
is between its push and its write. The handler never finds the pipe empty. -/
theorem tasks_run_in_order {labels : List (Label τ)}
    (run : LabelledRun (Step 0 capacity) init labels base) :
    base.refused = [] ∧ base.accepted = labels.filterMap Label.posted ∧
    base.accepted = base.executed ++ base.loop.task.toList ++ base.tasks ∧ base.accepted.Nodup ∧
    (base.loop = .polling → base.tasks ≠ [] → 0 < base.bytes ∨ ∃ t, some t ∈ base.posting) ∧
    base.loop ≠ .aborted := by
  have sound := sound_of_run run
  have order : base.accepted = base.dequeued ++ base.tasks := sound.conserved.order
  have sequential : base.dequeued = base.executed ++ base.loop.task.toList := sound.sequential
  refine ⟨refused_of_run run, run.history accepted Label.posted fun _ _ _ => accepted_step,
    by rw [order, sequential], sound.conserved.distinct,
    fun here some => ?_, sound.readable.sane⟩
  rcases sound.noticed some with written | posted | active
  · exact .inl written
  · exact .inr posted
  · rw [here] at active
    cases active

/-- A thread posts a task, which posts another; a third is posted, not yet written, when the
loop thread is back in the poller. -/
theorem tasks_run_in_order_nested : ∃ (base : Wakeup ℕ) (labels : List (Label ℕ)),
    LabelledRun (Step 0 1) init labels base ∧ base.loop = .polling ∧ base.executed = [1, 2] ∧
    base.tasks = [3] ∧ (0 < base.bytes ∨ ∃ t, some t ∈ base.posting) := by
  have run : ∃ (base : Wakeup ℕ) (labels : List (Label ℕ)), base.loop = .polling ∧
      base.executed = [1, 2] ∧ base.tasks = [3] ∧ LabelledRun (Step 0 1) init labels base := by
    have fresh {base : Wakeup ℕ} {n : ℕ} (new : n ∉ base.accepted ∧ n ∉ base.refused) :
        base.Fresh (some n) := by
      rintro t ⟨⟩
      exact new
    refine ⟨_, _, ?_, ?_, ?_,
      .cons (@Step.post _ _ _ _ _ (some 1) (fresh (by decide))) <|
      .cons (@Step.write _ _ _ _ _ (some 1) (by decide) (by decide)) <|
      .cons (@Step.poll _ _ _ _ _ true rfl (fun _ => by decide)) <| .cons (.handle rfl rfl) <|
      .cons (.read rfl (by decide)) <| .cons (.pop rfl rfl) <|
      -- the first task posts the second
      .cons (@Step.selfPost _ _ _ _ _ _ (some 2) rfl (fresh (by decide))) <|
      .cons (.selfWrite rfl (by decide)) <| .cons (.taskEnd rfl) <|
      .cons (.pop rfl rfl) <| .cons (.taskEnd rfl) <| .cons (.drained rfl rfl) <|
      .cons (.roundEnd rfl rfl) <|
      .cons (@Step.post _ _ _ _ _ (some 3) (fresh (by decide))) <| .refl _⟩
    · rfl
    · rfl
    · rfl
  obtain ⟨base, labels, here, executed, tasks, taken⟩ := run
  refine ⟨base, labels, taken, here, executed, tasks, ?_⟩
  exact (tasks_run_in_order taken).2.2.2.2.1 here (by simp [tasks])

end Tasks

/-! ## The loop thread and its own pipe -/

section Blocking

variable {limit capacity : ℕ} {base after : Wakeup τ} {label : Label τ}

/-- The loop thread is at a write to the full pipe. -/
def Blocked (capacity : ℕ) (base : Wakeup τ) : Prop :=
  ∃ code call, base.loop = .writing code call ∧ capacity ≤ base.bytes

/-- Nobody else reads the pipe, so a blocked loop thread is blocked for ever. -/
theorem blocked_step (blocked : base.Blocked capacity)
    (step : Step limit capacity base label after) : after.Blocked capacity := by
  obtain ⟨code, call, here, full⟩ := blocked
  cases step with
  | post _ => exact ⟨code, call, (push_loop _).trans here, (push_bytes _).symm ▸ full⟩
  | write _ room => exact absurd full (not_le.mpr room)
  | selfWrite _ room => exact absurd full (not_le.mpr room)
  | selfPost there _ | poll there _ | callback there | callbackEnd there | roundEnd there _
  | handle there _ | read there _ | interrupted there | readFails there _ | pop there _
  | taskEnd there | drained there _ =>
      rw [here] at there
      cases there

/-- Room is left in the pipe when a call is begun: a byte for the call, one for each call that
is under way, and one for the loop thread if it is going to write. -/
def Sparing (capacity : ℕ) (base : Wakeup τ) : Label τ → Prop
  | .post _ => ∀ code call, base.loop = .writing code call →
      base.bytes + base.posting.length + 1 < capacity
  | .selfPost _ => base.bytes + base.posting.length < capacity
  | _ => True

/-- While the loop thread is going to write, the calls under way leave it room. -/
def Spared (capacity : ℕ) (base : Wakeup τ) : Prop :=
  ∀ code call, base.loop = .writing code call → base.bytes + base.posting.length < capacity

omit [DecidableEq τ] in
theorem push_posting (call : Option τ) : (base.push limit call).posting = base.posting := by
  fun_cases push limit base call <;> rfl

theorem spared_step (spared : base.Spared capacity) (sparing : base.Sparing capacity label)
    (step : Step limit capacity base label after) : after.Spared capacity := by
  intro code call now
  cases step with
  | @post posted _ =>
      have here : base.loop = .writing code call := (push_loop posted).symm.trans now
      have room := sparing code call here
      simp only [push_bytes, List.length_cons]
      omega
  | @write written posted room =>
      have before := spared code call now
      have length := List.length_erase_of_mem posted
      have some : 0 < base.posting.length := List.length_pos_of_mem posted
      simp only [length]
      omega
  | selfPost _ _ =>
      simp only [push_bytes, push_posting]
      exact sparing
  | selfWrite _ _ | poll _ _ | callback _ | callbackEnd _ | roundEnd _ _ | handle _ _ | read _ _
  | interrupted _ | readFails _ _ | pop _ _ | taskEnd _ | drained _ _ => cases now

/-- The calls under way can fill the pipe before the loop thread comes to write. -/
theorem blocks_of_crowded {code : LoopCode τ} {call : Option τ}
    (here : base.loop = .writing code call) (crowded : capacity ≤ base.bytes + base.posting.length) :
    ∃ more later, LabelledRun (Step limit capacity) base more later ∧ later.Blocked capacity := by
  induction count : base.posting.length generalizing base with
  | zero => exact ⟨[], base, .refl base, code, call, here, by omega⟩
  | succ count ih =>
      by_cases room : base.bytes < capacity
      · obtain ⟨first, posting⟩ : ∃ first, first ∈ base.posting :=
          List.exists_mem_of_length_pos (by omega)
        have length := List.length_erase_of_mem posting
        have written : Step limit capacity base (.write first) _ := .write posting room
        have again : ∃ more later, LabelledRun (Step limit capacity) { base with
            bytes := base.bytes + 1, posting := base.posting.erase first } more later ∧
            later.Blocked capacity := by
          apply ih
          · exact here
          · simp only [length]
            omega
          · simp only [length]
            omega
        obtain ⟨more, later, run, blocked⟩ := again
        exact ⟨_, later, .cons written run, blocked⟩
      · exact ⟨[], base, .refl base, code, call, here, not_lt.mp room⟩

/-- A call that is begun without this room can block the loop thread. -/
theorem blocks_of_not_sparing (unsparing : ¬ base.Sparing capacity label)
    (step : Step limit capacity base label after) :
    ∃ more later, LabelledRun (Step limit capacity) after more later ∧ later.Blocked capacity := by
  cases step with
  | @post posted _ =>
      simp only [Sparing, not_forall, not_lt] at unsparing
      obtain ⟨code, call, here, crowded⟩ := unsparing
      refine blocks_of_crowded ((push_loop posted).trans here) ?_
      simp only [push_bytes, List.length_cons]
      omega
  | selfPost here _ =>
      refine blocks_of_crowded rfl ?_
      simp only [push_bytes, push_posting]
      exact not_lt.mp unsparing
  | _ => exact absurd trivial unsparing

/-- **The loop thread is never blocked in its own write in a run in which each call that is
begun finds room in the pipe**, for itself and for the calls under way. A call that is begun
without it can block the loop thread. -/
theorem loop_never_blocks {labels : List (Label τ)}
    (run : LabelledRun (fun before label after => Step limit capacity before label after ∧
      before.Sparing capacity label) init labels base) :
    ¬ base.Blocked capacity ∧
    ∀ label after, Step limit capacity base label after → ¬ base.Sparing capacity label →
      ∃ more later, LabelledRun (Step limit capacity) after more later ∧
        later.Blocked capacity := by
  have spared := run.invariant (Spared capacity)
    (fun _ _ _ spared step => spared_step spared step.2 step.1) nofun
  refine ⟨?_, fun label after step unsparing => blocks_of_not_sparing unsparing step⟩
  rintro ⟨code, call, here, full⟩
  have room := spared code call here
  omega

/-- A callback that makes one call while there is room for one byte. -/
theorem loop_never_blocks_one_call : ∃ (base : Wakeup ℕ) (labels : List (Label ℕ)),
    base.loop = .writing .callback (some 1) ∧
    LabelledRun (fun before label after => Step 0 1 before label after ∧
      before.Sparing 1 label) init labels base ∧ ¬ base.Blocked 1 := by
  have run : ∃ (base : Wakeup ℕ) (labels : List (Label ℕ)),
      base.loop = .writing .callback (some 1) ∧
      LabelledRun (fun before label after => Step 0 1 before label after ∧
        before.Sparing 1 label) init labels base := by
    refine ⟨_, _, ?_, .cons ⟨@Step.poll _ _ _ _ _ false rfl nofun, trivial⟩ <|
      .cons ⟨.callback rfl, trivial⟩ <|
      .cons ⟨@Step.selfPost _ _ _ _ _ _ (some 1) rfl ?_, ?_⟩ <| .refl _⟩
    · rfl
    · simp [Fresh, init]
    · simp [Sparing, init]
  obtain ⟨base, labels, here, taken⟩ := run
  exact ⟨base, labels, here, taken, (loop_never_blocks taken).1⟩

end Blocking

/-- A callback has made a number of calls. -/
def burst (count : ℕ) : Wakeup ℕ :=
  ⟨List.range count, count, false, [], .user .callback, List.range count, [], [], []⟩

theorem burst_fresh (count : ℕ) : (burst count).Fresh (some count) := by
  rintro t ⟨⟩
  simp [burst]

theorem burst_post (capacity count : ℕ) : Step 0 capacity (burst count) (.selfPost (some count))
    { burst (count + 1) with bytes := count, loop := .writing .callback (some count) } := by
  have posted : Step 0 capacity (burst count) (.selfPost (some count)) _ :=
    .selfPost rfl (burst_fresh count)
  simpa [push, burst, List.range_succ] using posted

theorem burst_run (capacity count : ℕ) (room : count ≤ capacity) :
    ∃ labels, LabelledRun (Step 0 capacity) init labels (burst count) := by
  induction count with
  | zero =>
      exact ⟨_, .cons (@Step.poll _ _ _ _ _ false rfl nofun) <| .single (.callback rfl)⟩
  | succ count ih =>
      obtain ⟨labels, run⟩ := ih (by omega)
      have written : Step 0 capacity { burst (count + 1) with
          bytes := count, loop := .writing .callback (some count) } .selfWrite (burst (count + 1)) :=
        .selfWrite rfl (by simpa using room)
      exact ⟨_, run.append (.cons (burst_post capacity count) (.single written))⟩

/-- **Whatever the capacity of the pipe, a callback that makes one call more blocks the loop
thread**, and nothing that happens afterwards ends this. -/
theorem burst_blocks (capacity : ℕ) : ∃ (base : Wakeup ℕ) (labels : List (Label ℕ)),
    LabelledRun (Step 0 capacity) init labels base ∧ base.Blocked capacity ∧
    ∀ later more, LabelledRun (Step 0 capacity) base more later → later.Blocked capacity := by
  obtain ⟨labels, run⟩ := burst_run capacity capacity le_rfl
  have blocked : Blocked capacity { burst (capacity + 1) with
      bytes := capacity, loop := .writing .callback (some capacity) } := ⟨_, _, rfl, le_rfl⟩
  refine ⟨_, _, run.append (.single (burst_post capacity capacity)), blocked, ?_⟩
  intro later more goes
  exact goes.invariant (Blocked capacity) (fun _ _ _ => blocked_step) blocked

/-- The loop thread blocks itself on a pipe of 65536 bytes. -/
theorem loop_blocks_itself : ∃ (base : Wakeup ℕ) (labels : List (Label ℕ)),
    LabelledRun (Step 0 65536) init labels base ∧ base.Blocked 65536 ∧
    ∀ later more, LabelledRun (Step 0 65536) base more later → later.Blocked 65536 :=
  burst_blocks 65536

end Wakeup

end Handy
