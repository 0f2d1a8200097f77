import Handy.Threads
import Handy.EventBase.Wakeup

/-!
# The half-synchronous server

`HSHA::onMsg` hands each message to the thread pool. A worker runs the callback of the user on
it and gives the result back with `safeCall`; the task that the loop thread then runs sends the
result on the connection of the message, unless it is empty.

The server is put together from the thread pool and the event base. A message is named by the
call of `addTask` that it makes, and the task that answers it has the same name; the event base
may be given other tasks too. The task of a worker has three steps of its own: the callback
returns, `safeCall` pushes, `safeCall` writes. The server is seen before its exit, so nobody
calls `exit` of the pool, whose capacity `HSHA` leaves unlimited. The task queue of the event
base has the limit that its user chose.

Every answer is that of one message (`replies_match`).
-/

set_option autoImplicit false

namespace Handy

/-- The server: workers `ω`, messages `μ`, other tasks of the base `ρ` and connections `κ`. The
last fields record what was received, what the callback returned, and each `sendMsg` with the
message whose task made it. -/
structure Hsha (ω μ ρ κ : Type) where
  pool : ThreadPool ω μ Empty
  base : Wakeup (μ ⊕ ρ)
  received : μ → Option (κ × List UInt8)
  outputs : μ → Option (List UInt8)
  sent : List (μ × κ × List UInt8)

namespace Hsha

variable {ω μ ρ κ : Type}

/-- The server when it is started. -/
def init : Hsha ω μ ρ κ :=
  ⟨.init, .init, fun _ => none, fun _ => none, []⟩

/-- `safeCall` has pushed the task of a message, or found the queue full. -/
def Posted (server : Hsha ω μ ρ κ) (m : μ) : Prop :=
  .inl m ∈ server.base.accepted ∨ .inl m ∈ server.base.refused

/-- The posts of tasks that answer no message. -/
def Foreign : Wakeup.Label (μ ⊕ ρ) → Prop
  | .post (some (.inl _)) | .selfPost (some (.inl _)) => False
  | _ => True

/-- The task `if (output.size()) con->sendMsg(output);`. -/
def reply (server : Hsha ω μ ρ κ) (m : μ) (con : κ) (output : List UInt8) :
    List (μ × κ × List UInt8) :=
  if output = [] then server.sent else server.sent ++ [(m, con, output)]

/-- The steps of the server. -/
inductive Label (ω μ ρ : Type) where
  | arrive (m : μ)
  | pool (thread : Thread ω μ Empty)
  | returns (m : μ)
  | base (label : Wakeup.Label (μ ⊕ ρ))

variable [DecidableEq ω] [DecidableEq μ] [DecidableEq ρ]

/-- A step of the server, with a task queue and a pipe of the given sizes. -/
inductive Step (limit capacity : ℕ) (server : Hsha ω μ ρ κ) :
    Label ω μ ρ → Hsha ω μ ρ κ → Prop where
  /-- A message is received, and its callback calls `addTask`. -/
  | arrive {m : μ} (con : κ) (input : List UInt8)
      (unmade : server.pool.place (.caller m) = .idle) :
      Step limit capacity server (.arrive m) { server with
        pool := server.pool.move (.caller m) .pushEnter
        received := Function.update server.received m (some (con, input)) }
  /-- A step of the pool, other than a new call and the end of a task. -/
  | pool {thread : Thread ω μ Empty} {pool : ThreadPool ω μ Empty}
      (step : ThreadPool.Step 0 server.pool thread pool)
      (made : ∀ m, thread = .caller m → server.pool.place thread ≠ .idle)
      (outside : ∀ w m, thread = .worker w → server.pool.place thread ≠ .run m) :
      Step limit capacity server (.pool thread) { server with pool := pool }
  /-- `std::string output = cb(con, input);` -/
  | returns {w : ω} {m : μ} (here : server.pool.place (.worker w) = .run m)
      (calling : server.outputs m = none) (output : List UInt8) :
      Step limit capacity server (.returns m) { server with
        outputs := Function.update server.outputs m (some output) }
  /-- The push of `safeCall`, by the worker. -/
  | post {w : ω} {m : μ} {output : List UInt8} {base : Wakeup (μ ⊕ ρ)}
      (here : server.pool.place (.worker w) = .run m) (returned : server.outputs m = some output)
      (step : Wakeup.Step limit capacity server.base (.post (some (.inl m))) base) :
      Step limit capacity server (.base (.post (some (.inl m)))) { server with base := base }
  /-- The task of a worker ends when `safeCall` has returned. -/
  | finish {w : ω} {m : μ} {pool : ThreadPool ω μ Empty}
      (here : server.pool.place (.worker w) = .run m) (posted : server.Posted m)
      (written : some (.inl m) ∉ server.base.posting)
      (step : ThreadPool.Step 0 server.pool (.worker w) pool) :
      Step limit capacity server (.pool (.worker w)) { server with pool := pool }
  /-- The writes of `safeCall`, and what else the event base does. -/
  | base {label : Wakeup.Label (μ ⊕ ρ)} {base : Wakeup (μ ⊕ ρ)} (foreign : Foreign label)
      (step : Wakeup.Step limit capacity server.base label base)
      (other : ∀ m, label = .loop → server.base.loop ≠ .user (.task (.inl m))) :
      Step limit capacity server (.base label) { server with base := base }
  /-- The loop thread runs the task of a message. -/
  | answer {m : μ} {con : κ} {input output : List UInt8} {base : Wakeup (μ ⊕ ρ)}
      (here : server.base.loop = .user (.task (.inl m)))
      (message : server.received m = some (con, input))
      (returned : server.outputs m = some output)
      (step : Wakeup.Step limit capacity server.base .loop base) :
      Step limit capacity server (.base .loop) { server with
        base := base, sent := server.reply m con output }

variable {limit capacity : ℕ} {server after : Hsha ω μ ρ κ} {label : Label ω μ ρ}

/-! ## The pool and the event base of a server -/

/-- A step of the server is a step of its pool, or leaves it alone. -/
theorem pool_step (step : Step limit capacity server label after) :
    after.pool = server.pool ∨ ∃ thread, ThreadPool.Step 0 server.pool thread after.pool := by
  cases step with
  | arrive _ _ unmade => exact .inr ⟨_, .addTask unmade⟩
  | pool step _ _ => exact .inr ⟨_, step⟩
  | finish _ _ _ step => exact .inr ⟨_, step⟩
  | returns _ _ _ | post _ _ _ | base _ _ _ | answer _ _ _ _ => exact .inl rfl

/-- A step of the server is a step of its event base, or leaves it alone. -/
theorem base_step (step : Step limit capacity server label after) :
    after.base = server.base ∨
      ∃ label, Wakeup.Step limit capacity server.base label after.base := by
  cases step with
  | arrive _ _ _ | pool _ _ _ | finish _ _ _ _ | returns _ _ _ => exact .inl rfl
  | post _ _ step | base _ step _ | answer _ _ _ step => exact .inr ⟨_, step⟩

/-- A call of `addTask` that returns false, or has. -/
def refusal : Place μ → Bool
  | .pushLeave false | .added false => true
  | _ => false

/-- Nobody tells the pool to exit, and it has no capacity: it takes every task. -/
structure Opened (pool : ThreadPool ω μ Empty) : Prop where
  running : pool.exit = false
  willing : ∀ thread, refusal (pool.place thread) = false

theorem opened_step {pool next : ThreadPool ω μ Empty} {thread : Thread ω μ Empty}
    (opened : Opened pool) (step : ThreadPool.Step 0 pool thread next) : Opened next := by
  obtain ⟨running, willing⟩ := opened
  have stays {place : Place μ} (new : refusal place = false) (other : Thread ω μ Empty) :
      refusal ((pool.move thread place).place other) = false := by
    by_cases same : other = thread
    · simp [ThreadPool.move, same, new]
    · simp [ThreadPool.move, same, willing other]
  cases step with
  | spurious _ => exact ⟨running, willing⟩
  | refuse here refusing =>
      rcases refusing with exited | limited
      · rw [running] at exited
        cases exited
      · exact absurd rfl limited.1
  | @pushUnlock m result here =>
      have before := willing (.caller m)
      rw [here] at before
      cases result with
      | false => cases before
      | true => exact ⟨running, stays (by rfl)⟩
  | @popUnlock w taken here => cases taken <;> exact ⟨running, stays (by rfl)⟩
  | popLock _ _ | relock _ _ _ | pushLock _ _ | block _ | again _ _ | stop _ _ | finish _
  | testReady _ _ | testUnready _ _ | conditionReady _ _ | conditionUnready _ _ | popNothing _ _
  | popItem _ _ | addTask _ | grant _ _ | pushBack _ | notifyOne _ _ | notifyNobody _ _ =>
      exact ⟨running, stays (by rfl)⟩
  | @exitFlag x _ | @exitLock x _ _ | @notifyAll x _ | @exitUnlock x _ => exact x.elim

/-! ## What the steps leave alone -/

/-- Only the end of a task adds to the executed tasks of the pool. -/
theorem executed_outside {pool next : ThreadPool ω μ Empty} {thread : Thread ω μ Empty}
    (outside : ∀ w m, thread = .worker w → pool.place thread ≠ .run m)
    (step : ThreadPool.Step 0 pool thread next) : next.executed = pool.executed := by
  cases step with
  | finish here => exact absurd here (outside _ _ rfl)
  | _ => rfl

/-- The end of a task adds this task to the executed ones. -/
theorem executed_finish {pool next : ThreadPool ω μ Empty} {w : ω} {m : μ}
    (here : pool.place (.worker w) = .run m)
    (step : ThreadPool.Step 0 pool (.worker w) next) (q : μ) (done : q ∈ next.executed) :
    q ∈ pool.executed ∨ q = m := by
  cases step with
  | @finish _ p there =>
      rw [here] at there
      cases there
      simpa using done
  | _ => exact .inl done

/-- A call that has been made is not unmade. -/
theorem made_step {pool next : ThreadPool ω μ Empty} {thread : Thread ω μ Empty}
    (step : ThreadPool.Step 0 pool thread next) {m : μ} (unmade : next.place (.caller m) = .idle) :
    pool.place (.caller m) = .idle := by
  cases step with
  | spurious _ | popUnlock _ | popLock _ _ | relock _ _ _ | block _ | again _ _ | stop _ _
  | finish _ | testReady _ _ | testUnready _ _ | conditionReady _ _ | conditionUnready _ _
  | popNothing _ _ | popItem _ _ => exact unmade
  | pushLock _ _ | addTask _ | grant _ _ | refuse _ _ | pushBack _ | notifyOne _ _
  | notifyNobody _ _ | pushUnlock _ => exact ThreadPool.place_of_move (by simp) unmade
  | @exitFlag x _ | @exitLock x _ _ | @notifyAll x _ | @exitUnlock x _ => exact x.elim

omit [DecidableEq μ] [DecidableEq ρ] in
/-- A push that is not of the task of a message adds no such task. -/
theorem push_foreign {base : Wakeup (μ ⊕ ρ)} {call : Option (μ ⊕ ρ)}
    (foreign : ∀ m, call ≠ some (.inl m)) (m : μ) :
    ((.inl m ∈ (base.push limit call).accepted ↔ .inl m ∈ base.accepted) ∧
      (.inl m ∈ (base.push limit call).refused ↔ .inl m ∈ base.refused)) ∧
      (.inl m ∈ (base.push limit call).executed ↔ .inl m ∈ base.executed) := by
  fun_cases Wakeup.push limit base call with
  | case1 => simp
  | case2 t full =>
      have different : Sum.inl m ≠ t := fun same => foreign m (by rw [same])
      simp [different]
  | case3 t space =>
      have different : Sum.inl m ≠ t := fun same => foreign m (by rw [same])
      simp [different]

/-- Other steps of the base post and finish no task of a message. -/
theorem foreign_step {base next : Wakeup (μ ⊕ ρ)} {label : Wakeup.Label (μ ⊕ ρ)}
    (foreign : Foreign label) (step : Wakeup.Step limit capacity base label next)
    (other : ∀ m, label = .loop → base.loop ≠ .user (.task (.inl m))) (m : μ) :
    ((.inl m ∈ next.accepted ↔ .inl m ∈ base.accepted) ∧
      (.inl m ∈ next.refused ↔ .inl m ∈ base.refused)) ∧
      (.inl m ∈ next.executed ↔ .inl m ∈ base.executed) := by
  cases step with
  | @post call _ =>
      have apart : ∀ q, call ≠ some (.inl q) := by
        rintro q rfl
        exact foreign
      exact push_foreign apart m
  | @selfPost code call _ _ =>
      have apart : ∀ q, call ≠ some (.inl q) := by
        rintro q rfl
        exact foreign
      exact push_foreign apart m
  | @taskEnd t here =>
      have different : Sum.inl m ≠ t := by
        rintro rfl
        exact other m rfl here
      simp [different]
  | _ => simp

/-- The loop thread posts nothing unless it says so. -/
theorem loop_posts {base next : Wakeup (μ ⊕ ρ)} (step : Wakeup.Step limit capacity base .loop next) :
    next.accepted = base.accepted ∧ next.refused = base.refused := by
  cases step <;> exact ⟨rfl, rfl⟩

/-- A worker posts the task of its message. -/
theorem post_step {base next : Wakeup (μ ⊕ ρ)} {m : μ}
    (step : Wakeup.Step limit capacity base (.post (some (.inl m))) next) (q : μ) :
    (.inl q ∈ next.accepted ∨ .inl q ∈ next.refused ↔
      (.inl q ∈ base.accepted ∨ .inl q ∈ base.refused) ∨ q = m) ∧
      next.executed = base.executed := by
  cases step with
  | post fresh =>
      rw [Wakeup.push]
      split
      · simp [or_assoc]
      · simp [or_right_comm]

/-! ## Messages, results and answers -/

/-- How the parts of the server hang together. -/
structure Linked (server : Hsha ω μ ρ κ) : Prop where
  /-- Only a message that was received makes a call. -/
  named : ∀ m, server.pool.place (.caller m) = .idle → server.received m = none
  /-- The callback has returned before its result is posted. -/
  returned : ∀ m, server.Posted m → server.outputs m ≠ none
  /-- The callback is called on tasks that a worker has taken. -/
  taken : ∀ m, server.outputs m ≠ none → m ∈ server.pool.dequeued
  /-- A task that has ended has posted its result. -/
  posted : ∀ m ∈ server.pool.executed, server.Posted m

theorem linked_step (pool : server.pool.Sound 0) (linked : server.Linked)
    (step : Step limit capacity server label after) : after.Linked := by
  obtain ⟨named, returned, taken, posted⟩ := linked
  cases step with
  | @arrive m con input unmade =>
      refine ⟨fun q now => ?_, returned, taken, posted⟩
      by_cases same : q = m
      · subst same
        simp [ThreadPool.move] at now
      · dsimp only
        rw [Function.update_of_ne same]
        exact named q (ThreadPool.place_of_move (by simp) now)
  | @pool thread next step made outside =>
      refine ⟨fun m now => named m (made_step step now), returned, fun m some => ?_, ?_⟩
      · exact (ThreadPool.work_move pool.recorded step).dequeued_subset (taken m some)
      · intro m done
        rw [show next.executed = server.pool.executed from executed_outside outside step] at done
        exact posted m done
  | @returns w m here calling output =>
      refine ⟨named, fun q sent => ?_, fun q some => ?_, posted⟩
      · by_cases same : q = m
        · simp [same]
        · dsimp only
          rw [Function.update_of_ne same]
          exact returned q sent
      · by_cases same : q = m
        · subst same
          exact (pool.conserved.gone q).mpr (.inr ⟨w, by simp [ThreadPool.work, here, Place.task]⟩)
        · dsimp only at some
          rw [Function.update_of_ne same] at some
          exact taken q some
  | @post w m output next here result step =>
      refine ⟨named, fun q sent => ?_, taken, fun q done => ?_⟩
      · rcases ((post_step step q).1).mp sent with before | rfl
        · exact returned q before
        · simp [result]
      · exact ((post_step step q).1).mpr (.inl (posted q done))
  | @finish w m next here done written step =>
      refine ⟨fun q now => named q (made_step step now), returned, fun q some => ?_, ?_⟩
      · exact (ThreadPool.work_move pool.recorded step).dequeued_subset (taken q some)
      · intro q now
        rcases executed_finish here step q now with before | rfl
        · exact posted q before
        · exact done
  | @base label next foreign step other =>
      have same (m : μ) := (foreign_step foreign step other m).1
      refine ⟨named, fun m sent => returned m ?_, taken, fun m done => ?_⟩
      · exact sent.imp (same m).1.mp (same m).2.mp
      · exact (posted m done).imp (same m).1.mpr (same m).2.mpr
  | @answer m con input output next here message result step =>
      obtain ⟨accepted, refused⟩ := loop_posts step
      refine ⟨named, fun m sent => returned m ?_, taken, fun m done => ?_⟩
      · simpa [Posted, accepted, refused] using sent
      · simpa [Posted, accepted, refused] using posted m done

/-- The answers so far: each is the result of its message on its connection, there is one for
each message at most, and one for each whose task was run and whose result is not empty. -/
structure Answered (server : Hsha ω μ ρ κ) : Prop where
  right : ∀ m con output, (m, con, output) ∈ server.sent →
    .inl m ∈ server.base.executed ∧ server.outputs m = some output ∧ output ≠ [] ∧
      ∃ input, server.received m = some (con, input)
  once : (server.sent.map Prod.fst).Nodup
  complete : ∀ m output, .inl m ∈ server.base.executed → server.outputs m = some output →
    output ≠ [] → m ∈ server.sent.map Prod.fst

omit [DecidableEq ρ] [DecidableEq μ] in
/-- A task that was run was accepted. -/
theorem accepted_of_executed {base : Wakeup (μ ⊕ ρ)} (sound : base.Sound) {t : μ ⊕ ρ}
    (done : t ∈ base.executed) : t ∈ base.accepted := by
  have order : base.accepted = base.dequeued ++ base.tasks := sound.conserved.order
  rw [order]
  exact List.mem_append_left _ ((sound.conserved.gone t).mpr (.inl done))

/-- The task that the loop thread runs comes to its end. -/
theorem executed_answer {base next : Wakeup (μ ⊕ ρ)} {t : μ ⊕ ρ}
    (here : base.loop = .user (.task t)) (step : Wakeup.Step limit capacity base .loop next) :
    next.executed = base.executed ++ [t] := by
  cases step with
  | taskEnd there =>
      rw [here] at there
      cases there
      rfl
  | poll there _ | callback there | callbackEnd there | roundEnd there _ | handle there _
  | read there _ | interrupted there | readFails there _ | pop there _ | drained there _ =>
      rw [here] at there
      cases there

theorem answered_step (sound : server.base.Sound) (linked : server.Linked)
    (answered : server.Answered) (step : Step limit capacity server label after) :
    after.Answered := by
  obtain ⟨right, once, complete⟩ := answered
  cases step with
  | @arrive m con input unmade =>
      refine ⟨fun q con' output sent => ?_, once, complete⟩
      obtain ⟨done, result, nonempty, input', message⟩ := right q con' output sent
      have different : q ≠ m := by
        rintro rfl
        rw [linked.named q unmade] at message
        cases message
      exact ⟨done, result, nonempty, input', by simpa [different] using message⟩
  | pool _ _ _ | finish _ _ _ _ => exact ⟨right, once, complete⟩
  | @returns w m here calling output =>
      refine ⟨fun q con output' sent => ?_, once, fun q output' done result => ?_⟩
      · obtain ⟨done, result, nonempty, message⟩ := right q con output' sent
        have different : q ≠ m := by
          rintro rfl
          rw [calling] at result
          cases result
        exact ⟨done, by simpa [different] using result, nonempty, message⟩
      · have different : q ≠ m := by
          rintro rfl
          exact linked.returned q (.inl (accepted_of_executed sound done)) calling
        simp only [Function.update_of_ne different] at result
        exact complete q output' done result
  | @post w m output next here result step =>
      have executed := (post_step step m).2
      refine ⟨fun q con output sent => ?_, once, fun q output done => ?_⟩
      · simpa [executed] using right q con output sent
      · simp only [executed] at done
        exact complete q output done
  | @base label next foreign step other =>
      have same (m : μ) := (foreign_step foreign step other m).2
      refine ⟨fun q con output sent => ?_, once, fun q output done => ?_⟩
      · simpa [same] using right q con output sent
      · exact complete q output ((same q).mp done)
  | @answer m con input output next here message result step =>
      have executed := executed_answer here step
      have unanswered : m ∉ server.sent.map Prod.fst := by
        intro before
        obtain ⟨⟨q, con', output'⟩, sent, rfl⟩ := List.mem_map.mp before
        have holding : server.base.work.held () = some (.inl q) := by
          simp [Wakeup.work, here, LoopPlace.task]
        exact sound.conserved.unfinished holding (right q con' output' sent).1
      have silent : ∀ q con' output', (q, con', output') ∈ server.sent →
          .inl q ∈ next.executed ∧ server.outputs q = some output' ∧ output' ≠ [] ∧
            ∃ input, server.received q = some (con', input) := by
        intro q con' output' sent
        obtain ⟨done, rest⟩ := right q con' output' sent
        exact ⟨by rw [executed]; exact List.mem_append_left _ done, rest⟩
      have newest : ∀ q, .inl q ∈ next.executed → .inl q ∈ server.base.executed ∨ q = m := by
        intro q done
        simpa [executed] using done
      by_cases empty : output = []
      · have same : server.reply m con output = server.sent := if_pos empty
        rw [same]
        refine ⟨silent, once, fun q output' done result' nonempty => ?_⟩
        rcases newest q done with before | rfl
        · exact complete q output' before result' nonempty
        · cases result.symm.trans result'
          exact absurd empty nonempty
      · have grown : server.reply m con output = server.sent ++ [(m, con, output)] := if_neg empty
        rw [grown]
        refine ⟨fun q con' output' sent => ?_, ?_, fun q output' done result' nonempty => ?_⟩
        · rcases List.mem_append.mp sent with before | last
          · exact silent q con' output' before
          · cases List.mem_singleton.mp last
            exact ⟨by simp [executed], result, empty, input, message⟩
        · rw [List.map_append]
          exact once.append (List.nodup_singleton _) (by simpa using unanswered)
        · rw [List.map_append, List.mem_append]
          rcases newest q done with before | rfl
          · exact .inl (complete q output' before result' nonempty)
          · exact .inr (by simp)

/-! ## Whole runs -/

/-- What holds of the server at all times. -/
structure Sound (server : Hsha ω μ ρ κ) : Prop where
  pool : server.pool.Sound 0
  opened : Opened server.pool
  base : server.base.Sound
  linked : server.Linked
  answered : server.Answered

omit [DecidableEq ω] [DecidableEq μ] [DecidableEq ρ] in
theorem sound_init : (init : Hsha ω μ ρ κ).Sound :=
  { pool := ThreadPool.sound_init
    opened := ⟨rfl, by rintro (w | m | x) <;> rfl⟩
    base := Wakeup.sound_init
    linked := ⟨fun _ _ => rfl, fun _ posted => by simp [Posted, init, Wakeup.init] at posted,
      fun _ some => absurd rfl some, nofun⟩
    answered := ⟨nofun, List.nodup_nil, nofun⟩ }

theorem Sound.step (sound : server.Sound) (step : Step limit capacity server label after) :
    after.Sound := by
  have pool : after.pool.Sound 0 ∧ Opened after.pool := by
    rcases pool_step step with same | ⟨thread, taken⟩
    · rw [same]
      exact ⟨sound.pool, sound.opened⟩
    · exact ⟨sound.pool.step taken, opened_step sound.opened taken⟩
  have base : after.base.Sound := by
    rcases base_step step with same | ⟨label, taken⟩
    · rw [same]
      exact sound.base
    · exact sound.base.step taken
  exact ⟨pool.1, pool.2, base, linked_step sound.pool sound.linked step,
    answered_step sound.base sound.linked sound.answered step⟩

theorem sound_of_run {labels : List (Label ω μ ρ)}
    (run : LabelledRun (Step limit capacity) init labels server) : server.Sound :=
  run.invariant Sound (fun _ _ _ sound step => sound.step step) sound_init

/-- Without a limit of its task queue the event base refuses no task. -/
theorem refused_of_run {labels : List (Label ω μ ρ)}
    (run : LabelledRun (Step 0 capacity) init labels server) : server.base.refused = [] := by
  refine run.invariant (fun server => server.base.refused = []) (fun before _ after none step => ?_) rfl
  rcases base_step step with same | ⟨label, taken⟩
  · rw [same]
    exact none
  · exact Wakeup.refused_step rfl none taken

/-- Nobody is at work: no call of `addTask` is under way, the queue of the pool and the hands of
the workers are empty, and so are the task queue and the hands of the loop thread. -/
structure Idle (server : Hsha ω μ ρ κ) : Prop where
  calls : ∀ m, server.pool.place (.caller m) = .idle ∨
    ∃ result, server.pool.place (.caller m) = .added result
  queue : server.pool.items = []
  workers : ∀ w, (server.pool.place (.worker w)).task = none
  tasks : server.base.tasks = []
  loop : server.base.loop.task = none

omit [DecidableEq ω] [DecidableEq μ] [DecidableEq ρ] in
/-- When nobody is at work, every message has been through the pool. -/
theorem Idle.executed (sound : server.Sound) (idle : server.Idle) {m : μ}
    (message : server.received m ≠ none) : m ∈ server.pool.executed := by
  have accepted : (server.pool.place (.caller m)).accepted = true := by
    rcases idle.calls m with unmade | ⟨result, made⟩
    · exact absurd (sound.linked.named m unmade) message
    · have willing := sound.opened.willing (.caller m)
      rw [made] at willing ⊢
      cases result with
      | true => rfl
      | false => cases willing
  have order : server.pool.accepted = server.pool.dequeued ++ server.pool.items :=
    sound.pool.conserved.order
  have member := (sound.pool.recorded m).mpr accepted
  rw [order, idle.queue, List.append_nil] at member
  rcases (sound.pool.conserved.gone m).mp member with done | ⟨w, holding⟩
  · exact done
  · exact absurd (holding.symm.trans (idle.workers w)) (by simp)

omit [DecidableEq ω] [DecidableEq μ] [DecidableEq ρ] in
/-- When nobody is at work, every task that the event base accepted has been run. -/
theorem Idle.run (sound : server.Sound) (idle : server.Idle) {t : μ ⊕ ρ}
    (accepted : t ∈ server.base.accepted) : t ∈ server.base.executed := by
  have order : server.base.accepted = server.base.dequeued ++ server.base.tasks :=
    sound.base.conserved.order
  rw [order, idle.tasks, List.append_nil] at accepted
  rcases (sound.base.conserved.gone t).mp accepted with done | ⟨_, holding⟩
  · exact done
  · exact absurd (holding.symm.trans idle.loop) (by simp)

/-! ## Pieces of runs -/

/-- The steps of the pool that are neither a new call nor the end of a task. -/
def Between (pool : ThreadPool ω μ Empty) (thread : Thread ω μ Empty)
    (next : ThreadPool ω μ Empty) : Prop :=
  ThreadPool.Step 0 pool thread next ∧ (∀ m, thread = .caller m → pool.place thread ≠ .idle) ∧
    ∀ w m, thread = .worker w → pool.place thread ≠ .run m

theorem run_of_pool {threads : List (Thread ω μ Empty)} {pool next : ThreadPool ω μ Empty}
    (run : LabelledRun Between pool threads next) (server : Hsha ω μ ρ κ)
    (here : server.pool = pool) :
    LabelledRun (Step limit capacity) server (threads.map .pool) { server with pool := next } := by
  induction run generalizing server with
  | refl => exact here ▸ .refl _
  | cons head tail ih =>
      subst here
      exact .cons (.pool head.1 head.2.1 head.2.2) (ih _ rfl)

/-- A call of `addTask` that has been made comes into the hands of a worker. -/
theorem run_to_worker : ∃ (threads : List (Thread Unit Unit Empty))
    (pool : ThreadPool Unit Unit Empty),
    LabelledRun Between (ThreadPool.init.move (.caller ()) .pushEnter) threads pool ∧
    pool.place (.caller ()) = .added true ∧ pool.place (.worker ()) = .run () ∧
    pool.items = [] := by
  refine ⟨_, _,
    .cons ⟨.pushLock (p := ()) rfl rfl, fun _ _ => nofun, nofun⟩ <|
    .cons ⟨.grant (p := ()) rfl ?_, fun _ _ => nofun, nofun⟩ <|
    .cons ⟨.pushBack (p := ()) rfl, fun _ _ => nofun, nofun⟩ <|
    .cons ⟨.notifyNobody (p := ()) rfl rfl, fun _ _ => nofun, nofun⟩ <|
    .cons ⟨.pushUnlock (p := ()) rfl, fun _ _ => nofun, nofun⟩ <|
    .cons ⟨.again (w := ()) rfl rfl, nofun, fun _ _ _ => nofun⟩ <|
    .cons ⟨.popLock (w := ()) rfl rfl, nofun, fun _ _ _ => nofun⟩ <|
    .cons ⟨.testReady (w := ()) rfl (.inr nofun), nofun, fun _ _ _ => nofun⟩ <|
    .cons ⟨.popItem (w := ()) rfl rfl, nofun, fun _ _ _ => nofun⟩ <|
    .cons ⟨.popUnlock (w := ()) rfl, nofun, fun _ _ _ => nofun⟩ <| .refl _, rfl, rfl, rfl⟩
  simp [ThreadPool.Refusing, ThreadPool.move, ThreadPool.init]

/-- The steps of the event base that have nothing to do with a message. -/
def Aside (limit capacity : ℕ) (base : Wakeup (μ ⊕ ρ)) (label : Wakeup.Label (μ ⊕ ρ))
    (next : Wakeup (μ ⊕ ρ)) : Prop :=
  Wakeup.Step limit capacity base label next ∧ Foreign label ∧
    ∀ m, label = .loop → base.loop ≠ .user (.task (.inl m))

theorem run_of_base {labels : List (Wakeup.Label (μ ⊕ ρ))} {base next : Wakeup (μ ⊕ ρ)}
    (run : LabelledRun (Aside limit capacity) base labels next) (server : Hsha ω μ ρ κ)
    (here : server.base = base) :
    LabelledRun (Step limit capacity) server (labels.map .base) { server with base := next } := by
  induction run generalizing server with
  | refl => exact here ▸ .refl _
  | cons head tail ih =>
      subst here
      exact .cons (.base head.2.1 head.1 head.2.2) (ih _ rfl)

/-- A queue that has accepted the task of the message. -/
def waiting : Wakeup (Unit ⊕ Unit) :=
  ⟨[.inl ()], 0, false, [some (.inl ())], .polling, [.inl ()], [], [], []⟩

theorem waiting_popped : ∃ (labels : List (Wakeup.Label (Unit ⊕ Unit)))
    (base : Wakeup (Unit ⊕ Unit)), LabelledRun (Aside 0 1) waiting labels base ∧
    base.tasks = [] ∧ base.loop = .user (.task (.inl ())) ∧ base.posting = [] ∧
    base.accepted = [.inl ()] := by
  refine ⟨_, _,
    .cons ⟨@Wakeup.Step.write _ _ _ _ _ (some (.inl ())) (by simp [waiting]) (by decide), trivial, nofun⟩ <|
    .cons ⟨@Wakeup.Step.poll _ _ _ _ _ true rfl (fun _ => by decide), trivial, fun _ _ => nofun⟩ <|
    .cons ⟨.handle rfl rfl, trivial, fun _ _ => nofun⟩ <|
    .cons ⟨.read rfl (by decide), trivial, fun _ _ => nofun⟩ <|
    .cons ⟨.pop rfl rfl, trivial, fun _ _ => nofun⟩ <| .refl _, ?_, ?_, ?_, ?_⟩
  · rfl
  · rfl
  · rfl
  · rfl

/-- A queue with room for one task, into which another thread has put one, and which has then
refused the task of the message. -/
def overfull : Wakeup (Unit ⊕ Unit) :=
  ⟨[.inr ()], 0, false, [some (.inl ()), some (.inr ())], .polling, [.inr ()], [.inl ()], [], []⟩

theorem overfull_drained : ∃ (labels : List (Wakeup.Label (Unit ⊕ Unit)))
    (base : Wakeup (Unit ⊕ Unit)), LabelledRun (Aside 1 2) overfull labels base ∧
    base.tasks = [] ∧ base.loop = .round ∧ base.posting = [] ∧ base.refused = [.inl ()] := by
  refine ⟨_, _,
    .cons ⟨@Wakeup.Step.write _ _ _ _ _ (some (.inl ())) (by simp [overfull]) (by decide), trivial, nofun⟩ <|
    .cons ⟨@Wakeup.Step.write _ _ _ _ _ (some (.inr ())) (by simp [overfull]) (by decide), trivial, nofun⟩ <|
    .cons ⟨@Wakeup.Step.poll _ _ _ _ _ true rfl (fun _ => by decide), trivial, fun _ _ => nofun⟩ <|
    .cons ⟨.handle rfl rfl, trivial, fun _ _ => nofun⟩ <|
    .cons ⟨.read rfl (by decide), trivial, fun _ _ => nofun⟩ <|
    .cons ⟨.pop rfl rfl, trivial, fun _ _ => nofun⟩ <|
    .cons ⟨.taskEnd rfl, trivial, fun _ _ => nofun⟩ <|
    .cons ⟨.drained rfl rfl, trivial, fun _ _ => nofun⟩ <| .refl _, ?_, ?_, ?_, ?_⟩
  · rfl
  · rfl
  · rfl
  · rfl

/-! ## Answers and messages -/

/-- **Replies match messages.** However the connections, the workers and the loop thread are
interleaved: each `sendMsg` answers a message that was received, on its connection, with the
result of the callback, which is not empty; no message is answered twice; and when nobody is at
work every message with a result that is not empty has been answered, unless its task was
refused by the full task queue of the event base, which does not happen to a queue without
limit. -/
theorem replies_match {labels : List (Label ω μ ρ)}
    (run : LabelledRun (Step limit capacity) init labels server) :
    (∀ m con output, (m, con, output) ∈ server.sent →
      (∃ input, server.received m = some (con, input)) ∧ server.outputs m = some output ∧
        output ≠ []) ∧
    (server.sent.map Prod.fst).Nodup ∧
    (server.Idle → ∀ m con input, server.received m = some (con, input) →
      ∃ output, server.outputs m = some output ∧
        (output ≠ [] → (m, con, output) ∈ server.sent ∨ .inl m ∈ server.base.refused)) ∧
    (limit = 0 → server.base.refused = []) := by
  have sound := sound_of_run run
  have right := sound.answered.right
  refine ⟨fun m con output sent => ?_, sound.answered.once, fun idle m con input message => ?_, ?_⟩
  · obtain ⟨_, result, nonempty, received⟩ := right m con output sent
    exact ⟨received, result, nonempty⟩
  · have posted := sound.linked.posted m (idle.executed sound (by simp [message]))
    obtain ⟨output, result⟩ := Option.ne_none_iff_exists'.mp (sound.linked.returned m posted)
    refine ⟨output, result, fun nonempty => ?_⟩
    rcases posted with accepted | refused
    · obtain ⟨⟨q, con', output'⟩, sent, rfl⟩ := List.mem_map.mp
        (sound.answered.complete m output (idle.run sound accepted) result nonempty)
      obtain ⟨_, result', _, input', message'⟩ := right q con' output' sent
      cases result.symm.trans result'
      cases message.symm.trans message'
      exact .inl sent
    · exact .inr refused
  · rintro rfl
    exact refused_of_run run

/-- A message comes and is answered. -/
theorem replies_match_one_message : ∃ (server : Hsha Unit Unit Unit Unit)
    (labels : List (Label Unit Unit Unit)), LabelledRun (Step 0 1) init labels server ∧
    server.Idle ∧ server.sent = [((), (), [72])] ∧ (server.sent.map Prod.fst).Nodup := by
  obtain ⟨threads, pool, run, added, running, items⟩ := run_to_worker
  obtain ⟨labels, base, popped, tasks, loop, posting, accepted⟩ := waiting_popped
  have post : Wakeup.Step 0 1 Wakeup.init (.post (some (.inl ()))) waiting :=
    .post (by simp [Wakeup.Fresh, Wakeup.init])
  have arrived : LabelledRun (Step 0 1) (init : Hsha Unit Unit Unit Unit) _ _ :=
    .cons (.arrive () [] rfl) (run_of_pool run _ rfl)
  have posted : LabelledRun (Step 0 1) (init : Hsha Unit Unit Unit Unit) _ _ :=
    arrived.append <| .cons (.returns running rfl [72]) <| .single (.post running rfl post)
  have whole : ∃ (server : Hsha Unit Unit Unit Unit) (labels : List (Label Unit Unit Unit)),
      LabelledRun (Step 0 1) init labels server ∧ server.Idle ∧
      server.sent = [((), (), [72])] := by
    refine ⟨_, _, (posted.append (run_of_base popped _ rfl)).append <|
      .cons (.finish running (.inl ?_) ?_ (.finish running)) <|
      .single (.answer loop rfl rfl (.taskEnd loop)), ?_, ?_⟩
    · simp [accepted]
    · simp [posting]
    · exact ⟨fun _ => .inr ⟨true, added⟩, items, fun _ => rfl, tasks, rfl⟩
    · rfl
  obtain ⟨server, labels, taken, idle, sent⟩ := whole
  exact ⟨server, labels, taken, idle, sent, (replies_match taken).2.1⟩

/-- **A full task queue loses an answer.** The event base has room for one task, somebody else
posts one while the callback runs, and the message is never answered. -/
theorem reply_lost_when_full : ∃ (server : Hsha Unit Unit Unit Unit)
    (labels : List (Label Unit Unit Unit)), LabelledRun (Step 1 2) init labels server ∧
    server.Idle ∧ server.received () = some ((), []) ∧ server.outputs () = some [72] ∧
    server.sent = [] := by
  obtain ⟨threads, pool, run, added, running, items⟩ := run_to_worker
  obtain ⟨labels, base, drained, tasks, loop, posting, refused⟩ := overfull_drained
  have other : Wakeup.Step 1 2 Wakeup.init (.post (some (.inr ()))) { overfull with
      posting := [some (.inr ())], refused := [] } := .post (by simp [Wakeup.Fresh, Wakeup.init])
  have refusal : Wakeup.Step 1 2 { overfull with posting := [some (.inr ())], refused := [] }
      (.post (some (.inl ()))) overfull := .post (by simp [Wakeup.Fresh, overfull])
  have arrived : LabelledRun (Step 1 2) (init : Hsha Unit Unit Unit Unit) _ _ :=
    .cons (.arrive () [] rfl) (run_of_pool run _ rfl)
  have posted : LabelledRun (Step 1 2) (init : Hsha Unit Unit Unit Unit) _ _ :=
    arrived.append <| .cons (.base (by trivial) other (by rintro _ ⟨⟩)) <| .cons (.returns running rfl [72]) <|
      .single (.post running rfl refusal)
  refine ⟨_, _, (posted.append (run_of_base drained _ rfl)).append <|
    .single (.finish running (.inr ?_) ?_ (.finish running)), ?_, ?_, ?_, ?_⟩
  · simp [refused]
  · simp [posting]
  · exact ⟨fun _ => .inr ⟨true, added⟩, items, fun _ => rfl, tasks, by simp [loop, LoopPlace.task]⟩
  · rfl
  · rfl
  · rfl

end Hsha

end Handy
