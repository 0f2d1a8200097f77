import Handy.Ctpl.Rest

/-!
# Stopping the pool after its functors

`stop(true)` lets the workers go when the queue is empty. A worker reads `isDone` after it has
found the queue empty, so it may quit while a functor is in the queue; but then the `push` of that
functor has not returned, since it needs the mutex to notify. A functor whose `push` returned
before the call of `stop` is run, unless the program itself takes it out of the queue
(`stop_runs_all`). `stop` waits for the workers of the pool only: one that `resize` has let go may
still be running its functor.
-/

set_option autoImplicit false

namespace Handy.Ctpl

/-- A worker has found the queue empty for the last time. -/
def Worker.through {π : Type} : Worker π → Bool
  | .empty | .notDone | .failed | .leave none | .quit => true
  | _ => false

/-- The control is in a call of `stop`. -/
def Control.halting {ω : Type} : Control ω → Bool
  | .idle | .shrinking | .notifyEnter .resize | .notifyAll .resize | .notifyLeave .resize => false
  | _ => true

namespace ThreadPool

variable {ω π : Type} [DecidableEq ω] [DecidableEq π] {pool after : ThreadPool ω π}
  {thread : Thread ω π} {members : List ω} {early : List π}

/-- A worker that has quit stays away. -/
theorem quit_stays {w : ω} (quit : pool.worker w = .quit) (step : Step pool thread after) :
    after.worker w = .quit := by
  have elsewhere : ∀ {v : ω} {place : Worker π} (next : Worker π), pool.worker v = place →
      place ≠ .quit → Function.update pool.worker v next w = .quit := by
    intro v place next here other
    have apart : w ≠ v := by
      rintro rfl
      exact other (here.symm.trans quit)
    rwa [Function.update_of_ne apart]
  cases step with
  | popFirst here _ | popNothing here _ | finish here | wanted here _ | unwanted here _ | lock here _
  | testPop here _ | testNothing here _ | readDone here _ | readNotDone here _ | readFlag here _
  | readNoFlag here _ | block here | relock here _ _ | unlock here | grow _ _ _ here =>
      exact elsewhere _ here (by simp)
  | _ => exact quit

/-- A call that has returned is over. -/
theorem returned_stays {p : π} (returned : pool.caller p = .returned)
    (step : Step pool thread after) : after.caller p = .returned := by
  have elsewhere : ∀ {q : π} {place : Caller} (next : Caller), pool.caller q = place →
      place ≠ .returned → Function.update pool.caller q next p = .returned := by
    intro q place next here other
    have apart : p ≠ q := by
      rintro rfl
      exact other (here.symm.trans returned)
    rwa [Function.update_of_ne apart]
  cases step with
  | push here | pushLock here _ | notifyOne here _ | notifyNobody here _ | pushUnlock here =>
      exact elsewhere _ here (by simp)
  | _ => exact returned

/-- All workers that were in the pool have quit. -/
def Gone (members : List ω) (worker : ω → Worker π) : Prop := ∀ w ∈ members, worker w = .quit

/-- The control is in a call of `stop` that has asked the workers to quit. -/
def Waits (members : List ω) (worker : ω → Worker π) (control : Control ω) : Prop :=
  control = .notifyEnter .stop ∨ control = .notifyAll .stop ∨ control = .notifyLeave .stop ∨
    ∃ left, control = .joining left ∧ ∀ w ∈ members, w ∈ left ∨ worker w = .quit

/-- `stop` has yet to wait for the workers that were in the pool, or they have quit. -/
def Phase (members : List ω) (pool : ThreadPool ω π) : Prop :=
  pool.threads = members ∧ pool.isStop = false ∧ Waits members pool.worker pool.control ∨
    Gone members pool.worker

omit [DecidableEq ω] [DecidableEq π] in
/-- Where the control is not while `stop` waits. -/
theorem Waits.elsewhere {worker : ω → Worker π} {control place : Control ω}
    (waits : Waits members worker control) (here : control = place)
    (outside : place.stopping = false ∨ place = .emptying) : False := by
  subst here
  rcases waits with rfl | rfl | rfl | ⟨left, rfl, -⟩ <;> rcases outside with other | other <;> cases other

theorem Phase.step (phase : Phase members pool) (done : pool.isDone = true)
    (step : Step pool thread after) : Phase members after := by
  rcases phase with ⟨threads, running, waits⟩ | gone
  · -- a step of somebody else
    have others : after.threads = pool.threads → after.isStop = pool.isStop →
        after.control = pool.control → Phase members after := by
      intro sameThreads sameStop sameControl
      refine .inl ⟨sameThreads.trans threads, sameStop.trans running, ?_⟩
      rw [sameControl]
      refine waits.imp_right (Or.imp_right (Or.imp_right ?_))
      rintro ⟨left, joining, rest⟩
      exact ⟨left, joining, fun w member => (rest w member).imp_right fun quit => quit_stays quit step⟩
    cases step with
    | grow _ _ open_ _ | shrink _ _ open_ _ | stopWait _ _ open_ => cases done.symm.trans open_
    | shrunk here | stopNow here _ | flagOne here | flagged here | resized here | clearOne here _
    | stopped here _ => exact (waits.elsewhere here (.inl rfl)).elim
    | emptyOne here _ | emptied here _ => exact (waits.elsewhere here (.inr rfl)).elim
    | @notifyLock following here _ =>
        cases following with
        | resize => exact (waits.elsewhere here (.inl rfl)).elim
        | stop => exact .inl ⟨threads, running, .inr (.inl rfl)⟩
    | @notifyAll following here =>
        cases following with
        | resize => exact (waits.elsewhere here (.inl rfl)).elim
        | stop => exact .inl ⟨threads, running, .inr (.inr (.inl rfl))⟩
    | notified here =>
        refine .inl ⟨threads, running, .inr (.inr (.inr ⟨_, rfl, fun w member => .inl ?_⟩))⟩
        rwa [threads]
    | @join v left here quit =>
        refine .inl ⟨threads, running, .inr (.inr (.inr ⟨left, rfl, fun w member => ?_⟩))⟩
        rcases waits with other | other | other | ⟨rest, joining, waiting⟩
        · cases here.symm.trans other
        · cases here.symm.trans other
        · cases here.symm.trans other
        · cases here.symm.trans joining
          rcases waiting w member with later | gone
          · rcases List.mem_cons.mp later with rfl | later
            · exact .inr quit
            · exact .inl later
          · exact .inr gone
    | joined here =>
        rcases waits with other | other | other | ⟨rest, joining, waiting⟩
        · cases here.symm.trans other
        · cases here.symm.trans other
        · cases here.symm.trans other
        · cases here.symm.trans joining
          exact .inr fun w member => (waiting w member).resolve_left List.not_mem_nil
    | _ => exact others rfl rfl rfl
  · exact .inr fun w member => quit_stays (gone w member) step

/-- What `stop(true)` keeps: a worker of the pool that is through with the queue has left none of
the functors whose calls had returned, and `stop` has deleted none of them. -/
structure Draining (members : List ω) (early : List π) (pool : ThreadPool ω π) : Prop where
  done : pool.isDone = true
  phase : Phase members pool
  returned : ∀ p ∈ early, pool.caller p = .returned
  through : ∀ w ∈ members, (pool.worker w).through = true → ∀ p ∈ early, p ∉ pool.q
  kept : ∀ p ∈ early, (p, Fate.cleared) ∉ pool.ended

/-- A worker that is through has been through, or the queue is empty. -/
theorem through_before (draining : Draining members early pool) (sound : pool.Sound)
    (step : Step pool thread after) {w : ω} (member : w ∈ members)
    (through : (after.worker w).through = true) :
    (pool.worker w).through = true ∨ pool.q = [] := by
  have elsewhere : ∀ {v : ω} {place : Worker π} {next : Worker π}, pool.worker v = place →
      (next.through = true → place.through = true ∨ pool.q = []) →
      (Function.update pool.worker v next w).through = true →
      (pool.worker w).through = true ∨ pool.q = [] := by
    intro v place next here kept now
    by_cases same : w = v
    · subst same
      rw [Function.update_self] at now
      rw [here]
      exact kept now
    · rw [Function.update_of_ne same] at now
      exact .inl now
  cases step with
  | testNothing _ nothing => exact .inr nothing
  | popNothing here nothing => exact .inr nothing
  | @unwanted v here flag =>
      by_cases same : w = v
      · -- the workers of the pool are wanted, or gone
        subst same
        rcases draining.phase with ⟨threads, running, -⟩ | gone
        · rw [← threads] at member
          rw [sound.roster.wanted running w member] at flag
          cases flag
        · cases here.symm.trans (gone w member)
      · rw [show (pool.move v .quit).worker w = pool.worker w from Function.update_of_ne same ..]
          at through
        exact .inl through
  | @unlock v taken here =>
      exact elsewhere here (by cases taken <;> simp [Worker.afterWait, Worker.through]) through
  | popFirst here _ | finish here | wanted here _ | lock here _
  | testPop here _ | readDone here _ | readNotDone here _ | readFlag here _
  | readNoFlag here _ | block here | relock here _ _ | grow _ _ _ here =>
      exact elsewhere here (by simp [Worker.through]) through
  | _ => exact .inl through

/-- What is in the queue after a step was there before, or is of a call that had not been made. -/
theorem queued_before (step : Step pool thread after) {p : π} (member : p ∈ after.q) :
    p ∈ pool.q ∨ pool.caller p = .idle := by
  cases step with
  | popFirst _ first | testPop _ first | take first | emptyOne _ first | clearOne _ first =>
      rw [first]
      exact .inl (List.mem_cons_of_mem _ member)
  | push here =>
      rcases List.mem_append.mp member with old | new
      · exact .inl old
      · rw [List.mem_singleton.mp new]
        exact .inr here
  | _ => exact .inl member

/-- What `stop` deletes is in the queue, when it empties the queue. -/
theorem cleared_before (step : Step pool thread after) {p : π}
    (cleared : (p, Fate.cleared) ∈ after.ended) :
    (p, Fate.cleared) ∈ pool.ended ∨
      p ∈ pool.q ∧ (pool.control = .emptying ∨ pool.control = .clearing) := by
  have appended : ∀ {q : π} {fate : Fate}, (p, Fate.cleared) ∈ pool.ended ++ [(q, fate)] →
      (p, Fate.cleared) ∈ pool.ended ∨ p = q ∧ fate = .cleared := by
    intro q fate member
    rcases List.mem_append.mp member with old | new
    · exact .inl old
    · cases List.mem_singleton.mp new
      exact .inr ⟨rfl, rfl⟩
  cases step with
  | finish _ | take _ =>
      rcases appended cleared with old | ⟨-, other⟩
      · exact .inl old
      · cases other
  | emptyOne here first =>
      rcases appended cleared with old | ⟨rfl, -⟩
      · exact .inl old
      · exact .inr ⟨by rw [first]; exact List.mem_cons_self, .inl here⟩
  | clearOne here first =>
      rcases appended cleared with old | ⟨rfl, -⟩
      · exact .inl old
      · exact .inr ⟨by rw [first]; exact List.mem_cons_self, .inr here⟩
  | _ => exact .inl cleared

omit [DecidableEq ω] [DecidableEq π] in
/-- When the control is through with waiting, all workers have quit. -/
theorem Phase.gone (phase : Phase members pool) {place : Control ω} (here : pool.control = place)
    (outside : place.stopping = false ∨ place = .emptying) : Gone members pool.worker := by
  rcases phase with ⟨-, -, waits⟩ | gone
  · exact (waits.elsewhere here outside).elim
  · exact gone

theorem Draining.step (draining : Draining members early pool) (sound : pool.Sound)
    (staffed : members ≠ []) (step : Step pool thread after) : Draining members early after := by
  refine ⟨?_, draining.phase.step draining.done step,
    fun p member => returned_stays (draining.returned p member) step,
    fun w member through p before queued => ?_, fun p before cleared => ?_⟩
  · have done := draining.done
    cases step <;> first | exact done | rfl
  · rcases queued_before step queued with old | fresh
    · rcases through_before draining sound step member through with past | nothing
      · exact draining.through w member past p before old
      · rw [nothing] at old
        cases old
    · cases fresh.symm.trans (draining.returned p before)
  · rcases cleared_before step cleared with old | ⟨queued, place⟩
    · exact draining.kept p before old
    · have gone : Gone members pool.worker := by
        rcases place with here | here
        · exact draining.phase.gone here (.inr rfl)
        · exact draining.phase.gone here (.inl rfl)
      obtain ⟨w, member⟩ := List.exists_mem_of_ne_nil members staffed
      exact draining.through w member (by rw [gone w member]; rfl) p before queued

/-! ## Before the call of `stop` -/

/-- While neither `isDone` nor `isStop` is set, `stop` has not begun, and nothing has been deleted;
and no worker quits that is wanted. -/
structure Open (pool : ThreadPool ω π) : Prop where
  kept : pool.isDone = false → pool.isStop = false → ∀ p, (p, Fate.cleared) ∉ pool.ended
  halting : pool.control.halting = true → pool.isDone = true ∨ pool.isStop = true
  through : ∀ w, pool.worker w = .leave none ∨ pool.worker w = .quit →
    pool.isDone = true ∨ pool.flag w = true

/-- `isDone` and `isStop` are never cleared. -/
theorem open_before (step : Step pool thread after) :
    (after.isDone = false → pool.isDone = false) ∧ (after.isStop = false → pool.isStop = false) := by
  cases step with
  | stopWait _ _ done => exact ⟨nofun, id⟩
  | stopNow _ _ => exact ⟨id, nofun⟩
  | _ => exact ⟨id, id⟩

theorem halting_step (opened : Open pool) (step : Step pool thread after)
    (halting : after.control.halting = true) : after.isDone = true ∨ after.isStop = true := by
  have before : ∀ {place : Control ω}, pool.control = place → place.halting = true →
      pool.isDone = true ∨ pool.isStop = true := by
    rintro place rfl stops
    exact opened.halting stops
  cases step with
  | stopNow _ _ => exact .inr rfl
  | stopWait _ _ _ => exact .inl rfl
  | shrink _ _ _ _ | shrunk _ | resized _ | stopped _ _ => cases halting
  | @notifyLock following here _ =>
      exact before here (by cases following <;> exact halting)
  | @notifyAll following here =>
      exact before here (by cases following <;> exact halting)
  | flagOne here | flagged here | emptied here _ | notified here | join here _ | joined here =>
      exact before here rfl
  | _ => exact opened.halting halting

theorem unwanted_step (opened : Open pool) (step : Step pool thread after) (w : ω)
    (through : after.worker w = .leave none ∨ after.worker w = .quit) :
    after.isDone = true ∨ after.flag w = true := by
  have elsewhere : ∀ {v : ω} {place : Worker π} (next : Worker π), pool.worker v = place →
      (next = .leave none ∨ next = .quit → pool.isDone = true ∨ pool.flag v = true) →
      Function.update pool.worker v next w = .leave none ∨
        Function.update pool.worker v next w = .quit → pool.isDone = true ∨ pool.flag w = true := by
    intro v place next here kept now
    by_cases same : w = v
    · subst same
      rw [Function.update_self] at now
      exact kept now
    · rw [Function.update_of_ne same] at now
      exact opened.through w now
  have set : ∀ {v : ω}, pool.isDone = true ∨ pool.flag w = true →
      pool.isDone = true ∨ Function.update pool.flag v true w = true := by
    intro v asked
    refine asked.imp_right fun flagged => ?_
    by_cases same : w = v
    · rw [same, Function.update_self]
    · rwa [Function.update_of_ne same]
  cases step with
  | unwanted here flag | readFlag here flag => exact elsewhere _ here (fun _ => .inr flag) through
  | readDone here done => exact .inl done
  | @unlock v taken here =>
      refine elsewhere _ here (fun next => ?_) through
      cases taken with
      | none => exact opened.through v (.inl here)
      | some p => rcases next with other | other <;> cases other
  | popFirst here _ | popNothing here _ | finish here | wanted here _ | lock here _ | testPop here _
  | testNothing here _ | readNotDone here _ | readNoFlag here _ | block here | relock here _ _ =>
      exact elsewhere _ here (by simp) through
  | @grow v _ _ _ absent =>
      have grown : Function.update pool.worker v .start w = .leave none ∨
          Function.update pool.worker v .start w = .quit := through
      by_cases same : w = v
      · subst same
        rw [Function.update_self] at grown
        rcases grown with other | other <;> cases other
      · rw [Function.update_of_ne same] at grown
        refine (opened.through w grown).imp_right fun flagged => ?_
        show Function.update pool.flag v false w = true
        rwa [Function.update_of_ne same]
  | stopWait _ _ _ => exact .inl rfl
  | shrink _ _ _ _ | flagOne _ => exact set (opened.through w through)
  | _ => exact opened.through w through

theorem Open.step (opened : Open pool) (step : Step pool thread after) : Open after := by
  refine ⟨fun notDone running p cleared => ?_, halting_step opened step, unwanted_step opened step⟩
  have closed := (open_before step).1 notDone
  have still := (open_before step).2 running
  rcases cleared_before step cleared with old | ⟨-, place⟩
  · exact opened.kept closed still p old
  · have halting : pool.control.halting = true := by
      rcases place with here | here <;> rw [here] <;> rfl
    rcases opened.halting halting with done | stopped
    · cases closed.symm.trans done
    · cases still.symm.trans stopped

end ThreadPool

open ThreadPool

variable {ω π : Type} [DecidableEq ω] [DecidableEq π]

theorem open_of_run {labels : List (Thread ω π)} {pool : ThreadPool ω π}
    (run : LabelledRun Step init labels pool) : Open pool := by
  refine run.invariant Open (fun _ _ _ opened step => opened.step step) ⟨?_, nofun, ?_⟩
  · intro _ _ p
    exact List.not_mem_nil
  · rintro w (other | other) <;> cases other

/-- What is the case when `stop(true)` is called. -/
theorem draining_of_stop {labels : List (Thread ω π)} {pool : ThreadPool ω π} {early : List π}
    (run : LabelledRun Step init labels pool) (running : pool.isStop = false)
    (notDone : pool.isDone = false) (returned : ∀ p ∈ early, pool.caller p = .returned) :
    Draining pool.threads early { pool with isDone := true, control := .notifyEnter .stop } := by
  have sound := sound_of_run run
  have opened := open_of_run run
  refine ⟨rfl, .inl ⟨rfl, running, .inl rfl⟩, returned, fun w member through p before queued => ?_,
    fun p _ => opened.kept notDone running p⟩
  have wanted := sound.roster.wanted running w member
  have stays : ¬ (pool.worker w = .leave none ∨ pool.worker w = .quit) := by
    intro quits
    rcases opened.through w quits with done | flagged
    · cases notDone.symm.trans done
    · cases wanted.symm.trans flagged
  have tested : (pool.worker w).tested = true := by
    have past : (pool.worker w).through = true := through
    cases here : pool.worker w with
    | empty | notDone | failed => rfl
    | leave taken =>
        cases taken with
        | none => exact absurd (.inl here) stays
        | some q =>
            rw [here] at past
            cases past
    | quit => exact absurd (.inr here) stays
    | absent | start | run _ | ran | enter | test | waiting =>
        rw [here] at past
        cases past
  have pending := sound.roused.late w tested p queued
  rw [returned p before] at pending
  cases pending

/-- **`stop(true)` runs what was pushed.** A functor whose `push` had returned when `stop(true)` was
called has been run when `stop` has returned, unless the program took it out of the queue itself,
or a worker that `resize` had let go has it. -/
theorem stop_runs_all {earlier later : List (Thread ω π)} {pool last : ThreadPool ω π}
    (run : LabelledRun Step init earlier pool) (idle : pool.control = .idle)
    (running : pool.isStop = false) (notDone : pool.isDone = false) (staffed : pool.threads ≠ [])
    (stop : LabelledRun Step { pool with isDone := true, control := .notifyEnter .stop } later last)
    (returned : last.control = .idle) {p : π} (pushed : pool.caller p = .returned) :
    (p, Fate.ran) ∈ last.ended ∨ (p, Fate.taken) ∈ last.ended ∨
      ∃ w, w ∉ pool.threads ∧ (last.worker w).task = some p := by
  have sound := sound_of_run (run.append (.single (.stopWait idle running notDone)))
  obtain ⟨draining, final⟩ := stop.invariant
    (fun pool' => Draining pool.threads [p] pool' ∧ pool'.Sound)
    (fun _ _ _ both step => ⟨both.1.step both.2 staffed step, both.2.step step⟩)
    ⟨draining_of_stop run running notDone (by simpa using pushed), sound⟩
  have gone := draining.phase.gone returned (.inl rfl)
  obtain ⟨w, member⟩ := List.exists_mem_of_ne_nil _ staffed
  have left := draining.through w member (by rw [gone w member]; rfl) p List.mem_cons_self
  have accepted : p ∈ last.pushed := by
    refine (final.recorded p).mpr ?_
    rw [draining.returned p List.mem_cons_self]
    simp
  have dequeued : p ∈ last.dequeued := by
    rw [show last.pushed = last.dequeued ++ last.q from final.conserved.order] at accepted
    exact (List.mem_append.mp accepted).resolve_right left
  rcases (final.conserved.gone p).mp dequeued with ended | ⟨holder, holds⟩
  · obtain ⟨⟨q, fate⟩, member, rfl⟩ := List.mem_map.mp ended
    cases fate with
    | ran => exact .inl member
    | taken => exact .inr (.inl member)
    | cleared => exact absurd member (draining.kept q List.mem_cons_self)
  · cases holder with
    | none => cases holds
    | some v =>
        refine .inr (.inr ⟨v, fun inside => ?_, holds⟩)
        have task : (last.worker v).task = some p := holds
        rw [gone v inside] at task
        cases task

/-- A functor is in the queue when `stop(true)` is called, and the worker runs it. -/
theorem stop_runs_all_queued : ∃ last : ThreadPool Unit Unit, last.control = .idle ∧
    (((), Fate.ran) ∈ last.ended ∨ ((), Fate.taken) ∈ last.ended ∨
      ∃ w, w ∉ [()] ∧ (last.worker w).task = some ()) := by
  have run : LabelledRun Step (init : ThreadPool Unit Unit) _ _ :=
    .cons (.grow (w := ()) rfl rfl rfl rfl) <| .cons (.push (p := ()) rfl) <|
      .cons (.pushLock (p := ()) rfl rfl) <| .cons (.notifyNobody (p := ()) rfl fun _ => rfl) <|
      .single (.pushUnlock (p := ()) rfl)
  refine ⟨_, ?_, stop_runs_all run rfl rfl rfl (List.cons_ne_nil () []) (.cons (.popFirst (w := ()) rfl rfl) <|
    .cons (.finish (w := ()) rfl) <| .cons (.wanted (w := ()) rfl rfl) <|
    .cons (.popNothing (w := ()) rfl rfl) <| .cons (.lock (w := ()) rfl rfl) <|
    .cons (.testNothing (w := ()) rfl rfl) <| .cons (.readDone (w := ()) rfl rfl) <|
    .cons (.unlock (w := ()) rfl) <| .cons (.notifyLock rfl rfl) <| .cons (.notifyAll rfl) <|
    .cons (.notified rfl) <| .cons (.join rfl rfl) <| .cons (.joined rfl) <|
    .single (.stopped rfl rfl)) rfl rfl⟩
  rfl

end Handy.Ctpl
