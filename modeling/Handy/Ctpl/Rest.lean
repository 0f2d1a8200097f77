import Handy.Ctpl
import Handy.Lib.Wakeup

/-!
# Nobody sleeps on a functor

A worker that blocks has found the queue empty while it had the mutex. A functor that was pushed
since then is one whose call has not notified anybody yet, for which it needs the mutex. So while
a worker is blocked there are as many calls that are to notify and workers that have been notified
as there are functors in the queue (`Roused`). `resize` and `stop` set what they have to set before
they take the mutex, so a worker that blocks although it is not wanted will be told (`Told`).

When nothing more can happen by itself, every `push` has returned, `resize` and `stop` have
returned unless a worker that `stop` waits for runs a functor, and no worker waits while there is
something in the queue or it is to stop (`pool_at_rest`).
-/

set_option autoImplicit false

namespace Handy.Ctpl

open Wakeup

/-- The functor of a call is in the queue, and nobody has been notified of it. -/
def Caller.pending : Caller → Bool
  | .queued | .notify => true
  | _ => false

/-- A worker has found the queue empty, and has the mutex since then. -/
def Worker.tested {π : Type} : Worker π → Bool
  | .empty | .notDone | .failed => true
  | _ => false

theorem Worker.locked_of_tested {π : Type} {place : Worker π} (tested : place.tested = true) :
    place.locked = true := by
  cases place <;> first | rfl | cases tested

theorem Worker.tested_afterWait {π : Type} (taken : Option π) :
    (Worker.afterWait taken).tested = false := by
  cases taken <;> rfl

/-- The control has set what it has to set, or is about to, and is to notify everybody. -/
def Control.untold {ω : Type} : Control ω → Bool
  | .shrinking | .flagging _ | .emptying | .notifyEnter _ | .notifyAll _ => true
  | _ => false

/-- `stop` has set what it has to set. -/
def Control.stopping {ω : Type} : Control ω → Bool
  | .emptying | .notifyEnter .stop | .notifyAll .stop | .notifyLeave .stop | .joining _ => true
  | _ => false

section Rousing

variable {ω π : Type} {q : List π} {blocked : ω → Bool} {worker : ω → Worker π} {caller : π → Caller}

/-- Who has yet to look into the queue, or to notify somebody who will. -/
def Owes (blocked : ω → Bool) (worker : ω → Worker π) (caller : π → Caller) : Thread ω π → Prop
  | .worker w => worker w = .test ∨ worker w = .waiting ∧ blocked w = false
  | .caller p => (caller p).pending = true
  | .control | .user => False

/-- The threads that owe a look into the queue. -/
def owing (blocked : ω → Bool) (worker : ω → Worker π) (caller : π → Caller) : Set (Thread ω π) :=
  {thread | Owes blocked worker caller thread}

/-- The functors in the queue are covered while a worker is blocked. -/
structure Roused (q : List π) (blocked : ω → Bool) (worker : ω → Worker π)
    (caller : π → Caller) : Prop where
  asleep : ∀ w, blocked w = true → worker w = .waiting
  late : ∀ w, (worker w).tested = true → ∀ p ∈ q, (caller p).pending = true
  covered : (∃ w, blocked w = true) → Covered q.length (owing blocked worker caller)

namespace Roused

/-- Functors are taken out of the queue. -/
theorem shorter (roused : Roused q blocked worker caller) {rest : List π}
    (fewer : rest.Sublist q) : Roused rest blocked worker caller :=
  ⟨roused.asleep, fun w tested p member => roused.late w tested p (fewer.subset member),
    fun sleeps => (roused.covered sleeps).mono fewer.length_le (Set.Subset.refl _)⟩

section Workers

variable [DecidableEq ω] {w : ω}

/-- A worker that goes elsewhere leaves what the others owe. -/
theorem owes_move {other : Thread ω π} (different : other ≠ .worker w) (next : Worker π) :
    Owes blocked (Function.update worker w next) caller other ↔ Owes blocked worker caller other := by
  cases other with
  | worker v =>
      have apart : v ≠ w := fun same => different (congrArg Thread.worker same)
      simp [Owes, apart]
  | caller _ | control | user => rfl

/-- A worker that is not blocked moves. -/
theorem asleep_move (asleep : ∀ v, blocked v = true → worker v = .waiting) {place : Worker π}
    (here : worker w = place) (awake : place ≠ .waiting) (next : Worker π) (v : ω)
    (sleeps : blocked v = true) : Function.update worker w next v = .waiting := by
  have apart : v ≠ w := by
    rintro rfl
    exact awake (here.symm.trans (asleep v sleeps))
  rw [Function.update_of_ne apart, asleep v sleeps]

/-- A worker moves, and has found the queue empty only if it had before. -/
theorem late_move (late : ∀ v, (worker v).tested = true → ∀ p ∈ q, (caller p).pending = true)
    {place next : Worker π} (here : worker w = place)
    (tested : next.tested = true → place.tested = true) (v : ω)
    (now : (Function.update worker w next v).tested = true) :
    ∀ p ∈ q, (caller p).pending = true := by
  by_cases same : v = w
  · subst same
    rw [Function.update_self] at now
    exact late v (by rw [here, tested now])
  · rw [Function.update_of_ne same] at now
    exact late v now

/-- A worker that owes nothing goes elsewhere. -/
theorem move (roused : Roused q blocked worker caller) {place : Worker π} (here : worker w = place)
    (next : Worker π) (free : place ≠ .test) (awake : place ≠ .waiting)
    (tested : next.tested = true → place.tested = true) :
    Roused q blocked (Function.update worker w next) caller := by
  refine ⟨asleep_move roused.asleep here awake next, late_move roused.late here tested,
    fun sleeps => (roused.covered sleeps).mono le_rfl fun other owes => ?_⟩
  refine (owes_move ?_ next).mpr owes
  rintro rfl
  rcases owes with test | ⟨waiting, -⟩
  · exact free (here.symm.trans test)
  · exact awake (here.symm.trans waiting)

/-- A worker that tests the queue takes a functor. -/
theorem testPop (roused : Roused q blocked worker caller) {p : π} {rest : List π}
    (here : worker w = .test) (first : q = p :: rest) :
    Roused rest blocked (Function.update worker w (.leave (some p))) caller := by
  subst first
  refine ⟨asleep_move roused.asleep here (by simp) _, fun v now p member => ?_, fun sleeps => ?_⟩
  · exact late_move roused.late here (by simp [Worker.tested]) v now p (List.mem_cons_of_mem _ member)
  · refine (roused.covered sleeps).pay (.worker w) ?_
    rintro other ⟨owes, different⟩
    exact (owes_move different _).mpr owes

/-- A worker that tests the queue finds it empty. -/
theorem testNothing (roused : Roused ([] : List π) blocked worker caller) (here : worker w = .test) :
    Roused [] blocked (Function.update worker w .empty) caller :=
  ⟨asleep_move roused.asleep here (by simp) _, fun _ _ _ member => absurd member List.not_mem_nil,
    fun _ => Covered.nothing _⟩

/-- A worker that has found the queue empty blocks: the functors in the queue are of calls that
have not notified anybody. -/
theorem block (roused : Roused q blocked worker caller) (distinct : q.Nodup)
    (here : worker w = .failed) :
    Roused q (Function.update blocked w true) (Function.update worker w .waiting) caller := by
  refine ⟨fun v sleeps => ?_, late_move roused.late here (by simp [Worker.tested]), fun _ => ?_⟩
  · by_cases same : v = w
    · rw [same, Function.update_self]
    · rw [Function.update_of_ne same] at sleeps ⊢
      exact roused.asleep v sleeps
  · refine Covered.of_each distinct Thread.caller (fun _ _ => Thread.caller.inj) fun p member => ?_
    exact roused.late w (by rw [here]; rfl) p member

/-- What is owed stays when a worker wakes up. -/
theorem owes_wake {other : Thread ω π} (owes : Owes blocked worker caller other) :
    Owes (Function.update blocked w false) worker caller other := by
  cases other with
  | worker v =>
      rcases owes with test | ⟨waiting, awake⟩
      · exact .inl test
      · refine .inr ⟨waiting, ?_⟩
        by_cases same : v = w
        · rw [same, Function.update_self]
        · rw [Function.update_of_ne same, awake]
  | caller _ | control | user => exact owes

theorem asleep_wake (asleep : ∀ v, blocked v = true → worker v = .waiting) (v : ω)
    (still : Function.update blocked w false v = true) : worker v = .waiting := by
  by_cases same : v = w
  · subst same
    rw [Function.update_self] at still
    cases still
  · rw [Function.update_of_ne same] at still
    exact asleep v still

/-- A worker wakes up. -/
theorem wake (roused : Roused q blocked worker caller) (sleeps : blocked w = true) :
    Roused q (Function.update blocked w false) worker caller :=
  ⟨asleep_wake roused.asleep, roused.late,
    fun _ => (roused.covered ⟨w, sleeps⟩).mono le_rfl fun _ => owes_wake⟩

/-- A worker that has woken up takes the mutex. -/
theorem relock (roused : Roused q blocked worker caller) (here : worker w = .waiting)
    (woken : blocked w = false) : Roused q blocked (Function.update worker w .test) caller := by
  refine ⟨fun v sleeps => ?_, late_move roused.late here (by simp [Worker.tested]),
    fun sleeps => (roused.covered sleeps).mono le_rfl fun other owes => ?_⟩
  · have apart : v ≠ w := by
      rintro rfl
      rw [woken] at sleeps
      cases sleeps
    rw [Function.update_of_ne apart, roused.asleep v sleeps]
  · by_cases different : other = .worker w
    · subst different
      exact .inl (Function.update_self ..)
    · exact (owes_move different _).mpr owes

end Workers

section Callers

variable [DecidableEq π] {p : π}

/-- A call that goes on leaves what the others owe. -/
theorem owes_call {other : Thread ω π} (different : other ≠ .caller p) (next : Caller) :
    Owes blocked worker (Function.update caller p next) other ↔ Owes blocked worker caller other := by
  cases other with
  | caller other =>
      have apart : other ≠ p := fun same => different (congrArg Thread.caller same)
      simp [Owes, apart]
  | worker _ | control | user => rfl

/-- A call goes on, and owes as before. -/
theorem call (roused : Roused q blocked worker caller) {place : Caller} (here : caller p = place)
    (next : Caller) (same : place.pending = true → next.pending = true) :
    Roused q blocked worker (Function.update caller p next) := by
  have kept : ∀ other, (caller other).pending = true →
      (Function.update caller p next other).pending = true := by
    intro other pending
    by_cases mine : other = p
    · subst mine
      rw [Function.update_self]
      exact same (here ▸ pending)
    · rwa [Function.update_of_ne mine]
  refine ⟨roused.asleep, fun w tested other member => kept other (roused.late w tested other member),
    fun sleeps => (roused.covered sleeps).mono le_rfl fun other owes => ?_⟩
  cases other with
  | caller other => exact kept other owes
  | worker _ | control | user => exact owes

/-- A call puts its functor into the queue. -/
theorem push (roused : Roused q blocked worker caller) (here : caller p = .idle) :
    Roused (q ++ [p]) blocked worker (Function.update caller p .queued) := by
  have begun : Roused q blocked worker (Function.update caller p .queued) :=
    roused.call here .queued fun _ => rfl
  refine ⟨roused.asleep, fun w tested other member => ?_, fun sleeps => ?_⟩
  · rcases List.mem_append.mp member with old | new
    · exact begun.late w tested other old
    · rw [List.mem_singleton.mp new, Function.update_self]
      rfl
  · rw [List.length_append, List.length_singleton]
    refine (roused.covered sleeps).add (.caller p) ?_ ?_
    · intro owes
      have pending : (caller p).pending = true := owes
      rw [here] at pending
      cases pending
    · rintro other (rfl | owes)
      · show (Function.update caller p .queued p).pending = true
        rw [Function.update_self]
        rfl
      · by_cases different : other = .caller p
        · subst different
          show (Function.update caller p .queued p).pending = true
          rw [Function.update_self]
          rfl
        · exact (owes_call different _).mpr owes

/-- A call notifies a worker, which owes what the call has owed. No worker has just found the queue
empty, since the call has the mutex. -/
theorem notifyOne [DecidableEq ω] {w : ω} (roused : Roused q blocked worker caller)
    (alone : ∀ v, (worker v).tested = false) (sleeps : blocked w = true) :
    Roused q (Function.update blocked w false) worker (Function.update caller p .leave) := by
  refine ⟨asleep_wake roused.asleep, fun v tested => ?_, fun _ => ?_⟩
  · rw [alone v] at tested
    cases tested
  · refine (roused.covered ⟨w, sleeps⟩).hand_on (.caller p) (.worker w) ?_ ?_
    · rintro (test | ⟨-, awake⟩)
      · rw [roused.asleep w sleeps] at test
        cases test
      · rw [sleeps] at awake
        cases awake
    · rintro other (rfl | ⟨owes, different⟩)
      · exact .inr ⟨roused.asleep w sleeps, Function.update_self ..⟩
      · exact owes_wake ((owes_call different _).mpr owes)

end Callers

/-- Everybody is awake, and no worker has just found the queue empty. -/
theorem of_awake (awake : ∀ w, blocked w = false) (alone : ∀ w, (worker w).tested = false) :
    Roused q blocked worker caller := by
  refine ⟨fun w sleeps => ?_, fun w tested => ?_, ?_⟩
  · rw [awake w] at sleeps
    cases sleeps
  · rw [alone w] at tested
    cases tested
  · rintro ⟨w, sleeps⟩
    rw [awake w] at sleeps
    cases sleeps

end Roused

end Rousing

namespace ThreadPool

variable {ω π : Type} [DecidableEq ω] [DecidableEq π] {pool after : ThreadPool ω π}
  {thread : Thread ω π}

omit [DecidableEq ω] [DecidableEq π] in
/-- While somebody else has the mutex, no worker has just found the queue empty. -/
theorem untested (exclusive : Mutex.Exclusive pool.owner pool.locked)
    (inside : pool.locked thread = true) (other : ∀ w, Thread.worker w ≠ thread) (w : ω) :
    (pool.worker w).tested = false := by
  rw [← Bool.not_eq_true]
  intro tested
  exact other w (exclusive.unique (Worker.locked_of_tested tested) inside)

theorem roused_step (exclusive : Mutex.Exclusive pool.owner pool.locked) (distinct : pool.q.Nodup)
    (roused : Roused pool.q pool.blocked pool.worker pool.caller)
    (step : Step pool thread after) :
    Roused after.q after.blocked after.worker after.caller := by
  cases step with
  | popFirst here first =>
      rw [first] at roused
      exact (roused.shorter (List.sublist_cons_self ..)).move here _ (by simp) (by simp)
        (by simp [Worker.tested])
  | testPop here first => exact roused.testPop here first
  | testNothing here nothing =>
      rw [nothing] at roused
      have tested := roused.testNothing here
      rwa [← nothing] at tested
  | popNothing here _ | finish here | wanted here _ | unwanted here _ | lock here _ | readDone here _
  | readFlag here _ => exact roused.move here _ (by simp) (by simp) (by simp [Worker.tested])
  | readNotDone here _ | readNoFlag here _ =>
      exact roused.move here _ (by simp) (by simp) fun _ => rfl
  | block here => exact roused.block distinct here
  | spurious sleeps => exact roused.wake sleeps
  | relock here woken _ => exact roused.relock here woken
  | unlock here => exact roused.move here _ (by simp) (by simp) (by simp [Worker.tested_afterWait])
  | push here => exact roused.push here
  | pushLock here _ => exact roused.call here _ fun _ => rfl
  | @notifyOne p here w sleeps =>
      have inside : pool.locked (.caller p) = true := by rw [locked, here]; rfl
      exact roused.notifyOne (untested exclusive inside (by simp)) sleeps
  | @notifyNobody p here nobody =>
      have inside : pool.locked (.caller p) = true := by rw [locked, here]; rfl
      have alone := untested exclusive inside (by simp)
      exact .of_awake nobody alone
  | pushUnlock here => exact roused.call here _ fun later => by cases later
  | take first | emptyOne _ first | clearOne _ first =>
      rw [first] at roused
      exact roused.shorter (List.sublist_cons_self ..)
  | grow _ _ _ absent => exact roused.move absent _ (by simp) (by simp) (by simp [Worker.tested])
  | notifyAll here =>
      have inside : pool.locked .control = true := by rw [locked, here]; rfl
      have alone := untested exclusive inside (by simp)
      exact .of_awake (fun _ => rfl) alone
  | _ => exact roused

/-! ## Workers that are not wanted -/

/-- A worker that is to stop is not blocked, or the control is to notify everybody. -/
structure Told (isDone : Bool) (flag blocked : ω → Bool) (worker : ω → Worker π)
    (control : Control ω) : Prop where
  stale : ∀ w, isDone = true ∨ flag w = true → blocked w = true ∨ worker w = .failed →
    control.untold = true
  missed : ∀ w, isDone = true → worker w = .notDone → control.untold = true

namespace Told

variable {isDone : Bool} {flag blocked : ω → Bool} {worker : ω → Worker π}
  {control next : Control ω}

omit [DecidableEq ω] [DecidableEq π] in
theorem of_untold (untold : control.untold = true) : Told isDone flag blocked worker control :=
  ⟨fun _ _ _ => untold, fun _ _ _ => untold⟩

omit [DecidableEq ω] [DecidableEq π] in
/-- The control goes on, and leaves a notification only when it has made it. -/
theorem goes (told : Told isDone flag blocked worker control)
    (kept : control.untold = true → next.untold = true) : Told isDone flag blocked worker next :=
  ⟨fun w asked sleeps => kept (told.stale w asked sleeps),
    fun w done reading => kept (told.missed w done reading)⟩

omit [DecidableEq π] in
/-- A worker that is at a place after another has moved elsewhere was there before. -/
theorem before {w v : ω} {place other : Worker π} (elsewhere : place ≠ other)
    (now : Function.update worker w place v = other) : worker v = other := by
  by_cases same : v = w
  · rw [same, Function.update_self] at now
    exact absurd now elsewhere
  · rwa [Function.update_of_ne same] at now

omit [DecidableEq π] in
/-- A worker goes elsewhere, but not to block. -/
theorem move (told : Told isDone flag blocked worker control) {w : ω} (place : Worker π)
    (reads : place ≠ .notDone) (blocks : place ≠ .failed) :
    Told isDone flag blocked (Function.update worker w place) control :=
  ⟨fun v asked sleeps => told.stale v asked (sleeps.imp_right (before blocks)),
    fun v done reading => told.missed v done (before reads reading)⟩

omit [DecidableEq π] in
/-- A worker reads that `isDone` is not set. -/
theorem readNotDone (told : Told false flag blocked worker control) (w : ω) :
    Told false flag blocked (Function.update worker w .notDone) control :=
  ⟨fun v asked sleeps => told.stale v asked (sleeps.imp_right (before (by simp))), nofun⟩

omit [DecidableEq π] in
/-- A worker reads that its flag is not set. -/
theorem readNoFlag (told : Told isDone flag blocked worker control) {w : ω}
    (here : worker w = .notDone) (clear : flag w = false) :
    Told isDone flag blocked (Function.update worker w .failed) control := by
  refine ⟨fun v asked sleeps => ?_, fun v done reading => told.missed v done (before (by simp) reading)⟩
  by_cases same : v = w
  · subst same
    rcases asked with done | flagged
    · exact told.missed v done here
    · rw [clear] at flagged
      cases flagged
  · rw [Function.update_of_ne same] at sleeps
    exact told.stale v asked sleeps

omit [DecidableEq π] in
/-- A worker wakes up. -/
theorem wake (told : Told isDone flag blocked worker control) (w : ω) :
    Told isDone flag (Function.update blocked w false) worker control := by
  refine ⟨fun v asked sleeps => told.stale v asked (sleeps.imp_left fun still => ?_), told.missed⟩
  by_cases same : v = w
  · rw [same, Function.update_self] at still
    cases still
  · rwa [Function.update_of_ne same] at still

omit [DecidableEq π] in
/-- A worker that blocks was about to. -/
theorem block (told : Told isDone flag blocked worker control) {w : ω} (here : worker w = .failed) :
    Told isDone flag (Function.update blocked w true) (Function.update worker w .waiting)
      control := by
  have elsewhere := told.move (w := w) .waiting (by simp) (by simp)
  refine ⟨fun v asked sleeps => ?_, elsewhere.missed⟩
  by_cases same : v = w
  · subst same
    exact told.stale v asked (.inr here)
  · rw [Function.update_of_ne same] at sleeps
    exact elsewhere.stale v asked sleeps

omit [DecidableEq π] in
/-- A worker that is made is wanted. -/
theorem grow (told : Told isDone flag blocked worker control) (w : ω) :
    Told isDone (Function.update flag w false) blocked (Function.update worker w .start)
      control := by
  have elsewhere := told.move (w := w) .start (by simp) (by simp)
  refine ⟨fun v asked sleeps => elsewhere.stale v ?_ sleeps, elsewhere.missed⟩
  rcases asked with done | flagged
  · exact .inl done
  · by_cases same : v = w
    · rw [same, Function.update_self] at flagged
      cases flagged
    · rw [Function.update_of_ne same] at flagged
      exact .inr flagged

end Told

theorem told_step (exclusive : Mutex.Exclusive pool.owner pool.locked)
    (told : Told pool.isDone pool.flag pool.blocked pool.worker pool.control)
    (step : Step pool thread after) :
    Told after.isDone after.flag after.blocked after.worker after.control := by
  cases step with
  | popFirst _ _ | popNothing _ _ | finish _ | wanted _ _ | unwanted _ _ | lock _ _ | testPop _ _
  | testNothing _ _ | readDone _ _ | readFlag _ _ | relock _ _ _ =>
      exact told.move _ (by simp) (by simp)
  | @unlock w taken here =>
      exact told.move _ (by cases taken <;> simp [Worker.afterWait])
        (by cases taken <;> simp [Worker.afterWait])
  | @readNotDone w here notDone =>
      rw [notDone] at told
      have reads := told.readNotDone w
      rwa [← notDone] at reads
  | readNoFlag here clear => exact told.readNoFlag here clear
  | block here => exact told.block here
  | spurious _ | notifyOne _ _ => exact told.wake _
  | grow _ _ _ _ => exact told.grow _
  | shrink _ _ _ _ | shrunk _ | stopNow _ _ | flagOne _ | flagged _ | emptied _ _ | stopWait _ _ _
  | notifyLock _ _ => exact .of_untold rfl
  | notifyAll here =>
      have inside : pool.locked .control = true := by rw [locked, here]; rfl
      have alone := untested exclusive inside (by simp)
      refine ⟨fun w _ sleeps => ?_, fun w _ reading => ?_⟩
      · rcases sleeps with sleeps | blocks
        · cases sleeps
        · have tested := alone w
          rw [blocks] at tested
          cases tested
      · have tested := alone w
        rw [reading] at tested
        cases tested
  | resized here | notified here | join here _ | joined here | stopped here _ =>
      rw [here] at told
      exact told.goes fun untold => by cases untold
  | _ => exact told

/-! ## The workers of the pool -/

/-- The workers of the pool have been made, and are wanted until `stop` asks them to stop. -/
structure Roster (isStop isDone : Bool) (flag : ω → Bool) (threads : List ω)
    (worker : ω → Worker π) (control : Control ω) : Prop where
  distinct : threads.Nodup
  made : ∀ w ∈ threads, worker w ≠ .absent
  wanted : isStop = false → ∀ w ∈ threads, flag w = false
  flagging : ∀ left, control = .flagging left →
    isStop = true ∧ ∀ w ∈ threads, w ∈ left ∨ flag w = true
  asked : control.stopping = true → isDone = true ∨ ∀ w ∈ threads, flag w = true
  joining : ∀ left, control = .joining left → left ⊆ threads

namespace Roster

variable {isStop isDone : Bool} {flag : ω → Bool} {threads : List ω} {worker : ω → Worker π}
  {control next : Control ω}

omit [DecidableEq π] in
/-- A worker goes elsewhere. -/
theorem move (roster : Roster isStop isDone flag threads worker control) {w : ω} (place : Worker π)
    (there : place ≠ .absent) :
    Roster isStop isDone flag threads (Function.update worker w place) control := by
  refine { roster with made := fun v member => ?_ }
  by_cases same : v = w
  · rw [same, Function.update_self]
    exact there
  · rw [Function.update_of_ne same]
    exact roster.made v member

omit [DecidableEq ω] [DecidableEq π] in
/-- The control goes on. -/
theorem goes (roster : Roster isStop isDone flag threads worker control)
    (flagging : ∀ left, next ≠ .flagging left)
    (asked : next.stopping = true → isDone = true ∨ ∀ w ∈ threads, flag w = true)
    (joining : ∀ left, next = .joining left → left ⊆ threads) :
    Roster isStop isDone flag threads worker next :=
  { roster with
    flagging := fun left now => absurd now (flagging left)
    asked := asked
    joining := joining }

omit [DecidableEq π] in
/-- A worker is made. -/
theorem grow (roster : Roster isStop isDone flag threads worker .idle) {w : ω}
    (absent : worker w = .absent) :
    Roster isStop isDone (Function.update flag w false) (threads ++ [w])
      (Function.update worker w .start) .idle := by
  have fresh : w ∉ threads := fun member => roster.made w member absent
  refine ⟨?_, fun v member => ?_, fun running v member => ?_, nofun, nofun, nofun⟩
  · simpa only [List.concat_eq_append] using roster.distinct.concat fresh
  · by_cases same : v = w
    · rw [same, Function.update_self]
      simp
    · rw [Function.update_of_ne same]
      rcases List.mem_append.mp member with old | new
      · exact roster.made v old
      · exact absurd (List.mem_singleton.mp new) same
  · by_cases same : v = w
    · rw [same, Function.update_self]
    · rw [Function.update_of_ne same]
      rcases List.mem_append.mp member with old | new
      · exact roster.wanted running v old
      · exact absurd (List.mem_singleton.mp new) same

omit [DecidableEq π] in
/-- The last worker is let go. -/
theorem shrink {front : List ω} {w : ω}
    (roster : Roster isStop isDone flag (front ++ [w]) worker control) :
    Roster isStop isDone (Function.update flag w true) front worker .shrinking := by
  obtain ⟨distinct, -, apart⟩ := List.nodup_append.mp roster.distinct
  refine ⟨distinct, fun v member => roster.made v (List.mem_append_left _ member),
    fun running v member => ?_, nofun, nofun, nofun⟩
  have different : v ≠ w := apart v member w (List.mem_singleton.mpr rfl)
  rw [Function.update_of_ne different]
  exact roster.wanted running v (List.mem_append_left _ member)

omit [DecidableEq π] in
/-- `stop(false)` sets the flag of a worker. -/
theorem flagOne {w : ω} {left : List ω}
    (roster : Roster isStop isDone flag threads worker (.flagging (w :: left))) :
    Roster isStop isDone (Function.update flag w true) threads worker (.flagging left) := by
  obtain ⟨stopped, flags⟩ := roster.flagging _ rfl
  refine ⟨roster.distinct, roster.made, fun running => ?_, fun rest now => ⟨stopped, fun v member => ?_⟩,
    nofun, nofun⟩
  · rw [stopped] at running
    cases running
  · cases now
    by_cases same : v = w
    · rw [same, Function.update_self]
      exact .inr rfl
    · rw [Function.update_of_ne same]
      rcases flags v member with here | flagged
      · exact .inl ((List.mem_cons.mp here).resolve_left same)
      · exact .inr flagged

omit [DecidableEq ω] [DecidableEq π] in
/-- All flags are set. -/
theorem flagged (roster : Roster isStop isDone flag threads worker (.flagging [])) :
    Roster isStop isDone flag threads worker .emptying :=
  roster.goes nofun
    (fun _ => .inr fun w member => ((roster.flagging _ rfl).2 w member).resolve_left List.not_mem_nil)
    nofun

end Roster

theorem roster_step
    (roster : Roster pool.isStop pool.isDone pool.flag pool.threads pool.worker pool.control)
    (step : Step pool thread after) :
    Roster after.isStop after.isDone after.flag after.threads after.worker after.control := by
  cases step with
  | @unlock w taken here => exact roster.move _ (by cases taken <;> simp [Worker.afterWait])
  | popFirst _ _ | popNothing _ _ | finish _ | wanted _ _ | unwanted _ _ | lock _ _ | testPop _ _
  | testNothing _ _ | readDone _ _ | readNotDone _ _ | readFlag _ _ | readNoFlag _ _ | block _
  | relock _ _ _ => exact roster.move _ (by simp)
  | grow here _ _ absent =>
      rw [here] at roster
      have grown := roster.grow absent
      rwa [← here] at grown
  | shrink _ _ _ last =>
      rw [last] at roster
      exact roster.shrink
  | flagOne here =>
      rw [here] at roster
      exact roster.flagOne
  | flagged here =>
      rw [here] at roster
      exact roster.flagged
  | stopNow here _ =>
      refine ⟨roster.distinct, roster.made, nofun, fun left now => ⟨rfl, fun w member => ?_⟩, nofun,
        nofun⟩
      cases now
      exact .inl member
  | stopWait _ _ _ => exact ⟨roster.distinct, roster.made, roster.wanted, nofun, fun _ => .inl rfl, nofun⟩
  | shrunk _ | joined _ => exact roster.goes nofun nofun nofun
  | resized here => exact roster.goes nofun nofun nofun
  | emptied here _ =>
      exact roster.goes nofun (fun _ => roster.asked (by rw [here]; rfl)) nofun
  | @notifyLock after here _ =>
      refine roster.goes nofun (fun stopping => roster.asked ?_) nofun
      rw [here]
      cases after <;> exact stopping
  | @notifyAll after here =>
      refine roster.goes nofun (fun stopping => roster.asked ?_) nofun
      rw [here]
      cases after <;> exact stopping
  | notified here =>
      refine roster.goes nofun (fun _ => roster.asked (by rw [here]; rfl)) fun left now => ?_
      cases now
      exact List.Subset.refl _
  | join here _ =>
      refine roster.goes nofun (fun _ => roster.asked (by rw [here]; rfl)) fun left now => ?_
      cases now
      exact fun w member => roster.joining _ here (List.mem_cons_of_mem _ member)
  | stopped _ _ => exact ⟨List.nodup_nil, nofun, nofun, nofun, nofun, nofun⟩
  | _ => exact roster

/-- What holds in every run. -/
structure Sound (pool : ThreadPool ω π) : Prop where
  recorded : pool.Recorded
  conserved : pool.work.Conserved
  exclusive : Mutex.Exclusive pool.owner pool.locked
  held : Mutex.Held pool.owner pool.locked
  roused : Roused pool.q pool.blocked pool.worker pool.caller
  told : Told pool.isDone pool.flag pool.blocked pool.worker pool.control
  roster : Roster pool.isStop pool.isDone pool.flag pool.threads pool.worker pool.control

omit [DecidableEq ω] [DecidableEq π] in
/-- What is queued has been pushed once. -/
theorem Sound.distinct (sound : pool.Sound) : pool.q.Nodup := by
  have distinct := sound.conserved.distinct
  rw [sound.conserved.order] at distinct
  exact (List.nodup_append.mp distinct).2.1

/-- Who takes the mutex goes to a place at which it has it. -/
theorem locked_of_taken (free : pool.owner = none) (taken : after.owner = some thread)
    (step : Step pool thread after) : after.locked thread = true := by
  cases step with
  | lock _ _ | relock _ _ _ | pushLock _ _ => simp [locked, move, call, Worker.locked, Caller.locked]
  | notifyLock _ _ => rfl
  | block _ | unlock _ | pushUnlock _ | resized _ | notified _ => cases taken
  | _ => cases free.symm.trans taken

theorem Sound.step (sound : pool.Sound) (step : Step pool thread after) : after.Sound :=
  { recorded := recorded_step sound.recorded step
    conserved := conserved_step sound.recorded sound.conserved step
    exclusive := sound.exclusive.move (mutex_move step)
    held := sound.held.move (mutex_move step) fun free taken => locked_of_taken free taken step
    roused := roused_step sound.exclusive sound.distinct sound.roused step
    told := told_step sound.exclusive sound.told step
    roster := roster_step sound.roster step }

end ThreadPool

open ThreadPool

variable {ω π : Type} [DecidableEq ω] [DecidableEq π] {labels : List (Thread ω π)}
  {pool : ThreadPool ω π}

theorem sound_of_run (run : LabelledRun Step init labels pool) : pool.Sound := by
  refine run.invariant Sound (fun _ _ _ sound step => sound.step step) ?_
  obtain ⟨recorded, conserved⟩ := functors_invariant (.refl (init : ThreadPool ω π))
  refine ⟨recorded, conserved, fun thread inside => ?_, fun _ owns => absurd owns (by simp [init]), ?_,
    ?_, ?_⟩
  · cases thread <;> cases inside
  · exact .of_awake (fun _ => rfl) fun _ => rfl
  · exact ⟨fun _ asked => absurd asked (by simp [init]), by simp [init]⟩
  · exact ⟨List.nodup_nil, by simp [init], by simp [init], by simp [init], by simp [init], by simp [init]⟩

/-! ## When nothing more happens -/

/-- What does not happen by itself: a worker wakes up for no reason or finishes its functor, or the
program makes a call. -/
def Outer (pool : ThreadPool ω π) : Thread ω π → Prop
  | .worker w => pool.blocked w = true ∨ ∃ p, pool.worker w = .run p
  | .caller p => pool.caller p = .idle
  | .control => pool.control = .idle
  | .user => True

/-- Nothing more happens by itself. -/
def AtRest (pool : ThreadPool ω π) : Prop := ∀ thread after, Step pool thread after → Outer pool thread

/-- A thread that has the mutex can go on. -/
theorem step_of_locked {thread : Thread ω π} (inside : pool.locked thread = true) :
    ∃ after, Step pool thread after := by
  cases thread with
  | worker w =>
      have locked : (pool.worker w).locked = true := inside
      cases here : pool.worker w with
      | test =>
          cases queued : pool.q with
          | nil => exact ⟨_, .testNothing here queued⟩
          | cons p rest => exact ⟨_, .testPop here queued⟩
      | empty =>
          cases done : pool.isDone with
          | true => exact ⟨_, .readDone here done⟩
          | false => exact ⟨_, .readNotDone here done⟩
      | notDone =>
          cases flag : pool.flag w with
          | true => exact ⟨_, .readFlag here flag⟩
          | false => exact ⟨_, .readNoFlag here flag⟩
      | failed => exact ⟨_, .block here⟩
      | leave taken => exact ⟨_, .unlock here⟩
      | absent | start | run _ | ran | enter | waiting | quit =>
          rw [here] at locked
          cases locked
  | caller p =>
      have locked : (pool.caller p).locked = true := inside
      cases here : pool.caller p with
      | notify =>
          by_cases somebody : ∃ w, pool.blocked w = true
          · obtain ⟨w, blocked⟩ := somebody
            exact ⟨_, .notifyOne here blocked⟩
          · exact ⟨_, .notifyNobody here fun w => by simpa using not_exists.mp somebody w⟩
      | leave => exact ⟨_, .pushUnlock here⟩
      | idle | queued | returned =>
          rw [here] at locked
          cases locked
  | control =>
      have locked : pool.control.locked = true := inside
      cases here : pool.control with
      | notifyAll after => exact ⟨_, .notifyAll here⟩
      | notifyLeave after =>
          cases after with
          | resize => exact ⟨_, .resized here⟩
          | stop => exact ⟨_, .notified here⟩
      | idle | shrinking | flagging _ | emptying | notifyEnter _ | joining _ | clearing =>
          rw [here] at locked
          cases locked
  | user => cases inside

omit [DecidableEq ω] [DecidableEq π] in
/-- What happens from outside happens without the mutex. -/
theorem unlocked_of_outer
    (asleep : ∀ w, pool.blocked w = true → pool.worker w = .waiting) {thread : Thread ω π}
    (outer : Outer pool thread) : pool.locked thread = false := by
  cases thread with
  | worker w =>
      rcases outer with blocked | ⟨p, running⟩
      · rw [locked, asleep w blocked]
        rfl
      · rw [locked, running]
        rfl
  | caller p =>
      rw [locked, show pool.caller p = .idle from outer]
      rfl
  | control =>
      rw [locked, show pool.control = .idle from outer]
      rfl
  | user => rfl

section Rest

variable (rest : AtRest pool)

include rest

/-- Nobody has the mutex. -/
theorem AtRest.free (sound : pool.Sound) : pool.owner = none := by
  by_contra taken
  obtain ⟨thread, owned⟩ := Option.ne_none_iff_exists'.mp taken
  have inside := sound.held thread owned
  obtain ⟨after, step⟩ := step_of_locked inside
  rw [unlocked_of_outer sound.roused.asleep (rest thread after step)] at inside
  cases inside

/-- Every call of `push` has returned, if it has been made. -/
theorem AtRest.caller (free : pool.owner = none) (p : π) :
    pool.caller p = .idle ∨ pool.caller p = .returned := by
  cases here : pool.caller p with
  | idle => exact .inl rfl
  | returned => exact .inr rfl
  | queued => exact .inl (here.symm.trans (rest _ _ (.pushLock here free)))
  | notify =>
      by_cases somebody : ∃ w, pool.blocked w = true
      · obtain ⟨w, blocked⟩ := somebody
        exact .inl (here.symm.trans (rest _ _ (.notifyOne here blocked)))
      · refine .inl (here.symm.trans (rest _ _ (.notifyNobody here fun w => ?_)))
        simpa using not_exists.mp somebody w
  | leave => exact .inl (here.symm.trans (rest _ _ (.pushUnlock here)))

/-- A worker that can go on by itself has. -/
theorem AtRest.worker (sound : pool.Sound) (free : pool.owner = none) (w : ω) :
    pool.worker w = .absent ∨ pool.worker w = .quit ∨ (∃ p, pool.worker w = .run p) ∨
      pool.worker w = .waiting ∧ pool.blocked w = true := by
  have stays : ∀ {after}, Step pool (.worker w) after →
      (∃ p, pool.worker w = .run p) ∨ pool.worker w = .waiting ∧ pool.blocked w = true := by
    intro after step
    rcases rest _ _ step with blocked | running
    · exact .inr ⟨sound.roused.asleep w blocked, blocked⟩
    · exact .inl running
  cases here : pool.worker w with
  | absent => exact .inl rfl
  | quit => exact .inr (.inl rfl)
  | run p => exact .inr (.inr (.inl ⟨p, rfl⟩))
  | waiting =>
      cases blocked : pool.blocked w with
      | true => exact .inr (.inr (.inr ⟨rfl, rfl⟩))
      | false => exact .inr (.inr (by simpa [here, blocked] using stays (.relock here blocked free)))
  | start =>
      cases queued : pool.q with
      | nil => simpa [here] using stays (.popNothing here queued)
      | cons p rest => simpa [here] using stays (.popFirst here queued)
  | ran =>
      cases flag : pool.flag w with
      | true => simpa [here] using stays (.unwanted here flag)
      | false => simpa [here] using stays (.wanted here flag)
  | enter => simpa [here] using stays (.lock here free)
  | test | empty | notDone | failed | leave _ =>
      have inside : pool.locked (.worker w) = true := by rw [locked, here]; rfl
      rw [sound.exclusive _ inside] at free
      cases free

/-- The control has returned, or it waits for a worker that runs a functor. -/
theorem AtRest.control (sound : pool.Sound) (free : pool.owner = none) :
    pool.control = .idle ∨
      ∃ w left p, pool.control = .joining (w :: left) ∧ pool.worker w = .run p := by
  have stays : ∀ {after}, Step pool .control after → pool.control = .idle := fun step => rest _ _ step
  cases here : pool.control with
  | idle => exact .inl rfl
  | shrinking => exact .inl (here.symm.trans (stays (.shrunk here)))
  | flagging left =>
      cases left with
      | nil => exact .inl (here.symm.trans (stays (.flagged here)))
      | cons w left => exact .inl (here.symm.trans (stays (.flagOne here)))
  | emptying =>
      cases queued : pool.q with
      | nil => exact .inl (here.symm.trans (stays (.emptied here queued)))
      | cons p rest => exact .inl (here.symm.trans (stays (.emptyOne here queued)))
  | notifyEnter after => exact .inl (here.symm.trans (stays (.notifyLock here free)))
  | notifyAll _ | notifyLeave _ =>
      have inside : pool.locked .control = true := by rw [locked, here]; rfl
      rw [sound.exclusive _ inside] at free
      cases free
  | joining left =>
      cases left with
      | nil => exact .inl (here.symm.trans (stays (.joined here)))
      | cons w left =>
          have member : w ∈ pool.threads := sound.roster.joining _ here List.mem_cons_self
          rcases AtRest.worker rest sound free w with absent | quit | ⟨p, running⟩ | ⟨-, blocked⟩
          · exact absurd absent (sound.roster.made w member)
          · exact .inl (here.symm.trans (stays (.join here quit)))
          · exact .inr ⟨w, left, p, rfl, running⟩
          · -- a worker that is waited for has been told
            have asked := sound.roster.asked (by rw [here]; rfl)
            have untold := sound.told.stale w (asked.imp_right fun flags => flags w member) (.inl blocked)
            rw [here] at untold
            cases untold
  | clearing =>
      cases queued : pool.q with
      | nil => exact .inl (here.symm.trans (stays (.stopped here queued)))
      | cons p rest => exact .inl (here.symm.trans (stays (.clearOne here queued)))

end Rest

/-- **The pool does not get stuck.** When nothing more happens by itself, every `push` has returned;
`resize` and `stop` have returned, unless `stop` waits for a worker that runs a functor; and a
worker that has not quit runs a functor, or waits while the queue is empty and it is wanted. -/
theorem pool_at_rest (run : LabelledRun Step init labels pool) (rest : AtRest pool) :
    (∀ p, pool.caller p = .idle ∨ pool.caller p = .returned) ∧
      (pool.control = .idle ∨
        ∃ w left p, pool.control = .joining (w :: left) ∧ pool.worker w = .run p) ∧
      ∀ w, pool.worker w = .absent ∨ pool.worker w = .quit ∨ (∃ p, pool.worker w = .run p) ∨
        pool.worker w = .waiting ∧ pool.q = [] ∧ pool.isDone = false ∧ pool.flag w = false := by
  have sound := sound_of_run run
  have free := rest.free sound
  have callers := AtRest.caller rest free
  have control := AtRest.control rest sound free
  refine ⟨callers, control, fun w => ?_⟩
  refine (AtRest.worker rest sound free w).imp_right (Or.imp_right (Or.imp_right ?_))
  rintro ⟨waiting, blocked⟩
  have told : pool.control.untold = false := by
    rcases control with idle | ⟨v, left, p, joining, -⟩
    · rw [idle]
      rfl
    · rw [joining]
      rfl
  have asked : ¬ (pool.isDone = true ∨ pool.flag w = true) := fun asked => by
    have untold := sound.told.stale w asked (.inl blocked)
    rw [told] at untold
    cases untold
  have nobody : owing pool.blocked pool.worker pool.caller = ∅ := by
    refine Set.eq_empty_iff_forall_notMem.mpr fun other owes => ?_
    cases other with
    | worker v =>
        rcases AtRest.worker rest sound free v with here | here | ⟨p, here⟩ | ⟨here, sleeps⟩ <;>
          simp_all [owing, Owes]
    | caller p =>
        have pending : (pool.caller p).pending = true := owes
        rcases callers p with here | here <;> rw [here] at pending <;> cases pending
    | control | user => exact owes
  have empty := (sound.roused.covered ⟨w, blocked⟩).none_left nobody
  rw [not_or, Bool.not_eq_true, Bool.not_eq_true] at asked
  exact ⟨waiting, List.length_eq_zero_iff.mp empty, asked⟩

/-- One worker, which waits for a functor. -/
theorem pool_at_rest_waiting : ∃ pool : ThreadPool Unit Unit, pool.worker () = .waiting ∧
    pool.q = [] ∧ pool.isDone = false ∧ pool.flag () = false := by
  obtain ⟨pool, labels, run, waiting, blocked, callers, control⟩ :
      ∃ (pool : ThreadPool Unit Unit) (labels : _), LabelledRun Step init labels pool ∧
        pool.worker () = .waiting ∧ pool.blocked () = true ∧ (∀ p, pool.caller p = .idle) ∧
        pool.control = .idle := by
    refine ⟨_, _, .cons (.grow (w := ()) rfl rfl rfl rfl) <| .cons (.popNothing (w := ()) rfl rfl) <|
      .cons (.lock (w := ()) rfl rfl) <| .cons (.testNothing (w := ()) rfl rfl) <|
      .cons (.readNotDone (w := ()) rfl rfl) <| .cons (.readNoFlag (w := ()) rfl rfl) <|
      .cons (.block (w := ()) rfl) (.refl _), rfl, rfl, fun _ => rfl, rfl⟩
  have rest : AtRest pool := by
    intro thread after step
    cases thread with
    | worker w => exact .inl blocked
    | caller p => exact callers p
    | control => exact control
    | user => trivial
  have settled := (pool_at_rest run rest).2.2 ()
  simp only [waiting, reduceCtorEq, exists_false, false_or, true_and] at settled
  exact ⟨pool, waiting, settled⟩

end Handy.Ctpl
