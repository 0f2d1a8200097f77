import Handy.Lib.LabelledRun
import Handy.Xy.Scheduler

/-!
# The sleep of the scheduler

The loop of `xy::Scheduler` looks at the map of tasks, sleeps until the first of them is due or
without a limit if there is none, and calls `execNearestAndUpdate`. It sleeps on the condition
variable of an `InterruptSleep`, whose flag is set by `interrupt` and cleared after each sleep.
Any threads may add tasks meanwhile: they insert into the map, and then interrupt the sleep.

A step is one access to the map or to the flag; a wait tests the flag and blocks in one step, as
it has the mutex of the flag. The mutex of the map is left out, so that there are more
interleavings here than in the source. A wait may end for no reason, and a wait with a limit may
reach it at any moment.

An interrupt may fall between the look at the map and the sleep, or be cleared after a wait that
has reached its limit. In the first case the flag is still set when the sleep begins, and in the
second the map is looked at again: the loop does not sleep longer than it should
(`never_oversleeps`).
-/

set_option autoImplicit false

namespace Handy.Xy

/-- Where the loop of the scheduler is. A sleep has a limit, or none. -/
inductive LoopPlace where
  /-- At the test of `while (!bExit_)`. -/
  | top
  /-- `mapTasks_.empty()`. -/
  | empty
  /-- `mapTasks_.begin()->first`. -/
  | first
  /-- In `sleep` or `sleep_until`, at the test of the flag. -/
  | test (limit : Option Time)
  | blocked (limit : Option Time)
  /-- The wait is over, and the flag is to be cleared. -/
  | clear
  | exec
  | done
  deriving DecidableEq, Repr

/-- The scheduler, the flag of its sleep, its loop, and the threads that are in `addTask`, between
their insertion and their interrupt. -/
structure Sleeper (ι F : Type) where
  scheduler : Scheduler F
  bExit : Bool
  interrupted : Bool
  loop : LoopPlace
  adding : ι → Bool

namespace Sleeper

variable {ι F : Type}

def init : Sleeper ι F := ⟨.init, false, false, .top, fun _ => false⟩

/-- `InterruptSleep::interrupt`. A loop that is blocked goes back to its test. -/
def interrupt (s : Sleeper ι F) : Sleeper ι F := { s with
  interrupted := true
  loop := match s.loop with
    | .blocked limit => .test limit
    | place => place }

/-- Who takes a step. -/
inductive Actor (ι : Type) where
  | adder (i : ι)
  | loop
  | destructor
  deriving DecidableEq, Repr

variable [DecidableEq ι]

inductive Step (s : Sleeper ι F) : Actor ι → Sleeper ι F → Prop where
  -- `addTask`
  | insert {i : ι} (idle : s.adding i = false) {op : Scheduler.Op F} {time : Time} {t : Task F}
      (added : op.added = some (time, t)) :
      Step s (.adder i) { s with
        scheduler := s.scheduler.step op
        adding := Function.update s.adding i true }
  | interrupt {i : ι} (here : s.adding i = true) :
      Step s (.adder i) { s.interrupt with adding := Function.update s.adding i false }
  -- the loop of the scheduler
  | again (here : s.loop = .top) (running : s.bExit = false) :
      Step s .loop { s with loop := .empty }
  | leave (here : s.loop = .top) (exited : s.bExit = true) : Step s .loop { s with loop := .done }
  | lookEmpty (here : s.loop = .empty) (nothing : s.scheduler.mapTasks.entries = []) :
      Step s .loop { s with loop := .test none }
  | lookSome (here : s.loop = .empty) (something : s.scheduler.mapTasks.entries ≠ []) :
      Step s .loop { s with loop := .first }
  | nearest (here : s.loop = .first) {entry : Time × Slot F} {rest : List (Time × Slot F)}
      (first : s.scheduler.mapTasks.entries = entry :: rest) :
      Step s .loop { s with loop := .test (some entry.1) }
  -- `sleep` and `sleep_until`
  | block {limit : Option Time} (here : s.loop = .test limit) (calm : s.interrupted = false) :
      Step s .loop { s with loop := .blocked limit }
  | pass {limit : Option Time} (here : s.loop = .test limit) (set : s.interrupted = true) :
      Step s .loop { s with loop := .clear }
  | spurious {limit : Option Time} (here : s.loop = .blocked limit) :
      Step s .loop { s with loop := .test limit }
  | timeout {time : Time} (here : s.loop = .blocked (some time)) :
      Step s .loop { s with loop := .clear }
  | clear (here : s.loop = .clear) : Step s .loop { s with interrupted := false, loop := .exec }
  | exec (here : s.loop = .exec) (now : Time) (later : ℕ → Time) :
      Step s .loop { s with
        scheduler := s.scheduler.execNearestAndUpdate now later
        loop := .top }
  -- `~Scheduler`
  | exit : Step s .destructor { s with bExit := true }
  | exitInterrupt (exited : s.bExit = true) : Step s .destructor s.interrupt

/-! ## The limit of the sleep -/

/-- The limit is right for the map: there is none only if the map is empty, and otherwise it is no
later than the first time of the map. -/
def InTime (s : Sleeper ι F) : Option Time → Prop
  | none => s.scheduler.mapTasks.entries = []
  | some time => ∃ entry rest, s.scheduler.mapTasks.entries = entry :: rest ∧ time ≤ entry.1

/-- The flag is set, or some thread is going to set it. -/
def Alarmed (s : Sleeper ι F) : Prop := s.interrupted = true ∨ ∃ i, s.adding i = true

/-- What the loop has found in the map still holds, or it is going to look again. -/
def Watchful (s : Sleeper ι F) : Prop :=
  match s.loop with
  | .first => s.scheduler.mapTasks.entries ≠ []
  | .test limit | .blocked limit => s.Alarmed ∨ s.InTime limit
  | _ => True

variable {s after : Sleeper ι F} {actor : Actor ι}

omit [DecidableEq ι] in
/-- An alarm lets the loop be anywhere but before its first task. -/
theorem watchful_of_alarmed (alarmed : s.Alarmed)
    (first : s.loop = .first → s.scheduler.mapTasks.entries ≠ []) : s.Watchful := by
  unfold Watchful
  split
  · exact first ‹_›
  · exact .inl alarmed
  · exact .inl alarmed
  · trivial

omit [DecidableEq ι] in
theorem watchful_interrupt (watchful : s.Watchful) : s.interrupt.Watchful := by
  refine watchful_of_alarmed (.inl rfl) fun here => ?_
  have before : s.loop = .first := by
    unfold interrupt at here
    cases loop : s.loop <;> simp_all
  have something : s.scheduler.mapTasks.entries ≠ [] := by simpa [Watchful, before] using watchful
  exact something

theorem watchful_step (watchful : s.Watchful) (step : Step s actor after) : after.Watchful := by
  cases step with
  | @insert i _ op time t added =>
      refine watchful_of_alarmed (.inr ⟨i, Function.update_self ..⟩) fun here => ?_
      have new := Scheduler.mem_added added s.scheduler
      rintro empty
      rw [Scheduler.tasks, empty] at new
      cases new
  | interrupt here =>
      refine watchful_of_alarmed (.inl rfl) fun here => ?_
      have same := watchful_interrupt watchful
      rw [Watchful, show s.interrupt.loop = .first from here] at same
      exact same
  | lookEmpty _ nothing => exact .inr nothing
  | lookSome _ something => exact something
  | @nearest here entry rest first => exact .inr ⟨entry, rest, first, le_rfl⟩
  | block here _ => simpa [Watchful, here, Alarmed, InTime] using watchful
  | spurious here => simpa [Watchful, here, Alarmed, InTime] using watchful
  | exit => exact watchful
  | exitInterrupt _ => exact watchful_interrupt watchful
  | again _ _ | leave _ _ | pass _ _ | timeout _ | clear _ | exec _ _ _ => trivial

theorem watchful_of_run {actors : List (Actor ι)} (run : LabelledRun Step init actors s) :
    s.Watchful :=
  run.invariant Watchful (fun _ _ _ => watchful_step) trivial

/-- **The scheduler never oversleeps.** When its loop is blocked, the flag is clear and nobody is
about to set it, then the limit of its sleep is right for the map. -/
theorem never_oversleeps {actors : List (Actor ι)} (run : LabelledRun Step init actors s)
    {limit : Option Time} (blocked : s.loop = .blocked limit) (calm : s.interrupted = false)
    (idle : ∀ i, s.adding i = false) : s.InTime limit := by
  have watchful := watchful_of_run run
  rw [Watchful, blocked] at watchful
  rcases watchful with (set | ⟨i, adding⟩) | inTime
  · rw [calm] at set
    cases set
  · rw [idle i] at adding
    cases adding
  · exact inTime

/-- A task is added between the look at the empty map and the sleep. -/
theorem never_oversleeps_interrupted : ∃ s : Sleeper Unit Unit, s.loop = .blocked (some 7) ∧
    s.InTime (some 7) := by
  have added : (Scheduler.Op.runAt 7 ()).added = some (7, .taskAt ()) := rfl
  obtain ⟨s, actors, run, blocked, calm, idle⟩ : ∃ (s : Sleeper Unit Unit) (actors : _),
      LabelledRun Step init actors s ∧ s.loop = .blocked (some 7) ∧ s.interrupted = false ∧
        ∀ i, s.adding i = false := by
    refine ⟨_, _, .cons (.again rfl rfl) <| .cons (.lookEmpty rfl rfl) <|
      .cons (.insert (i := ()) rfl added) <| .cons (.interrupt (i := ()) rfl) <|
      .cons (.pass rfl rfl) <| .cons (.clear rfl) <| .cons (.exec rfl 0 fun _ => 0) <|
      .cons (.again rfl rfl) <| .cons (.lookSome rfl (by decide)) <|
      .cons (.nearest rfl (show _ = [(7, ⟨0, 0, .taskAt ()⟩)] from rfl)) <|
      .cons (.block rfl rfl) (.refl _), rfl, rfl, fun _ => rfl⟩
  exact ⟨s, blocked, never_oversleeps run blocked calm idle⟩

end Sleeper

end Handy.Xy
