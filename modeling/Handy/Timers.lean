import Handy.Lib.OrderedMap
import Handy.Lib.LabelledRun

/-!
# The timer tables of the event base

`EventsImp` keeps its timers in two ordered maps. `timers_` maps the key of a
pending occurrence, a pair of deadline and sequence number, to the closure to
run. `timerReps_` maps the public id of a repeating timer to its record; the
closure of such a timer in `timers_` holds a pointer to that record, modelled
here by the key of the record. The public id of a repeating timer carries the
negated first deadline, and the key of its next occurrence is stored in the
record and changes at every firing.

The functions are those of `event_base.cc`: `refreshNearest`, `runAt`,
`cancel`, `repeatableTimeout` and `handleTimeouts`. Dereferencing the end
iterator of `timerReps_`, or a record that has been erased, is a fault. User
code is a list of table operations chosen as a function of the closure that
runs and of the table it runs in.

Deadlines are unbounded integers; the clock `util::timeMilli()` is a field.
-/

set_option autoImplicit false

namespace Handy

/-- `TimerId`, a pair of 64-bit integers compared lexicographically. -/
structure TimerId where
  first : ℤ
  second : ℕ
  deriving DecidableEq, Repr

instance : LinearOrder TimerId :=
  LinearOrder.lift' (fun id => toLex (id.first, id.second)) (by
    intro left right same
    cases left
    cases right
    simpa using same)

theorem TimerId.lt_iff (left right : TimerId) :
    left < right ↔
      left.first < right.first ∨ (left.first = right.first ∧ left.second < right.second) :=
  Prod.Lex.toLex_lt_toLex

/-- A closure stored in `timers_`: the task given to `runAt`, or the lambda that
calls `repeatableTimeout` on a record of `timerReps_`. -/
inductive TimerAction (τ : Type) where
  | task (task : τ)
  | repeatable (tr : TimerId)
  deriving DecidableEq, Repr

/-- `TimerRepeatable`. -/
structure TimerRepeatable (τ : Type) where
  at_ : ℤ
  interval : ℤ
  timerid : TimerId
  cb : τ
  deriving DecidableEq, Repr

/-- The timer part of `EventsImp`, with the clock it reads. -/
structure Timers (τ : Type) where
  exit : Bool
  nextTimeout : ℤ
  timerReps : OrderedMap TimerId (TimerRepeatable τ)
  timers : OrderedMap TimerId (TimerAction τ)
  timerSeq : ℕ
  clock : ℤ

/-- What goes wrong when a table operation leaves defined behaviour. -/
inductive TimerFault where
  /-- An iterator or pointer to an entry that `timerReps_` does not have. -/
  | missingEntry
  /-- The bound on loop iterations of the model was reached. -/
  | outOfFuel
  deriving DecidableEq, Repr

namespace Timers

variable {τ : Type}

/-- The table of a new event base. -/
def init (clock : ℤ) : Timers τ :=
  { exit := false, nextTimeout := 2 ^ 30, timerReps := .empty, timers := .empty, timerSeq := 0,
    clock := clock }

/-- `EventsImp::refreshNearest`. The difference of two 64-bit times is stored in
an `int`. -/
def refreshNearest (t : Timers τ) : Timers τ :=
  match t.timers.first? with
  | none => { t with nextTimeout := 2 ^ 30 }
  | some (key, _) =>
      let next := (key.first - t.clock).bmod (2 ^ 32)
      { t with nextTimeout := if next < 0 then 0 else next }

/-- `EventsImp::runAt`. -/
def runAt (t : Timers τ) (milli : ℤ) (task : τ) (interval : ℤ) : TimerId × Timers τ :=
  if t.exit then
    (⟨0, 0⟩, t)
  else if interval ≠ 0 then
    let tid : TimerId := ⟨-milli, t.timerSeq + 1⟩
    let timerid : TimerId := ⟨milli, t.timerSeq + 2⟩
    let t' := { t with
      timerSeq := t.timerSeq + 2
      timerReps := t.timerReps.set tid ⟨milli, interval, timerid, task⟩
      timers := t.timers.set timerid (.repeatable tid) }
    (tid, t'.refreshNearest)
  else
    let tid : TimerId := ⟨milli, t.timerSeq + 1⟩
    let t' := { t with
      timerSeq := t.timerSeq + 1
      timers := t.timers.insert tid (.task task) }
    (tid, t'.refreshNearest)

/-- `EventBase::runAfter`. -/
def runAfter (t : Timers τ) (milli : ℤ) (task : τ) (interval : ℤ) : TimerId × Timers τ :=
  t.runAt (t.clock + milli) task interval

/-- `EventsImp::cancel`. A negative first component selects `timerReps_`, whose
`find` is dereferenced without a test. -/
def cancel (t : Timers τ) (timerid : TimerId) : Except TimerFault (Bool × Timers τ) :=
  if timerid.first < 0 then
    match t.timerReps.find? timerid with
    | none => .error .missingEntry
    | some p =>
        .ok (true, { t with
          timers := t.timers.erase p.timerid
          timerReps := t.timerReps.erase timerid })
  else if (t.timers.find? timerid).isSome then
    .ok (true, { t with timers := t.timers.erase timerid })
  else
    .ok (false, t)

/-- `EventsImp::repeatableTimeout` up to the call `tr->cb()`, with the task that
is called. -/
def repeatableTimeout (t : Timers τ) (tr : TimerId) : Except TimerFault (τ × Timers τ) :=
  match t.timerReps.find? tr with
  | none => .error .missingEntry
  | some rep =>
      let timerid : TimerId := ⟨rep.at_ + rep.interval, t.timerSeq + 1⟩
      let t' := { t with
        timerSeq := t.timerSeq + 1
        timerReps := t.timerReps.set tr { rep with at_ := rep.at_ + rep.interval, timerid := timerid }
        timers := t.timers.set timerid (.repeatable tr) }
      .ok (rep.cb, t'.refreshNearest)

/-- The loop condition of `handleTimeouts`: the first entry of `timers_`, when its
key is below `{now, 1L << 62}`. -/
def due (t : Timers τ) (now : ℤ) : Option (TimerId × TimerAction τ) :=
  match t.timers.first? with
  | none => none
  | some (key, action) => if key < ⟨now, 2 ^ 62⟩ then some (key, action) else none

end Timers

/-- An occurrence taken from `timers_`: its key, the public id of the timer it
belongs to, and the user's task. -/
structure Fired (τ : Type) where
  key : TimerId
  timer : TimerId
  task : τ
  deriving DecidableEq, Repr

namespace Timers

variable {τ : Type}

/-- The body of the loop of `handleTimeouts` up to the call of the user's task:
the entry is erased, and a repeating timer is rescheduled. -/
def fire (t : Timers τ) (key : TimerId) (action : TimerAction τ) :
    Except TimerFault (Fired τ × Timers τ) :=
  let erased := { t with timers := t.timers.erase key }
  match action with
  | .task task => .ok (⟨key, key, task⟩, erased)
  | .repeatable tr =>
      match erased.repeatableTimeout tr with
      | .error fault => .error fault
      | .ok (task, t') => .ok (⟨key, tr, task⟩, t')

end Timers

/-- What user code does to the table; `elapse` is the time it takes. -/
inductive TimerOp (τ : Type) where
  | runAt (milli : ℤ) (task : τ) (interval : ℤ)
  | runAfter (milli : ℤ) (task : τ) (interval : ℤ)
  | cancel (timerid : TimerId)
  | elapse (milli : ℕ)
  deriving DecidableEq, Repr

/-- The observable steps of a run. -/
inductive TimerEvent where
  | created (timer : TimerId)
  | cancelled (timer : TimerId) (removed : Bool)
  | elapsed (milli : ℕ)
  | started (now : ℤ)
  | fired (key timer : TimerId)
  | finished
  | exited
  | dropped
  deriving DecidableEq, Repr

namespace Timers

variable {τ : Type}

/-- One operation of user code. -/
def runOp (t : Timers τ) : TimerOp τ → Except TimerFault (TimerEvent × Timers τ)
  | .runAt milli task interval =>
      let (timer, t') := t.runAt milli task interval
      .ok (.created timer, t')
  | .runAfter milli task interval =>
      let (timer, t') := t.runAfter milli task interval
      .ok (.created timer, t')
  | .cancel timerid =>
      match t.cancel timerid with
      | .error fault => .error fault
      | .ok (removed, t') => .ok (.cancelled timerid removed, t')
  | .elapse milli => .ok (.elapsed milli, { t with clock := t.clock + milli })

/-- The operations of user code, one after the other. -/
def runOps (t : Timers τ) : List (TimerOp τ) → Except TimerFault (List TimerEvent × Timers τ)
  | [] => .ok ([], t)
  | op :: rest =>
      match t.runOp op with
      | .error fault => .error fault
      | .ok (event, t') =>
          match t'.runOps rest with
          | .error fault => .error fault
          | .ok (events, last) => .ok (event :: events, last)

/-- The loop of `EventsImp::handleTimeouts`, for at most `fuel` iterations. -/
def handleTimeoutsLoop (tasks : Fired τ → Timers τ → List (TimerOp τ)) (now : ℤ) :
    ℕ → Timers τ → Except TimerFault (List TimerEvent × Timers τ)
  | 0, _ => .error .outOfFuel
  | fuel + 1, t =>
      match t.due now with
      | none => .ok ([], t)
      | some (key, action) =>
          match t.fire key action with
          | .error fault => .error fault
          | .ok (fired, t1) =>
              match t1.runOps (tasks fired t1) with
              | .error fault => .error fault
              | .ok (events, t2) =>
                  match handleTimeoutsLoop tasks now fuel t2 with
                  | .error fault => .error fault
                  | .ok (later, t3) => .ok (.fired key fired.timer :: events ++ later, t3)

/-- `EventsImp::handleTimeouts`. -/
def handleTimeouts (tasks : Fired τ → Timers τ → List (TimerOp τ)) (fuel : ℕ) (t : Timers τ) :
    Except TimerFault (List TimerEvent × Timers τ) :=
  match handleTimeoutsLoop tasks t.clock fuel t with
  | .error fault => .error fault
  | .ok (events, last) => .ok (events, last.refreshNearest)

/-- `EventsImp::loop` after its while loop: both maps are cleared. -/
def clear (t : Timers τ) : Timers τ := { t with timerReps := .empty, timers := .empty }

end Timers

/-! ## The transition system of the table

User code may run between any two iterations of the loop of `handleTimeouts`,
as well as outside of it. A configuration therefore records whether a batch is
being handled and for which clock value, besides the table and the ids that
have been handed out. -/

/-- A configuration of the event base's timers. -/
structure TimerConfig (τ : Type) where
  table : Timers τ
  batch : Option ℤ
  issued : List TimerId

/-- The ids an event hands out. -/
def TimerEvent.ids : TimerEvent → List TimerId
  | .created timer => [timer]
  | _ => []

/-- The steps of the timers, for user code that performs the operations
`allowed` in a configuration. -/
inductive TimerStep {τ : Type} (allowed : TimerConfig τ → TimerOp τ → Prop) :
    TimerConfig τ → TimerEvent → TimerConfig τ → Prop where
  | op {c : TimerConfig τ} {op : TimerOp τ} {event : TimerEvent} {t' : Timers τ}
      (permitted : allowed c op) (ran : c.table.runOp op = .ok (event, t')) :
      TimerStep allowed c event { c with table := t', issued := event.ids ++ c.issued }
  | start {c : TimerConfig τ} (idle : c.batch = none) :
      TimerStep allowed c (.started c.table.clock) { c with batch := some c.table.clock }
  | fire {c : TimerConfig τ} {now : ℤ} {key : TimerId} {action : TimerAction τ} {fired : Fired τ}
      {t' : Timers τ} (running : c.batch = some now) (next : c.table.due now = some (key, action))
      (ran : c.table.fire key action = .ok (fired, t')) :
      TimerStep allowed c (.fired key fired.timer) { c with table := t' }
  | finish {c : TimerConfig τ} {now : ℤ} (running : c.batch = some now)
      (none_due : c.table.due now = none) :
      TimerStep allowed c .finished { c with table := c.table.refreshNearest, batch := none }
  | exit {c : TimerConfig τ} :
      TimerStep allowed c .exited { c with table := { c.table with exit := true } }
  | drop {c : TimerConfig τ} (exited : c.table.exit = true) (idle : c.batch = none) :
      TimerStep allowed c .dropped { c with table := c.table.clear }

/-- The configurations reached from a new event base. -/
def TimerReachable {τ : Type} (allowed : TimerConfig τ → TimerOp τ → Prop) (c : TimerConfig τ) :
    Prop :=
  ∃ clock labels, LabelledRun (TimerStep allowed) ⟨.init clock, none, []⟩ labels c

end Handy
