import Handy.Conn.Settled
import Handy.Conn.Recorded
import Handy.Lib.Segments
import Handy.Timers.Pending

/-!
# The account of finalisations

What a run records about the ends of a connection: calls of the state callback with
`Closed` or `Failed`, reconnect timers, and idle ids that are unregistered. `Accounted`
says that so far each of them happened as often as it should, and that the connection has
not been finalised since the last `attach` while its state is still used.

The account is kept as long as a run is orderly: `cleanup` is not entered again while it
runs the read callback, and the loop does not exit while a reconnect is due.
-/

set_option autoImplicit false

namespace Handy

namespace ConnEvent

def attaches : ConnEvent → Bool
  | .attached => true
  | _ => false

/-- A call of the state callback that says that the connection is over. -/
def finalises : ConnEvent → Bool
  | .stateCalled .closed => true
  | .stateCalled .failed => true
  | _ => false

def reconnects : ConnEvent → Bool
  | .reconnectScheduled => true
  | _ => false

def unregisters : ConnEvent → Option IdleId
  | .unregistered id => some id
  | _ => none

/-- A channel is closed within the read callback of `cleanup`, or the loop exits while
the connection waits for its reconnect. -/
def disorders : ConnEvent → Bool
  | .channelClosed draining => draining
  | .exitedWaiting => true
  | _ => false

/-- An event that is of no account. -/
def plain (event : ConnEvent) : Bool :=
  !event.attaches && !event.finalises && !event.reconnects && event.unregisters.isNone

end ConnEvent

/-- The idle ids that have been unregistered. -/
def unregisteredIds (events : List ConnEvent) : List IdleId :=
  events.filterMap ConnEvent.unregisters

namespace TcpConn

variable {υ : Type} {w w' : World υ}

/-- `cleanup` was not entered again from the read callback that it runs, and the loop did
not exit while the connection was waiting for its reconnect. -/
def Orderly (w : World υ) : Prop := w.seen.events.any ConnEvent.disorders = false

/-- What is true of the account at all times. -/
structure Ledger (w : World υ) : Prop where
  finals : OnceBetween ConnEvent.attaches ConnEvent.finalises w.seen.events
  reconnects : OnceBetween ConnEvent.attaches ConnEvent.reconnects w.seen.events
  unregistered : (unregisteredIds w.seen.events).Nodup
  idleIds : w.con.idleIds.Nodup
  issued : ∀ id ∈ w.con.idleIds, id.node < w.base.nextIdle
  repeats : w.base.timers.NeverRepeats .reconnect
  tasks : ∀ task ∈ w.base.tasks, task ≠ .reconnect

/-- Since the last `attach` no reconnect was scheduled, none is due, and no idle id was
ever unregistered. -/
structure Unfinished (w : World υ) : Prop where
  reconnects : countFirst ConnEvent.attaches ConnEvent.reconnects w.seen.events = 0
  unregistered : unregisteredIds w.seen.events = []
  pending : w.base.timers.pending .reconnect = 0

/-- Since the last `attach`, moreover, the state callback has not been told of an end. -/
def Untouched (w : World υ) : Prop :=
  Unfinished w ∧ countFirst ConnEvent.attaches ConnEvent.finalises w.seen.events = 0

/-- At most one reconnect is due, and none once the idle ids are unregistered. -/
def Finished (w : World υ) : Prop :=
  w.base.timers.pending .reconnect ≤ 1 ∧
    (unregisteredIds w.seen.events ≠ [] → w.base.timers.pending .reconnect = 0)

/-- What holds between the operations on a connection. -/
def Accounted (w : World υ) : Prop :=
  Orderly w → Ledger w ∧ Finished w ∧ (¬ Final w → Untouched w)

/-- What holds in the read callback that `cleanup` runs. -/
def Draining (w : World υ) : Prop :=
  Orderly w → Ledger w ∧ Untouched w ∧ ¬ Final w ∧ w.seen.draining = true

/-- What holds when `cleanup` has run the read callback. -/
def Drained (w : World υ) : Prop := Orderly w → Ledger w ∧ Untouched w ∧ ¬ Final w

/-- What holds when `cleanup` has set the final state. -/
def Ending (w : World υ) : Prop := Final w ∧ (Orderly w → Ledger w ∧ Untouched w)

/-- What holds in the state callback that `cleanup` runs, and until it schedules a
reconnect or unregisters the idle ids. -/
def Ended (w : World υ) : Prop := Final w ∧ (Orderly w → Ledger w ∧ Unfinished w)

/-- What holds when `cleanup` has settled the account. -/
def Concluded (w : World υ) : Prop := Final w ∧ (Orderly w → Ledger w ∧ Finished w)

/-- What holds when `cleanup` has yet to unregister these idle ids. -/
def Unregistering (ids : List IdleId) (w : World υ) : Prop :=
  Final w ∧ (Orderly w → Ledger w ∧ w.base.timers.pending .reconnect = 0 ∧ ids.Nodup ∧
    ∀ id ∈ ids, id ∉ unregisteredIds w.seen.events)

/-- The part of the account that is shown in the end. -/
def Balanced (w : World υ) : Prop :=
  Orderly w → OnceBetween ConnEvent.attaches ConnEvent.finalises w.seen.events ∧
    OnceBetween ConnEvent.attaches ConnEvent.reconnects w.seen.events ∧
    (unregisteredIds w.seen.events).Nodup

theorem Ledger.balanced (ledger : Ledger w) :
    OnceBetween ConnEvent.attaches ConnEvent.finalises w.seen.events ∧
      OnceBetween ConnEvent.attaches ConnEvent.reconnects w.seen.events ∧
      (unregisteredIds w.seen.events).Nodup :=
  ⟨ledger.finals, ledger.reconnects, ledger.unregistered⟩

theorem Accounted.balanced (accounted : Accounted w) : Balanced w :=
  fun orderly => (accounted orderly).1.balanced

theorem Draining.balanced (draining : Draining w) : Balanced w :=
  fun orderly => (draining orderly).1.balanced

theorem Ending.balanced (ending : Ending w) : Balanced w :=
  fun orderly => (ending.2 orderly).1.balanced

theorem Concluded.balanced (ended : Concluded w) : Balanced w := fun orderly => (ended.2 orderly).1.balanced

theorem Ended.balanced (ended : Ended w) : Balanced w :=
  fun orderly => (ended.2 orderly).1.balanced

theorem Unfinished.finished (unfinished : Unfinished w) : Finished w :=
  ⟨unfinished.pending.le.trans (Nat.zero_le 1), fun _ => unfinished.pending⟩

theorem Concluded.accounted (ended : Concluded w) : Accounted w := fun orderly =>
  ⟨(ended.2 orderly).1, (ended.2 orderly).2, fun used => absurd ended.1 used⟩

theorem Ending.ended (ending : Ending w) : Ended w :=
  ⟨ending.1, fun orderly => ⟨(ending.2 orderly).1, (ending.2 orderly).2.1⟩⟩

/-! ## Steps of no account -/

/-- Nothing that the account is about happens, except that timers may go and idle ids may
come. -/
structure Plain (w w' : World υ) : Prop where
  idle : w.con.idleIds.Nodup → (∀ id ∈ w.con.idleIds, id.node < w.base.nextIdle) →
    w'.con.idleIds.Nodup ∧ ∀ id ∈ w'.con.idleIds, id.node < w'.base.nextIdle
  pending : w'.base.timers.pending .reconnect ≤ w.base.timers.pending .reconnect
  repeats : w.base.timers.NeverRepeats .reconnect → w'.base.timers.NeverRepeats .reconnect
  tasks : (∀ task ∈ w.base.tasks, task ≠ .reconnect) → ∀ task ∈ w'.base.tasks, task ≠ .reconnect
  events : ∃ new, (∀ event ∈ new, event.plain = true) ∧ w'.seen.events = new ++ w.seen.events

section Events

variable {event : ConnEvent} {events new : List ConnEvent}

theorem plain_spec (plain : event.plain = true) : event.attaches = false ∧
    event.finalises = false ∧ event.reconnects = false ∧ event.unregisters = none := by
  simp only [ConnEvent.plain, Bool.and_eq_true, Bool.not_eq_true', Option.isNone_iff_eq_none] at plain
  exact ⟨plain.1.1.1, plain.1.1.2, plain.1.2, plain.2⟩

theorem unregisteredIds_cons_of_none (none_named : event.unregisters = none) :
    unregisteredIds (event :: events) = unregisteredIds events := by
  simp [unregisteredIds, none_named]

theorem onceBetween_plain {counts : ConnEvent → Bool}
    (uncounted : ∀ event : ConnEvent, event.plain = true → counts event = false)
    (plain : ∀ event ∈ new, event.plain = true)
    (once : OnceBetween ConnEvent.attaches counts events) :
    OnceBetween ConnEvent.attaches counts (new ++ events) := by
  induction new with
  | nil => exact once
  | cons event rest ih =>
      refine (ih fun other member => plain other (List.mem_cons_of_mem _ member)).cons ?_
      exact .inr (.inl (uncounted event (plain event List.mem_cons_self)))

theorem countFirst_plain {counts : ConnEvent → Bool}
    (uncounted : ∀ event : ConnEvent, event.plain = true → counts event = false)
    (plain : ∀ event ∈ new, event.plain = true) :
    countFirst ConnEvent.attaches counts (new ++ events) =
      countFirst ConnEvent.attaches counts events := by
  induction new with
  | nil => rfl
  | cons event rest ih =>
      have here := plain event List.mem_cons_self
      rw [List.cons_append, countFirst_cons_of_not_counts (plain_spec here).1 (uncounted event here)]
      exact ih fun other member => plain other (List.mem_cons_of_mem _ member)

theorem unregisteredIds_plain (plain : ∀ event ∈ new, event.plain = true) :
    unregisteredIds (new ++ events) = unregisteredIds events := by
  induction new with
  | nil => rfl
  | cons event rest ih =>
      rw [List.cons_append,
        unregisteredIds_cons_of_none (plain_spec (plain event List.mem_cons_self)).2.2.2]
      exact ih fun other member => plain other (List.mem_cons_of_mem _ member)

end Events

theorem Orderly.of_append {new : List ConnEvent} (events : w'.seen.events = new ++ w.seen.events)
    (orderly : Orderly w') : Orderly w := by
  rw [Orderly, events, List.any_append, Bool.or_eq_false_iff] at orderly
  exact orderly.2

theorem Orderly.of_cons {event : ConnEvent} (events : w'.seen.events = event :: w.seen.events)
    (orderly : Orderly w') : Orderly w :=
  Orderly.of_append (show w'.seen.events = [event] ++ w.seen.events from events) orderly

namespace Plain

theorem orderly (plain : Plain w w') (orderly : Orderly w') : Orderly w := by
  obtain ⟨new, -, events⟩ := plain.events
  exact Orderly.of_append events orderly

theorem ledger (plain : Plain w w') (ledger : Ledger w) : Ledger w' := by
  obtain ⟨new, each, events⟩ := plain.events
  obtain ⟨distinct, below⟩ := plain.idle ledger.idleIds ledger.issued
  refine ⟨?_, ?_, ?_, distinct, below, plain.repeats ledger.repeats, plain.tasks ledger.tasks⟩
  · rw [events]
    exact onceBetween_plain (fun _ spec => (plain_spec spec).2.1) each ledger.finals
  · rw [events]
    exact onceBetween_plain (fun _ spec => (plain_spec spec).2.2.1) each ledger.reconnects
  · rw [events, unregisteredIds_plain each]
    exact ledger.unregistered

theorem unfinished (plain : Plain w w') (unfinished : Unfinished w) : Unfinished w' := by
  obtain ⟨new, each, events⟩ := plain.events
  refine ⟨?_, ?_, Nat.le_zero.mp (unfinished.pending ▸ plain.pending)⟩
  · rw [events, countFirst_plain (fun _ spec => (plain_spec spec).2.2.1) each]
    exact unfinished.reconnects
  · rw [events, unregisteredIds_plain each]
    exact unfinished.unregistered

theorem untouched (plain : Plain w w') (untouched : Untouched w) : Untouched w' := by
  obtain ⟨new, each, events⟩ := plain.events
  refine ⟨plain.unfinished untouched.1, ?_⟩
  rw [events, countFirst_plain (fun _ spec => (plain_spec spec).2.1) each]
  exact untouched.2

theorem finished (plain : Plain w w') (finished : Finished w) : Finished w' := by
  obtain ⟨new, each, events⟩ := plain.events
  refine ⟨plain.pending.trans finished.1, fun some_gone => ?_⟩
  rw [events, unregisteredIds_plain each] at some_gone
  exact Nat.le_zero.mp (finished.2 some_gone ▸ plain.pending)

theorem accounted (plain : Plain w w') (used : ¬ Final w' → ¬ Final w) (accounted : Accounted w) :
    Accounted w' := by
  intro orderly
  obtain ⟨ledger, finished, untouched⟩ := accounted (plain.orderly orderly)
  exact ⟨plain.ledger ledger, plain.finished finished,
    fun still => plain.untouched (untouched (used still))⟩

theorem drains (plain : Plain w w') (used : ¬ Final w → ¬ Final w')
    (same : w'.seen.draining = w.seen.draining) (draining : Draining w) : Draining w' := by
  intro orderly
  obtain ⟨ledger, untouched, before, drains⟩ := draining (plain.orderly orderly)
  exact ⟨plain.ledger ledger, plain.untouched untouched, used before, same.trans drains⟩

theorem drained (plain : Plain w w') (used : ¬ Final w → ¬ Final w') (drained : Drained w) :
    Drained w' := by
  intro orderly
  obtain ⟨ledger, untouched, before⟩ := drained (plain.orderly orderly)
  exact ⟨plain.ledger ledger, plain.untouched untouched, used before⟩

theorem ending (plain : Plain w w') (final : Final w')
    (before : Orderly w → Ledger w ∧ Untouched w) : Ending w' := by
  refine ⟨final, fun orderly => ?_⟩
  obtain ⟨ledger, untouched⟩ := before (plain.orderly orderly)
  exact ⟨plain.ledger ledger, plain.untouched untouched⟩

theorem ended (plain : Plain w w') (final : Final w → Final w') (ended : Ended w) : Ended w' := by
  refine ⟨final ended.1, fun orderly => ?_⟩
  obtain ⟨ledger, unfinished⟩ := ended.2 (plain.orderly orderly)
  exact ⟨plain.ledger ledger, plain.unfinished unfinished⟩

theorem concluded (plain : Plain w w') (final : Final w → Final w') (ended : Concluded w) : Concluded w' := by
  refine ⟨final ended.1, fun orderly => ?_⟩
  obtain ⟨ledger, finished⟩ := ended.2 (plain.orderly orderly)
  exact ⟨plain.ledger ledger, plain.finished finished⟩

/-! ## Which steps are of no account -/

/-- A step that records events of no account and touches neither timers nor idle ids. -/
theorem noted (new : List ConnEvent) (plain : ∀ event ∈ new, event.plain = true)
    (events : w'.seen.events = new ++ w.seen.events) (idleIds : w'.con.idleIds = w.con.idleIds)
    (nextIdle : w'.base.nextIdle = w.base.nextIdle) (timers : w'.base.timers = w.base.timers)
    (tasks : w'.base.tasks = w.base.tasks) : Plain w w' where
  idle distinct below := by rw [idleIds, nextIdle]; exact ⟨distinct, below⟩
  pending := by rw [timers]
  repeats never := by rw [timers]; exact never
  tasks none_reconnects := by rw [tasks]; exact none_reconnects
  events := ⟨new, plain, events⟩

theorem silent (events : w'.seen.events = w.seen.events) (idleIds : w'.con.idleIds = w.con.idleIds)
    (nextIdle : w'.base.nextIdle = w.base.nextIdle) (timers : w'.base.timers = w.base.timers)
    (tasks : w'.base.tasks = w.base.tasks) : Plain w w' :=
  noted [] (by simp) events idleIds nextIdle timers tasks

theorem recorded {event : ConnEvent} (plain : event.plain = true)
    (events : w'.seen.events = event :: w.seen.events) (idleIds : w'.con.idleIds = w.con.idleIds)
    (nextIdle : w'.base.nextIdle = w.base.nextIdle) (timers : w'.base.timers = w.base.timers)
    (tasks : w'.base.tasks = w.base.tasks) : Plain w w' :=
  noted [event] (by simpa using plain) events idleIds nextIdle timers tasks

theorem of_sends (sends : Sends w w') : Plain w w' := by
  obtain ⟨channel, input, output, -, con⟩ := sends.con
  obtain ⟨poller, base⟩ := sends.base
  obtain ⟨new, ofSend, events⟩ := sends.events
  refine ⟨?_, by rw [base], by rw [base]; exact id, by rw [base]; exact id, new, ?_, events⟩
  · rw [con, base]
    exact fun distinct below => ⟨distinct, below⟩
  · intro event member
    have sent := ofSend event member
    cases event <;> first | rfl | cases sent

/-- New timers that are not reconnects. -/
theorem of_runAfter (w : World υ) (milli : ℤ) {task : BaseTask} (interval : ℤ)
    (other : task ≠ .reconnect) : Plain w { w with base := (w.base.runAfter milli task interval).2 } where
  idle distinct below := ⟨distinct, below⟩
  pending := by
    have bound := Timers.pending_runAt w.base.timers (w.base.timers.clock + milli) task interval
      .reconnect
    rw [if_neg other] at bound
    exact bound
  repeats never := never.runAt _ fun _ => other
  tasks none_reconnects := none_reconnects
  events := ⟨[], by simp, rfl⟩

/-- A new idle id is distinct from those that have been issued. -/
theorem addIdle (w : World υ) (idle : ℤ) : Plain w { w with
    base := (w.base.registerIdle idle).2
    con := { w.con with idleIds := w.con.idleIds ++ [(w.base.registerIdle idle).1] } } := by
  have node : (w.base.registerIdle idle).1.node = w.base.nextIdle := by
    unfold EventBase.registerIdle
    cases w.base.idleEnabled <;> rfl
  have next : (w.base.registerIdle idle).2.nextIdle = w.base.nextIdle + 1 := by
    unfold EventBase.registerIdle
    cases w.base.idleEnabled <;> rfl
  have timers : (w.base.registerIdle idle).2.timers = w.base.timers ∨
      (w.base.registerIdle idle).2.timers = (w.base.runAfter 1000 .callIdles 1000).2.timers := by
    unfold EventBase.registerIdle
    cases w.base.idleEnabled
    · exact .inr rfl
    · exact .inl rfl
  have tasks : (w.base.registerIdle idle).2.tasks = w.base.tasks := by
    unfold EventBase.registerIdle
    cases w.base.idleEnabled <;> rfl
  refine ⟨fun distinct below => ⟨?_, fun id member => ?_⟩, ?_, ?_, by rw [tasks]; exact id, [],
    by simp, rfl⟩
  · refine distinct.append (List.nodup_singleton _) ?_
    intro id old new
    have small := below id old
    rw [List.mem_singleton.mp new, node] at small
    exact lt_irrefl _ small
  · rw [next]
    rcases List.mem_append.mp member with old | new
    · exact (below id old).trans (Nat.lt_succ_self _)
    · rw [List.mem_singleton.mp new, node]
      exact Nat.lt_succ_self _
  · rcases timers with same | added
    · rw [same]
    · rw [added]
      exact (of_runAfter w 1000 1000 (by decide)).pending
  · intro never
    rcases timers with same | added
    · rw [same]
      exact never
    · rw [added]
      exact (of_runAfter w 1000 1000 (by decide)).repeats never

theorem tweaked (tweak : Tweaks w w') : Plain w w' := by
  cases tweak with
  | user => exact silent rfl rfl rfl rfl rfl
  | closeLater =>
      refine ⟨fun distinct below => ⟨distinct, below⟩, le_rfl, id, fun none_reconnects task member => ?_,
        [], by simp, rfl⟩
      rcases List.mem_append.mp member with old | new
      · exact none_reconnects task old
      · rw [List.mem_singleton.mp new]
        decide
  | addIdle idle _ => exact addIdle w idle
  | interval => exact silent rfl rfl rfl rfl rfl
  | exit => exact ⟨fun distinct below => ⟨distinct, below⟩, le_rfl, id, id, [], by simp, rfl⟩
  | message msg => exact recorded (show (ConnEvent.msgCalled msg).plain = true from rfl) rfl rfl rfl rfl rfl

end Plain

end TcpConn

end Handy
