import Handy.Conn.Finalise
import Handy.Conn.Redial

/-!
# Handlers and idle callbacks

Idle callbacks are touched in few places: `addIdleCB` registers one, `handleRead` updates
those of the connection, `cleanup` unregisters them, and the loop drops all lists when it
exits. Everything else leaves them alone (`Uninvolved`), except that a reconnect brings the
connection back into use (`Carried`).

`Idling` asks of a property what these places need, and every handler and every event then
keeps the property (`handleEvent_idle`). It is used for the registrations that are left behind
and for the nodes that are looked up.
-/

set_option autoImplicit false
set_option mvcgen.warning false

namespace Handy

/-- The event is neither a call of `unregisterIdle` nor an exit of the loop. -/
def ConnEvent.sparesIdle : ConnEvent → Bool
  | .unregistered _ => false
  | .exitedWaiting => false
  | _ => true

namespace TcpConn

variable {υ α : Type} {w w' : World υ}

/-- Nothing happens to the idle callbacks. -/
structure Carried (w w' : World υ) : Prop where
  idleIds : w'.con.idleIds = w.con.idleIds
  idleConns : w'.base.idleConns = w.base.idleConns
  nextIdle : w'.base.nextIdle = w.base.nextIdle
  events : ∃ new, (∀ event ∈ new, event.sparesIdle = true) ∧ w'.seen.events = new ++ w.seen.events

/-- Moreover, the connection is not brought back into use, and while it is in use it does not
begin to wait for a reconnect. -/
structure Uninvolved (w w' : World υ) : Prop extends Carried w w' where
  used : ¬ Final w' → ¬ Final w
  waits : ¬ Final w' → w'.base.reconnectConns = true → w.base.reconnectConns = true

namespace Carried

theorem silent (idleIds : w'.con.idleIds = w.con.idleIds)
    (idleConns : w'.base.idleConns = w.base.idleConns)
    (nextIdle : w'.base.nextIdle = w.base.nextIdle)
    (events : w'.seen.events = w.seen.events) : Carried w w' :=
  ⟨idleIds, idleConns, nextIdle, [], by simp, events⟩

theorem recorded (event : ConnEvent) (spares : event.sparesIdle = true)
    (idleIds : w'.con.idleIds = w.con.idleIds)
    (idleConns : w'.base.idleConns = w.base.idleConns)
    (nextIdle : w'.base.nextIdle = w.base.nextIdle)
    (events : w'.seen.events = event :: w.seen.events) : Carried w w' :=
  ⟨idleIds, idleConns, nextIdle, [event], by simpa using spares, events⟩

/-- The ids that were unregistered stay the same. -/
theorem unregistered (carried : Carried w w') :
    unregisteredIds w'.seen.events = unregisteredIds w.seen.events := by
  obtain ⟨new, spare, events⟩ := carried.events
  have none_new : unregisteredIds new = [] := by
    refine List.filterMap_eq_nil_iff.mpr fun event member => ?_
    have spares := spare event member
    cases event <;> first | rfl | cases spares
  rw [events, unregisteredIds, List.filterMap_append]
  exact congrArg (· ++ unregisteredIds w.seen.events) none_new

/-- An event that idle callbacks are not spared from is not a new one. -/
theorem mem_events (carried : Carried w w') {event : ConnEvent} (other : event.sparesIdle = false)
    (member : event ∈ w'.seen.events) : event ∈ w.seen.events := by
  obtain ⟨new, spare, events⟩ := carried.events
  rw [events] at member
  rcases List.mem_append.mp member with recent | old
  · rw [spare event recent] at other
    cases other
  · exact old

theorem of_sends (sends : Sends w w') : Carried w w' := by
  obtain ⟨channel, input, output, -, con⟩ := sends.con
  obtain ⟨poller, base⟩ := sends.base
  obtain ⟨new, ofSend, events⟩ := sends.events
  refine ⟨by rw [con], by rw [base], by rw [base], new, fun event member => ?_, events⟩
  have sent := ofSend event member
  cases event <;> first | rfl | cases sent

end Carried

namespace Uninvolved

theorem of_state (carried : Carried w w') (state : w'.con.state = w.con.state)
    (waits : w'.base.reconnectConns = w.base.reconnectConns) : Uninvolved w w' :=
  ⟨carried, fun used final => used ((final_of_same state).mpr final), fun _ waiting => waits ▸ waiting⟩

theorem of_final (carried : Carried w w') (final : Final w') : Uninvolved w w' :=
  ⟨carried, fun used => absurd final used, fun used => absurd final used⟩

theorem of_sends (sends : Sends w w') : Uninvolved w w' := by
  refine .of_state (.of_sends sends) sends.state ?_
  obtain ⟨poller, base⟩ := sends.base
  rw [base]

end Uninvolved

/-- The property is kept where idle callbacks are touched; a reconnect keeps it when the
connection is ready for it. -/
structure Idling (kept : World υ → Prop) (ready : List ConnEvent → Prop)
    (stopped : Fault → World υ → Prop) : Prop where
  passes : ∀ w w', Uninvolved w w' → kept w → kept w'
  restarts : ∀ w w', Carried w w' → w'.base.reconnectConns = false → ready w.seen.events →
    kept w → kept w'
  adds : ∀ (w : World υ) (idle : ℤ), kept w → kept { w with
    base := (w.base.registerIdle idle).2
    con := { w.con with idleIds := w.con.idleIds ++ [(w.base.registerIdle idle).1] } }
  updates : ∀ ids, Meets (fun w => kept w ∧ ¬ Final w ∧ ∀ id ∈ ids, id ∈ w.con.idleIds)
    (updateIdles ids : Act υ Unit) (fun _ => kept) stopped
  unregisters : ∀ ids, Meets (fun w => kept w ∧ Final w ∧ ∀ id ∈ ids, id ∈ w.con.idleIds)
    (unregisterIdles ids : Act υ Unit) (fun _ w => kept w ∧ Final w) stopped
  stops : ∀ fault w, fault ≠ .danglingIdle → kept w → stopped fault w

/-- The handler does nothing in a final state. -/
def Rests (handler : Act υ Unit) : Prop :=
  ∀ w, Final w → handler.run w = .ok () w ∨ handler.run w = .error .nesting w

theorem handleRead_rests (σ : UserCode υ) (depth : ℕ) : Rests (handleRead σ depth) := by
  intro w final
  cases depth with
  | zero => exact .inr rfl
  | succ depth => exact .inl (handleReadOnce_final σ (handleRead σ depth) final)

theorem sends_not_dangling {op : Op} {fault : Fault} (may : op.mayFault fault) :
    fault ≠ .danglingIdle := by
  cases op with
  | sendMsg msg => rcases may with rfl | rfl <;> decide
  | _ => exact may ▸ (by decide)

/-! ## Operations of user code -/

section Nested

variable {kept : World υ → Prop} {ready : List ConnEvent → Prop} {stopped : Fault → World υ → Prop}
  (idling : Idling kept ready stopped) {self : Act υ Unit}
  (nested : Meets kept self (fun _ => kept) stopped) (rests : Rests self) (σ : UserCode υ)

include idling

/-- The property can be kept of connections that are over. -/
theorem Idling.over : Idling (fun w => kept w ∧ Final w) (fun _ => False) stopped where
  passes w w' uninvolved holds :=
    ⟨idling.passes w w' uninvolved holds.1, by_contra fun used => uninvolved.used used holds.2⟩
  restarts _ _ _ _ impossible := impossible.elim
  adds w idle holds := ⟨idling.adds w idle holds.1, holds.2⟩
  updates _ := meets_iff.mpr fun _ holds => absurd holds.1.2 holds.2.1
  unregisters ids := (idling.unregisters ids).imp (fun _ holds => ⟨holds.1.1, holds.2⟩)
    (fun _ _ done => ⟨done, done.2⟩) fun _ _ stop => stop
  stops fault w other holds := idling.stops fault w other holds.1

/-- A handler that rests keeps the property of connections that are over. -/
theorem Idling.resting (rests : Rests self) : Meets (fun w => kept w ∧ Final w) self
    (fun _ w => kept w ∧ Final w) stopped := by
  refine meets_iff.mpr fun w holds => ?_
  rcases rests w holds.2 with ran | ran
  · rw [ran]
    exact holds
  · rw [ran]
    exact idling.stops _ w (by decide) holds.1

theorem Idling.sends (self : Act υ Unit) {op : Op} (sending : op.sends = true) :
    Meets kept (runOp self op) (fun _ => kept) stopped := by
  refine meets_iff.mpr fun w holds => ?_
  have both := (runOp_sends self sending w).and (runOp_sent self sending w)
  cases ran : (runOp self op).run w with
  | ok _ w' => exact idling.passes w w' (.of_sends (both.ok ⟨.refl w, rfl⟩ ran).1) holds
  | error fault w' =>
      have stop := both.fault ⟨.refl w, rfl⟩ ran
      exact idling.stops fault w' (sends_not_dangling stop.2.1)
        (idling.passes w w' (.of_sends stop.1) holds)

/-- Writing what was queued. -/
theorem Idling.flushes {program : Act υ Unit} (moves : Moves Sends program)
    (flushes : ∀ w, Meets (fun w' => w' = w) program (fun _ => Flushed w) (FlushStops w)) :
    Meets kept program (fun _ => kept) stopped := by
  refine meets_iff.mpr fun w holds => ?_
  have both := (moves w).and (flushes w)
  cases ran : program.run w with
  | ok _ w' => exact idling.passes w w' (.of_sends (both.ok ⟨.refl w, rfl⟩ ran).1) holds
  | error fault w' =>
      obtain ⟨sends, other, -⟩ := both.fault ⟨.refl w, rfl⟩ ran
      refine idling.stops fault w' ?_ (idling.passes w w' (.of_sends sends) holds)
      rcases other with rfl | ⟨rfl, -⟩ <;> decide

include nested

theorem Idling.closeChannel_kept : Meets kept (closeChannel self) (fun _ => kept) stopped := by
  mvcgen [closeChannel, getChannel, closeFd, record, modifyCon, modifyBase, nested]
  case vc1 w holds _ _ _ _ _ _ =>
    exact idling.passes w _ (.of_state (.recorded (.channelClosed w.seen.draining) rfl rfl rfl rfl rfl) rfl rfl) holds
  case vc3 w holds _ => exact idling.stops _ w (by decide) holds

theorem Idling.endures : Endures (fun _ => True) self kept stopped where
  sends _ sending _ := idling.sends self sending
  closes _ := (idling.closeChannel_kept nested).imp (fun _ start => start.1) (fun _ _ done => done)
    fun _ _ stop => stop
  tweaks w w' tweak _ holds := by
    cases tweak with
    | addIdle idle _ => exact idling.adds w idle holds
    | message msg =>
        exact idling.passes w _ (.of_state (.recorded (.msgCalled msg) rfl rfl rfl rfl rfl) rfl rfl) holds
    | _ => exact idling.passes w _ (.of_state (.silent rfl rfl rfl rfl) rfl rfl) holds
  raises w := idling.stops _ w (by decide)

theorem Idling.callRead_kept : Meets kept (callRead σ self) (fun _ => kept) stopped := by
  refine (idling.endures nested).callRead_kept σ (fun _ _ _ _ _ => trivial) (fun w msg holds => ?_)
    (fun len => idling.sends self (show (Op.consumeInput len).sends = true from rfl)) ?_
    (fun _ holds => holds) (fun w holds => ⟨?_, ?_⟩) fun _ _ _ _ => trivial
  · exact idling.passes w _ (.of_state (.recorded (.msgCalled msg) rfl rfl rfl rfl rfl) rfl rfl) holds
  · exact (idling.closeChannel_kept nested).imp (fun _ start => start.1) (fun _ _ done => done)
      fun _ _ stop => stop
  · exact idling.stops _ w (by decide) holds
  · exact idling.stops _ w (by decide) holds

theorem Idling.callState_kept : Meets kept (callState σ self) (fun _ => kept) stopped :=
  (idling.endures nested).callState_kept σ (fun _ _ _ _ => trivial)
    (fun w holds _ => idling.passes w _ (.of_state (.recorded (.stateCalled w.con.state) rfl rfl rfl rfl rfl) rfl rfl) holds)
    fun _ holds _ => holds

/-! ## Closing -/

theorem Idling.deleteChannel_kept : Meets kept (deleteChannel self) (fun _ => kept) stopped := by
  have closes := idling.closeChannel_kept nested
  mvcgen [deleteChannel, modifyCon, closes]
  case vc2 w holds _ => exact idling.passes w _ (.of_state (.silent rfl rfl rfl rfl) rfl rfl) holds

theorem Idling.detachChannel_kept : Meets kept (detachChannel self) (fun _ => kept) stopped := by
  mvcgen [detachChannel, closeFd, record, modifyCon, modifyBase, nested]
  case vc1 w holds _ _ _ =>
    exact idling.passes w _ (.of_state (.silent rfl rfl rfl rfl) rfl rfl) holds
  case vc2 w holds _ _ _ _ _ _ _ =>
    exact idling.passes w _
      (.of_state (.recorded (.channelClosed w.seen.draining) rfl rfl rfl rfl rfl) rfl rfl) holds
  case vc3 w holds _ _ _ _ _ =>
    exact idling.passes w _ (.of_state (.silent rfl rfl rfl rfl) rfl rfl) holds

theorem Idling.drainInput_kept : Meets kept (drainInput σ self) (fun _ => kept) stopped := by
  have reads := idling.callRead_kept nested σ
  mvcgen [drainInput, setDraining, reads]
  case vc1 w holds _ _ => exact idling.passes w _ (.of_state (.silent rfl rfl rfl rfl) rfl rfl) holds
  case vc2 w holds _ => exact idling.passes w _ (.of_state (.silent rfl rfl rfl rfl) rfl rfl) holds

omit nested in
theorem Idling.cancelTimeout_kept :
    Meets kept (cancelTimeout : Act υ Unit) (fun _ => kept) stopped := by
  mvcgen [cancelTimeout, modifyBase]
  case vc1 w holds _ _ _ _ =>
    exact idling.passes w _ (.of_state (.silent rfl rfl rfl rfl) rfl rfl) holds
  case vc2 w holds _ _ => exact idling.stops _ w (by rintro ⟨⟩) holds

include rests

omit nested in
/-- `reconnect` leaves the idle callbacks as they are. -/
theorem Idling.reconnect_kept : Meets (fun w => kept w ∧ Final w) (reconnect self)
    (fun _ w => kept w ∧ Final w) stopped := by
  have deletes := idling.over.deleteChannel_kept (idling.resting rests)
  mvcgen [reconnect, record, deletes]
  case vc1 w holds _ _ _ =>
    have carried : Carried w { w with
        base := ({ w.base with reconnectConns := true }.runAfter (max (w.con.reconnectInterval -
          (w.base.timers.clock - w.con.connectedTime)) 0) .reconnect 0).2
        seen := { w.seen with events := .reconnectScheduled :: w.seen.events } } :=
      .recorded .reconnectScheduled rfl rfl rfl rfl rfl
    exact ⟨idling.passes w _ (.of_final carried holds.2) holds.1, holds.2⟩

/-- **`cleanup` keeps the property.** -/
theorem Idling.cleanup_kept : Meets kept (cleanup σ self) (fun _ => kept) stopped := by
  have drains := idling.drainInput_kept nested σ
  have cancels := idling.over.cancelTimeout_kept
  have calls := idling.over.callState_kept (idling.resting rests) σ
  have reconnects := idling.reconnect_kept rests
  have detaches := idling.over.detachChannel_kept (idling.resting rests)
  have unregisters := idling.unregisters
  mvcgen [cleanup, modifyCon, drains, cancels, calls, reconnects, detaches, unregisters]
  case vc2 w holds _ =>
    have final := cleaned_final w.con.state
    exact ⟨idling.passes w _ (.of_final (.silent rfl rfl rfl rfl) final) holds, final⟩
  case vc5 => exact fun holds _ => holds
  case vc6 w holds _ => exact ⟨holds.1, holds.2, fun _ member => member⟩
  case vc7 w holds _ =>
    exact ⟨idling.passes w _ (.of_state (.silent rfl rfl rfl rfl) rfl rfl) holds.1, holds.2⟩
  case vc8 => exact fun holds _ => holds

/-! ## Handlers -/

omit nested rests in
theorem Idling.enableReadWrite_kept (readable writable : Bool) : Meets (fun w => kept w ∧ ¬ Final w)
    (enableReadWrite readable writable : Act υ Unit) (fun _ w => kept w ∧ ¬ Final w) stopped := by
  mvcgen [enableReadWrite, getChannel, updateChannel, record, modifyCon, modifyBase]
  case vc1 w holds _ _ _ _ _ _ _ _ =>
    exact ⟨idling.passes w _ (.of_state (.recorded (.updated _ _) rfl rfl rfl rfl rfl) rfl rfl) holds.1,
      holds.2⟩
  case vc2 w holds _ _ _ _ _ _ =>
    exact idling.stops _ _ (by decide) (idling.passes w _
      (.of_state (.recorded (.updated _ _) rfl rfl rfl rfl rfl) rfl rfl) holds.1)
  case vc3 w holds _ => exact idling.stops _ w (by decide) holds.1

omit nested rests in
/-- The handshake completes on a connection that is already in use. -/
theorem Idling.completeHandshake_kept : Meets (fun w => kept w ∧ ¬ Final w)
    (completeHandshake : Act υ Unit) (fun _ => kept) stopped := by
  have enables := idling.enableReadWrite_kept
  mvcgen [completeHandshake, record, enables]
  case vc1 w holds _ =>
    exact ⟨idling.passes w _ (.of_state (.recorded (.handshaken _) rfl rfl rfl rfl rfl) rfl rfl) holds.1,
      holds.2⟩
  case vc2 w holds _ =>
    exact idling.passes w _ ⟨.silent rfl rfl rfl rfl, fun _ => holds.2, fun _ waiting => waiting⟩ holds.1

theorem Idling.handleHandshake_kept :
    Meets kept (handleHandshake σ self) (fun _ => kept) stopped := by
  have polls : ∀ fd, Meets (fun w => kept w ∧ ¬ Final w) (poll fd : Act υ Bool)
      (fun _ w => kept w ∧ ¬ Final w) stopped := by
    intro fd
    mvcgen [poll]
    case vc3 w holds _ _ _ _ =>
      exact ⟨idling.passes w _ (.of_state (.silent rfl rfl rfl rfl) rfl rfl) holds.1, holds.2⟩
  have completes := idling.completeHandshake_kept
  have calls := idling.callState_kept nested σ
  have cleans := idling.cleanup_kept nested rests σ
  mvcgen [handleHandshake, getChannel, polls, completes, calls, cleans]
  case vc1 w holds _ _ => exact idling.stops _ w (by decide) holds
  case vc2 w holds _ shaking _ _ => exact ⟨holds, fun final => shaking final.1⟩
  case vc5 w holds => exact holds.1
  case vc6 w holds _ _ _ => exact idling.stops _ w (by decide) holds

theorem Idling.readConnected_kept :
    Meets (fun w => kept w ∧ ¬ Final w) (readConnected σ self) (fun _ => kept) stopped := by
  have updates := idling.updates
  have reads := idling.callRead_kept nested σ
  have cleans := idling.cleanup_kept nested rests σ
  mvcgen [readConnected, getChannel, modifyCon, updates, reads, cleans]
  case vc1 w holds _ _ _ _ =>
    exact idling.passes w _ (.of_state (.silent rfl rfl rfl rfl) rfl rfl) holds.1
  case vc2 w holds _ _ _ _ _ =>
    exact idling.passes w _ (.of_state (.silent rfl rfl rfl rfl) rfl rfl) holds.1
  case vc3 w holds _ _ _ _ _ =>
    exact ⟨idling.passes w _ (.of_state (.silent rfl rfl rfl rfl) rfl rfl) holds.1, holds.2,
      fun _ member => member⟩
  case vc6 w holds _ => exact idling.stops _ w (by decide) holds.1

theorem Idling.handleReadOnce_kept :
    Meets kept (handleReadOnce σ self) (fun _ => kept) stopped := by
  have shakes := idling.handleHandshake_kept nested rests σ
  have reads := idling.readConnected_kept nested rests σ
  mvcgen [handleReadOnce, shakes, reads]
  case vc2 w holds connected => exact ⟨holds, fun final => final.2 connected⟩
  case vc5 w holds _ _ connected => exact ⟨holds, fun final => final.2 connected⟩

theorem Idling.handleWrite_kept : Meets kept (handleWrite σ self) (fun _ => kept) stopped := by
  have shakes := idling.handleHandshake_kept nested rests σ
  have calls : Meets kept (callUser σ self .writable) (fun _ => kept) stopped :=
    (idling.endures nested).callUser_kept σ fun _ _ _ _ => trivial
  have flushes : Meets kept (flushOutput : Act υ Unit) (fun _ => kept) stopped :=
    idling.flushes flushOutput_sends flushOutput_flushed
  have stops : Meets kept (stopWriting : Act υ Unit) (fun _ => kept) stopped :=
    idling.flushes stopWriting_sends stopWriting_flushed
  mvcgen [handleWrite, shakes, flushes, calls, stops]

end Nested

/-- A socket is attached, and nothing else happens. -/
def Redialled (w₀ w : World υ) : Prop := Carried w₀ w ∧ w.base.reconnectConns = false

theorem attach_redials (self : Act υ Unit) (fd : ℤ) (w₀ : World υ) :
    Meets (fun w => Redialled w₀ w ∧ w.con.channel = none) (attach self fd) (fun _ => Redialled w₀)
      fun fault w => fault ≠ .danglingIdle ∧ Redialled w₀ w := by
  have deletes : Meets (fun w => Redialled w₀ w ∧ w.con.channel = none) (deleteChannel self)
      (fun _ w => Redialled w₀ w ∧ w.con.channel = none) fun _ _ => False := by
    refine meets_iff.mpr fun w start => ?_
    rw [deleteChannel_absent start.2]
    exact start
  mvcgen [attach, modifyCon, record, deletes]
  case vc1 w start _ _ _ => exact ⟨by decide, start.1⟩
  case vc2 w start _ _ _ _ =>
    obtain ⟨⟨carried, idle⟩, absent⟩ := start
    exact ⟨⟨⟨carried.idleIds, carried.idleConns, carried.nextIdle, carried.events⟩, idle⟩, absent⟩
  case vc3 w start _ _ => exact ⟨by decide, start.1⟩
  case vc4 w start _ _ _ _ _ =>
    obtain ⟨⟨carried, idle⟩, -⟩ := start
    obtain ⟨new, spare, events⟩ := carried.events
    refine ⟨⟨carried.idleIds, carried.idleConns, carried.nextIdle, .attached :: new, ?_, ?_⟩, idle⟩
    · exact List.forall_mem_cons.mpr ⟨rfl, spare⟩
    · rw [List.cons_append, ← events]

theorem connect_redials (self : Act υ Unit) (port timeout : ℤ) (w₀ : World υ) :
    Meets (fun w => Redialled w₀ w ∧ Settled w) (connect self port timeout) (fun _ => Redialled w₀)
      fun fault w => fault ≠ .danglingIdle ∧ Redialled w₀ w := by
  have attaches := fun fd => attach_redials self fd w₀
  mvcgen [connect, attaches]
  case vc1 w start _ _ _ => exact ⟨by decide, start.1⟩
  case vc2 w start state _ idle _ _ =>
    obtain ⟨⟨carried, awake⟩, live | gone⟩ := start
    · refine absurd ⟨?_, ?_⟩ live.2 <;> intro same <;> simp [state, same] at idle
    · exact ⟨⟨⟨carried.idleIds, carried.idleConns, carried.nextIdle, carried.events⟩, awake⟩, gone.1⟩
  case vc3 w start _ =>
    obtain ⟨carried, awake⟩ := start
    exact ⟨⟨carried.idleIds, carried.idleConns, carried.nextIdle, carried.events⟩, awake⟩

/-! ## Events -/

/-- The loop has exited and dropped its timers and its idle lists. -/
def cleared (w : World υ) : World υ :=
  { w with base := { w.base with timers := w.base.timers.clear, idleConns := .empty } }

section Events

variable {kept : World υ → Prop} {ready : List ConnEvent → Prop} {stopped : Fault → World υ → Prop}
  (idling : Idling kept ready stopped) (σ : UserCode υ)

include idling

theorem Idling.handleRead_kept (depth : ℕ) :
    Meets kept (handleRead σ depth) (fun _ => kept) stopped := by
  induction depth with
  | zero =>
      mvcgen [handleRead]
      case vc1 w holds => exact idling.stops _ w (by decide) holds
  | succ depth ih => exact idling.handleReadOnce_kept ih (handleRead_rests σ depth) σ

theorem Idling.connect_kept (self : Act υ Unit) (port timeout : ℤ) :
    Meets (fun w => kept w ∧ Settled w ∧ w.base.reconnectConns = false ∧ ready w.seen.events)
      (connect self port timeout) (fun _ => kept) stopped := by
  refine meets_iff.mpr fun w ⟨holds, settled, awake, prepared⟩ => ?_
  have redials := connect_redials self port timeout w
  have start : Redialled w w := ⟨.silent rfl rfl rfl rfl, awake⟩
  cases ran : (connect self port timeout).run w with
  | ok _ w' =>
      have redialled := redials.ok ⟨start, settled⟩ ran
      exact idling.restarts w w' redialled.1 redialled.2 prepared holds
  | error fault w' =>
      obtain ⟨other, redialled⟩ := redials.fault ⟨start, settled⟩ ran
      exact idling.stops fault w' other (idling.restarts w w' redialled.1 redialled.2 prepared holds)

theorem Idling.runTask_kept (task : BaseTask) :
    Meets (fun w => kept w ∧ Settled w ∧ (task = .reconnect → ready w.seen.events))
      (runTask σ task) (fun _ => kept) stopped := by
  have shut := idling.closeChannel_kept (idling.handleRead_kept σ maxNesting)
  cases task with
  | closeChannel =>
      mvcgen [runTask, onClose, shut]
      case vc1 w holds _ => exact holds.1
      case vc2 w holds _ => exact holds.1
  | connectTimeout =>
      mvcgen [runTask, onClose, shut]
      case vc1 w holds _ => exact holds.1
      case vc2 w holds _ => exact holds.1
  | callIdles =>
      mvcgen [runTask]
      case vc1 w holds => exact holds.1
  | reconnect =>
      have connects := idling.connect_kept (onClose σ)
      mvcgen [runTask, modifyBase, connects]
      case vc1 w _ _ holds =>
        obtain ⟨before, settled, prepared⟩ := holds
        refine ⟨idling.passes w _ ⟨.silent rfl rfl rfl rfl, id, fun _ => Bool.noConfusion⟩ before,
          settled, rfl, prepared⟩

/-- **Every event of the running loop keeps the property**, when a reconnect finds it ready. -/
theorem Idling.handleEvent_kept {event : Event} (looping : event ≠ .loopExit) :
    Meets (fun w => kept w ∧ Settled w ∧ (Redials event w → ready w.seen.events))
      (handleEvent σ event) (fun _ => kept) stopped := by
  have nested : Meets kept (onClose σ) (fun _ => kept) stopped := idling.handleRead_kept σ maxNesting
  have rests : Rests (onClose σ) := handleRead_rests σ maxNesting
  have shut := idling.closeChannel_kept nested
  have runs := idling.runTask_kept σ
  cases event with
  | readable =>
      have reads := idling.handleRead_kept σ (maxNesting + 1)
      mvcgen [handleEvent, reads]
      case vc1 w holds _ => exact holds.1
      case vc2 w holds _ => exact holds.1
  | writable =>
      have writes := idling.handleWrite_kept nested rests σ
      mvcgen [handleEvent, writes]
      case vc1 w holds _ => exact holds.1
      case vc2 w holds _ => exact holds.1
  | timer =>
      mvcgen [handleEvent, modifyBase, runs]
      case vc1 w holds _ _ => exact holds.1
      case vc2 w holds _ _ _ _ _ _ => exact idling.stops _ w (by rintro ⟨⟩) holds.1
      case vc3 w holds _ key action next fired timers ran _ =>
        obtain ⟨before, settled, prepared⟩ := holds
        exact ⟨idling.passes w _ (.of_state (.silent rfl rfl rfl rfl) rfl rfl) before, settled,
          fun reconnects => prepared (.inl ⟨rfl, key, action, fired, timers, next, ran, reconnects⟩)⟩
  | task =>
      mvcgen [handleEvent, modifyBase, runs]
      case vc1 w holds _ => exact holds.1
      case vc2 w holds task tasks queue _ =>
        obtain ⟨before, settled, prepared⟩ := holds
        exact ⟨idling.passes w _ (.of_state (.silent rfl rfl rfl rfl) rfl rfl) before, settled,
          fun reconnects => prepared (.inr ⟨rfl, by rw [queue, reconnects]; rfl⟩)⟩
  | call op =>
      exact ((idling.endures nested).runOp_kept trivial).imp (fun _ holds => holds.1)
        (fun _ _ done => done) fun _ _ stop => stop
  | elapse milli =>
      mvcgen [handleEvent, modifyBase]
      case vc1 w holds _ =>
        exact idling.passes w _ (.of_state (.silent rfl rfl rfl rfl) rfl rfl) holds.1
  | loopExit => exact absurd rfl looping
  | destroyPoller =>
      mvcgen [handleEvent, shut]
      case vc1 w holds _ => exact holds.1
      case vc2 w holds _ => exact holds.1

/-- **The exit of the loop** keeps what holds without idle lists. -/
theorem Idling.loopExit_kept :
    Meets (fun w => kept w ∧ (w.base.exited = true →
        kept (cleared w) ∧ (w.base.reconnectConns = true → kept (exiting w))))
      (handleEvent σ .loopExit) (fun _ => kept) stopped := by
  have cleans := idling.cleanup_kept (idling.handleRead_kept σ maxNesting) (handleRead_rests σ maxNesting) σ
  mvcgen [handleEvent, onClose, modifyBase, record, cleans]
  case vc1 w holds exited _ waiting _ => exact (holds.2 exited).2 waiting
  case vc2 w holds exited _ _ => exact (holds.2 exited).1
  case vc3 w holds _ => exact holds.1

end Events

end TcpConn

end Handy
