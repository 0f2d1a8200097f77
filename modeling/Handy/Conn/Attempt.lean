import Handy.Conn.Manners
import Handy.Conn.Messages

/-!
# One attempt

Between two calls of `attach` the socket, its port and the sockets to come stay as they are,
and what was handed over for the socket is on it or in `output_` (`Attempt`). Every handler
keeps to that, and none of them reaches a fatal check of the state; only `connect` and
`attach` can.
-/

set_option autoImplicit false
set_option mvcgen.warning false

namespace Handy

/-- An event of a single attempt. -/
def ConnEvent.routine : ConnEvent → Bool
  | .attached => false
  | .exitedWaiting => false
  | _ => true

namespace TcpConn

variable {υ α : Type} {w₀ w w' : World υ}

/-- Since `w₀` no socket was attached, and the loop did not exit. -/
def Within (w₀ w : World υ) : Prop :=
  w.con.destPort = w₀.con.destPort ∧ w.net.laterPeers = w₀.net.laterPeers ∧
    ∃ new, (∀ event ∈ new, event.routine = true) ∧ w.seen.events = new ++ w₀.seen.events

/-- Nor did the flow of output break. -/
def Attempt (w₀ w : World υ) : Prop := Within w₀ w ∧ (Flowing w₀ → Flowing w)

/-- How an attempt may be cut short. -/
def Broken (w₀ : World υ) (fault : Fault) (w : World υ) : Prop :=
  Within w₀ w ∧ fault ≠ .badState

/-- The program keeps to the attempt. -/
abbrev Stays (w₀ : World υ) (program : Act υ α) : Prop :=
  Meets (Attempt w₀) program (fun _ => Attempt w₀) (Broken w₀)

theorem Attempt.refl (w : World υ) : Attempt w w := ⟨⟨rfl, rfl, [], by simp, rfl⟩, id⟩

theorem Within.attempts_eq (within : Within w₀ w) :
    attempts w.seen.events = attempts w₀.seen.events := by
  obtain ⟨new, routine, events⟩ := within.2.2
  rw [events]
  refine attempts_append fun event member => ?_
  have ordinary := routine event member
  cases event <;> first | rfl | cases ordinary

theorem Within.append (within : Within w₀ w) (destPort : w'.con.destPort = w.con.destPort)
    (laterPeers : w'.net.laterPeers = w.net.laterPeers) {new : List ConnEvent}
    (routine : ∀ event ∈ new, event.routine = true)
    (events : w'.seen.events = new ++ w.seen.events) : Within w₀ w' := by
  obtain ⟨old, each, earlier⟩ := within.2.2
  refine ⟨destPort.trans within.1, laterPeers.trans within.2.1, new ++ old, fun event member => ?_, ?_⟩
  · rcases List.mem_append.mp member with here | there
    · exact routine event here
    · exact each event there
  · rw [events, earlier, List.append_assoc]

theorem Sends.within (sends : Sends w w') (within : Within w₀ w) : Within w₀ w' := by
  obtain ⟨channel, _, output, -, con⟩ := sends.con
  obtain ⟨writes, net⟩ := sends.net
  obtain ⟨new, ofSend, events⟩ := sends.events
  refine within.append (by rw [con]) (by rw [net]) (fun event member => ?_) events
  have sent := ofSend event member
  cases event <;> first | rfl | cases sent

theorem Attempt.record (attempt : Attempt w₀ w) (event : ConnEvent)
    (routine : event.routine = true) :
    Attempt w₀ { w with seen := { w.seen with events := event :: w.seen.events } } := by
  refine ⟨attempt.1.append rfl rfl (fun other member => ?_) (List.singleton_append).symm, attempt.2⟩
  rw [List.mem_singleton.mp member]
  exact routine

theorem Attempt.broken (attempt : Attempt w₀ w) {fault : Fault} (other : fault ≠ .badState) :
    Broken w₀ fault w := ⟨attempt.1, other⟩

/-- Without a channel there is no flow of output. -/
theorem Attempt.of_absent (within : Within w₀ w) (absent : w.con.channel = none) :
    Attempt w₀ w := by
  refine ⟨within, fun _ present => ?_⟩
  rw [Present, absent] at present
  cases present

theorem record_stays {event : ConnEvent} (routine : event.routine = true) :
    Stays w₀ (record event : Act υ Unit) := by
  mvcgen [TcpConn.record]
  case vc1 w attempt _ => exact attempt.record event routine

section Nested

variable {self : Act υ Unit} (nested : Stays w₀ self) (σ : UserCode υ)

include nested

theorem closeChannel_stays : Stays w₀ (closeChannel self) := by
  mvcgen [closeChannel, getChannel, closeFd, record, modifyCon, modifyBase, nested]
  case vc1 w attempt ch channel _ _ _ _ =>
    have within : Within w₀ _ := (attempt.record (.channelClosed w.seen.draining) rfl).1
    exact ⟨within, fun flowing _ => attempt.2 flowing (by rw [Present, channel]; rfl)⟩
  case vc3 w attempt _ => exact attempt.broken (by decide)

omit nested in
/-- The send operations keep to the attempt. -/
theorem sends_stays {op : Op} (sending : op.sends = true) : Stays w₀ (runOp self op) := by
  refine meets_iff.mpr fun w attempt => ?_
  have both := (runOp_sends self sending w).and (runOp_sent self sending w)
  cases ran : (runOp self op).run w with
  | ok _ w' =>
      obtain ⟨sends, sent⟩ := both.ok ⟨.refl w, rfl⟩ ran
      exact ⟨sends.within attempt.1, fun flowing => sent.2 (attempt.2 flowing)⟩
  | error fault w' =>
      obtain ⟨sends, may, -⟩ := both.fault ⟨.refl w, rfl⟩ ran
      refine ⟨sends.within attempt.1, ?_⟩
      cases op with
      | sendMsg msg => rcases may with rfl | rfl <;> decide
      | _ => exact may ▸ (by decide)

theorem attempt_endures : Endures (fun _ => True) self (Attempt w₀) (Broken w₀) where
  sends _ sending _ := sends_stays sending
  closes _ := (closeChannel_stays nested).imp (fun _ start => start.1) (fun _ _ done => done)
    fun _ _ stop => stop
  tweaks w w' tweak seen attempt := by
    cases tweak <;> first | exact attempt | exact attempt.record _ rfl
  raises _ attempt := attempt.broken (by decide)

theorem callUser_stays (callback : Callback) : Stays w₀ (callUser σ self callback) :=
  (attempt_endures nested).callUser_kept σ fun _ _ _ _ => trivial

theorem callRead_stays : Stays w₀ (callRead σ self) := by
  have consumes : ∀ len, Stays w₀ (runOp self (.consumeInput len)) := fun _ => sends_stays rfl
  exact (attempt_endures nested).callRead_kept σ (fun _ _ _ _ _ => trivial)
    (fun _ _ attempt => attempt.record _ rfl) consumes
    ((closeChannel_stays nested).imp (fun _ start => start.1) (fun _ _ done => done) fun _ _ stop => stop)
    (fun _ attempt => attempt)
    (fun _ attempt => ⟨attempt.broken (by decide), attempt.broken (by decide)⟩)
    fun _ _ _ _ => trivial

theorem callState_stays : Stays w₀ (callState σ self) :=
  (attempt_endures nested).callState_kept σ (fun _ _ _ _ => trivial)
    (fun _ attempt _ => attempt.record _ rfl) fun _ attempt _ => attempt

theorem deleteChannel_stays : Stays w₀ (deleteChannel self) := by
  have closes := closeChannel_stays nested
  mvcgen [deleteChannel, modifyCon, closes]
  case vc2 w attempt _ => exact .of_absent attempt.1 rfl

theorem detachChannel_stays : Stays w₀ (detachChannel self) := by
  mvcgen [detachChannel, closeFd, record, modifyCon, modifyBase, nested]
  case vc1 w attempt _ _ _ => exact .of_absent attempt.1 rfl
  case vc2 w attempt _ _ _ _ _ _ _ =>
    have within : Within w₀ _ := (attempt.record (.channelClosed w.seen.draining) rfl).1
    exact .of_absent within rfl
  case vc3 w attempt _ _ _ _ _ => exact .of_absent attempt.1 rfl

omit nested in
theorem unregisterIdles_stays (ids : List IdleId) :
    Stays w₀ (unregisterIdles ids : Act υ Unit) := by
  have records : ∀ id, Stays w₀ (record (.unregistered id) : Act υ Unit) :=
    fun _ => record_stays rfl
  induction ids with
  | nil => mvcgen [unregisterIdles]
  | cons id rest ih =>
      mvcgen [unregisterIdles, handyUnregisterIdle, records, ih]
      case vc3 w attempt _ => exact attempt.broken (by decide)

omit nested in
theorem cancelTimeout_stays : Stays w₀ (cancelTimeout : Act υ Unit) := by
  mvcgen [cancelTimeout, modifyBase]
  case vc2 w attempt _ _ => exact attempt.broken (by rintro ⟨⟩)

theorem cleanup_stays : Stays w₀ (cleanup σ self) := by
  have records : Stays w₀ (record .reconnectScheduled : Act υ Unit) := record_stays rfl
  have reads := callRead_stays nested σ
  have cancels : Stays w₀ (cancelTimeout : Act υ Unit) := cancelTimeout_stays
  have calls := callState_stays nested σ
  have unregisters : ∀ ids, Stays w₀ (unregisterIdles ids : Act υ Unit) := unregisterIdles_stays
  have deletes := deleteChannel_stays nested
  have detaches := detachChannel_stays nested
  mvcgen [cleanup, drainInput, setDraining, cancels, reconnect, records, modifyCon, reads, calls,
    unregisters, deletes, detaches]

omit nested in
theorem poll_stays (fd : ℤ) : Stays w₀ (poll fd : Act υ Bool) := by
  mvcgen [poll]

omit nested in
theorem completeHandshake_stays : Stays w₀ (completeHandshake : Act υ Unit) := by
  have updates : ∀ fd live, Stays w₀ (record (.updated fd live) : Act υ Unit) :=
    fun _ _ => record_stays rfl
  have shaken : ∀ pending, Stays w₀ (record (.handshaken pending) : Act υ Unit) :=
    fun _ => record_stays rfl
  mvcgen [completeHandshake, enableReadWrite, getChannel, updateChannel, updates, shaken, modifyCon,
    modifyBase]
  case vc2 w attempt ch channel _ _ =>
    exact ⟨attempt.1, fun flowing _ => attempt.2 flowing (by rw [Present, channel]; rfl)⟩
  case vc4 w attempt => exact attempt.broken (by decide)
  case vc5 w attempt _ => exact attempt.broken (by decide)

theorem handleHandshake_stays :
    Meets (fun w => Attempt w₀ w ∧ w.con.state = .handshaking) (handleHandshake σ self)
      (fun _ => Attempt w₀) (Broken w₀) := by
  have polls : ∀ fd, Stays w₀ (poll fd : Act υ Bool) := poll_stays
  have completes : Stays w₀ (completeHandshake : Act υ Unit) := completeHandshake_stays
  have calls := callState_stays nested σ
  have cleans := cleanup_stays nested σ
  mvcgen [handleHandshake, getChannel, polls, completes, calls, cleans]
  case vc1 w start _ other => exact absurd start.2 other
  case vc2 w start _ _ _ _ => exact start.1
  case vc6 w start _ _ _ => exact start.1.broken (by decide)

omit nested in
theorem updateIdles_stays (ids : List IdleId) : Stays w₀ (updateIdles ids : Act υ Unit) := by
  induction ids with
  | nil => mvcgen [updateIdles]
  | cons id rest ih =>
      mvcgen [updateIdles, handyUpdateIdle, ih]
      case vc2 w attempt _ => exact attempt.broken (by decide)

theorem readConnected_stays : Stays w₀ (readConnected σ self) := by
  have cleans := cleanup_stays nested σ
  have updates : ∀ ids, Stays w₀ (updateIdles ids : Act υ Unit) := updateIdles_stays
  have reads := callRead_stays nested σ
  mvcgen [readConnected, getChannel, modifyCon, cleans, updates, reads]
  case vc6 w attempt _ => exact attempt.broken (by decide)

theorem handleReadOnce_stays : Stays w₀ (handleReadOnce σ self) := by
  have shakes := handleHandshake_stays nested σ
  have reads := readConnected_stays nested σ
  mvcgen [handleReadOnce, shakes, reads]

omit nested in
/-- Writing what was queued keeps to the attempt. -/
theorem flushes_stays {program : Act υ Unit} (moves : Moves Sends program)
    (flushes : ∀ w, Meets (fun w' => w' = w) program (fun _ => Flushed w) (FlushStops w)) :
    Stays w₀ program := by
  refine meets_iff.mpr fun w attempt => ?_
  have both := (moves w).and (flushes w)
  cases ran : program.run w with
  | ok _ w' =>
      obtain ⟨sends, flushed⟩ := both.ok ⟨.refl w, rfl⟩ ran
      exact ⟨sends.within attempt.1, fun flowing => flushed.2 (attempt.2 flowing)⟩
  | error fault w' =>
      obtain ⟨sends, stop, -⟩ := both.fault ⟨.refl w, rfl⟩ ran
      refine ⟨sends.within attempt.1, ?_⟩
      rcases stop with rfl | ⟨rfl, -⟩ <;> decide

theorem handleWrite_stays : Stays w₀ (handleWrite σ self) := by
  have shakes := handleHandshake_stays nested σ
  have calls := callUser_stays nested σ
  have flushes : Stays w₀ (flushOutput : Act υ Unit) :=
    flushes_stays flushOutput_sends flushOutput_flushed
  have stops : Stays w₀ (stopWriting : Act υ Unit) :=
    flushes_stays stopWriting_sends stopWriting_flushed
  mvcgen [handleWrite, shakes, flushes, calls, stops]

end Nested

theorem handleRead_stays (σ : UserCode υ) (depth : ℕ) : Stays w₀ (handleRead σ depth) := by
  induction depth with
  | zero =>
      mvcgen [handleRead]
      case vc1 w attempt => exact attempt.broken (by decide)
  | succ depth ih => exact handleReadOnce_stays ih σ

/-! ## Attaching a socket -/

/-- In `w` a socket has just been attached in the place of the one of `w₀`. -/
structure Renewed (port : ℤ) (w₀ w : World υ) : Prop where
  input : w.con.input = w₀.con.input
  output : w.con.output = w₀.con.output
  destPort : w.con.destPort = port
  peer : w.net.peer = w₀.net.laterPeers.headD []
  wire : w.seen.wire = []
  handed : w.seen.handed = w₀.con.output.contents
  events : w.seen.events = .attached :: w₀.seen.events

/-- A connection that was over in `w₀` is about to attach a socket. -/
structure Dialling (port : ℤ) (w₀ w : World υ) : Prop where
  channel : w.con.channel = none
  state : w.con.state = .handshaking
  destPort : w.con.destPort = port
  input : w.con.input = w₀.con.input
  output : w.con.output = w₀.con.output
  laterPeers : w.net.laterPeers = w₀.net.laterPeers
  seen : w.seen = w₀.seen

section Attaching

variable (self : Act υ Unit) (port : ℤ) (w₀ : World υ)

theorem attach_renews (fd : ℤ) : Meets (Dialling port w₀) (attach self fd)
    (fun _ => Renewed port w₀)
    fun fault w => w.con.destPort = port ∧ fault ≠ .nullChannel ∧
      (fault = .badState → port ≤ 0 ∧ w.seen = w₀.seen) := by
  have deletes : Meets (Dialling port w₀) (deleteChannel self) (fun _ => Dialling port w₀)
      fun _ _ => False := by
    refine meets_iff.mpr fun w start => ?_
    rw [deleteChannel_absent start.channel]
    exact start
  mvcgen [attach, modifyCon, record, deletes]
  case vc1 w start con _ bad =>
    refine ⟨start.destPort, (by rintro ⟨⟩), ?_, start.seen⟩
    rcases bad with client | server
    · rw [← start.destPort]
      exact client.1
    · exact absurd start.state server.2
  case vc2 w start _ _ _ _ =>
    exact ⟨start.channel, rfl, start.destPort, start.input, start.output, start.laterPeers, start.seen⟩
  case vc3 w start _ _ => exact ⟨start.destPort, (by rintro ⟨⟩), (by rintro ⟨⟩)⟩
  case vc4 w start _ _ _ _ _ =>
    exact ⟨start.input, start.output, start.destPort, by rw [← start.laterPeers], rfl,
      by rw [← start.output], by rw [← start.seen]⟩

/-- **`connect` attaches the next socket** to a connection that is over. -/
theorem connect_renews (timeout : ℤ) :
    Meets (fun w => w = w₀ ∧ Settled w) (connect self port timeout) (fun _ => Renewed port w₀)
      fun fault w => (w.con.destPort = port ∨ (w.con.destPort = w₀.con.destPort ∧ ¬ Final w₀)) ∧
        fault ≠ .nullChannel ∧ (fault = .badState → (port ≤ 0 ∨ ¬ Final w₀) ∧ w.seen = w₀.seen) := by
  have attaches := attach_renews self port w₀
  mvcgen [connect, attaches]
  case vc1 w start state _ used =>
    obtain ⟨rfl, -⟩ := start
    obtain ⟨not_new, not_closed, not_failed⟩ := used
    have in_use : ¬ Final w := by
      intro final
      cases current : w.con.state with
      | handshaking => exact final.1 current
      | connected => exact final.2 current
      | invalid => exact not_new current
      | closed => exact not_closed current
      | failed => exact not_failed current
    exact ⟨.inr ⟨rfl, in_use⟩, (by rintro ⟨⟩), .inr in_use, rfl⟩
  case vc2 w start state _ idle _ _ =>
    obtain ⟨rfl, live | gone⟩ := start
    · refine absurd ⟨?_, ?_⟩ live.2 <;> intro same <;> simp [state, same] at idle
    · exact ⟨gone.1, rfl, rfl, rfl, rfl, rfl, rfl⟩
  case vc3 w renewed _ =>
    exact ⟨renewed.input, renewed.output, renewed.destPort, renewed.peer, renewed.wire, renewed.handed,
      renewed.events⟩
  case vc5 w =>
    exact fun same other stop =>
      ⟨.inl same, other, fun bad => ⟨.inl (stop bad).1, (stop bad).2⟩⟩

end Attaching

/-! ## Events -/

/-- The event calls `connect` for a reconnect. -/
def Redials (event : Event) (w : World υ) : Prop :=
  (event = .timer ∧ ∃ key action fired timers,
    w.base.timers.due w.base.timers.clock = some (key, action) ∧
      w.base.timers.fire key action = .ok (fired, timers) ∧ fired.task = .reconnect) ∨
    (event = .task ∧ w.base.tasks.head? = some .reconnect)

/-- The attempt of `w₀` goes on, or it was ended by a reconnect. -/
def Proceeds (w₀ : World υ) (redials : Prop) (w : World υ) : Prop :=
  Attempt w₀ w ∨ (redials ∧ Renewed w₀.con.destPort w₀ w)

/-- A fatal check is reached by a reconnect only, when the port is not that of a client or
the connection is in use. -/
def Misdials (w₀ : World υ) (redials : Prop) (fault : Fault) (w : World υ) : Prop :=
  w.con.destPort = w₀.con.destPort ∧
    (fault = .badState → redials ∧ (w₀.con.destPort ≤ 0 ∨ ¬ Final w₀) ∧ w.seen = w₀.seen)

theorem Proceeds.imp {redials redials' : Prop} (implies : redials → redials')
    (proceeds : Proceeds w₀ redials w) : Proceeds w₀ redials' w :=
  Or.imp_right (fun renewed => ⟨implies renewed.1, renewed.2⟩) proceeds

theorem Misdials.imp {redials redials' : Prop} (implies : redials → redials') {fault : Fault}
    (misdials : Misdials w₀ redials fault w) : Misdials w₀ redials' fault w :=
  ⟨misdials.1, fun bad => ⟨implies (misdials.2 bad).1, (misdials.2 bad).2⟩⟩

/-- A program that keeps to the attempt lets it proceed. -/
theorem Stays.proceeds {program : Act υ Unit} (stays : Stays w₀ program) (redials : Prop)
    {before : World υ → Prop} (start : ∀ w, before w → ∃ base, w = { w₀ with base := base }) :
    Meets before program (fun _ => Proceeds w₀ redials) (Misdials w₀ redials) := by
  refine stays.imp (fun w holds => ?_) (fun _ _ attempt => .inl attempt)
    fun _ _ broken => ⟨broken.1.1, fun bad => absurd bad broken.2⟩
  obtain ⟨base, rfl⟩ := start w holds
  exact Attempt.refl w₀

section Events

variable (σ : UserCode υ) (w₀ : World υ)

/-- A task of the event base keeps to the attempt, or it is a reconnect and ends it. -/
theorem runTask_proceeds (task : BaseTask) :
    Meets (fun w => (∃ base, w = { w₀ with base := base }) ∧ Settled w) (runTask σ task)
      (fun _ => Proceeds w₀ (task = .reconnect)) (Misdials w₀ (task = .reconnect)) := by
  have nested : Stays w₀ (onClose σ) := handleRead_stays σ maxNesting
  have shut := closeChannel_stays nested
  cases task with
  | closeChannel =>
      have stays : Stays w₀ (runTask σ .closeChannel) := by mvcgen [runTask, shut]
      exact stays.proceeds _ fun _ start => start.1
  | connectTimeout =>
      have stays : Stays w₀ (runTask σ .connectTimeout) := by mvcgen [runTask, shut]
      exact stays.proceeds _ fun _ start => start.1
  | callIdles =>
      have stays : Stays w₀ (runTask σ .callIdles) := by mvcgen [runTask]
      exact stays.proceeds _ fun _ start => start.1
  | reconnect =>
      refine meets_iff.mpr ?_
      rintro w ⟨⟨base, rfl⟩, settled⟩
      have unfolded : (runTask σ .reconnect).run { w₀ with base := base } =
          (connect (onClose σ) w₀.con.destPort w₀.con.connectTimeout).run
            { w₀ with base := { base with reconnectConns := false } } := rfl
      have renews := connect_renews (onClose σ) w₀.con.destPort
        { w₀ with base := { base with reconnectConns := false } } w₀.con.connectTimeout
      rw [unfolded]
      cases ran : (connect (onClose σ) w₀.con.destPort w₀.con.connectTimeout).run
          { w₀ with base := { base with reconnectConns := false } } with
      | ok _ w' =>
          have renewed := renews.ok ⟨rfl, settled⟩ ran
          exact .inr ⟨rfl, renewed.input, renewed.output, renewed.destPort, renewed.peer,
            renewed.wire, renewed.handed, renewed.events⟩
      | error fault w' =>
          obtain ⟨same, -, stop⟩ := renews.fault ⟨rfl, settled⟩ ran
          exact ⟨same.elim id And.left, fun bad => ⟨rfl, stop bad⟩⟩

theorem timer_proceeds : Meets (fun w => w = w₀ ∧ Settled w) (handleEvent σ .timer)
    (fun _ => Proceeds w₀ (Redials .timer w₀)) (Misdials w₀ (Redials .timer w₀)) := by
  refine meets_iff.mpr ?_
  rintro w ⟨rfl, settled⟩
  cases next : w.base.timers.due w.base.timers.clock with
  | none =>
      have ran : (handleEvent σ .timer).run w = .ok () w := by simp [handleEvent, next]
      rw [ran]
      exact .inl (.refl w)
  | some entry =>
      obtain ⟨key, action⟩ := entry
      cases fires : w.base.timers.fire key action with
      | error fault =>
          have ran : (handleEvent σ .timer).run w = .error (.timer fault) w := by
            simp [handleEvent, next, fires]
          rw [ran]
          exact ⟨rfl, (by rintro ⟨⟩)⟩
      | ok result =>
          obtain ⟨fired, timers⟩ := result
          have ran : (handleEvent σ .timer).run w = (runTask σ fired.task).run
              { w with base := { w.base with timers := timers } } := by
            simp [handleEvent, next, fires, modifyBase]
          have redials : fired.task = .reconnect → Redials .timer w := fun reconnects =>
            .inl ⟨rfl, key, action, fired, timers, next, fires, reconnects⟩
          rw [ran]
          exact meets_iff.mp ((runTask_proceeds σ w fired.task).imp (fun _ start => start)
            (fun _ _ => Proceeds.imp redials) fun _ _ => Misdials.imp redials) _ ⟨⟨_, rfl⟩, settled⟩

theorem task_proceeds : Meets (fun w => w = w₀ ∧ Settled w) (handleEvent σ .task)
    (fun _ => Proceeds w₀ (Redials .task w₀)) (Misdials w₀ (Redials .task w₀)) := by
  refine meets_iff.mpr ?_
  rintro w ⟨rfl, settled⟩
  cases queue : w.base.tasks with
  | nil =>
      have ran : (handleEvent σ .task).run w = .ok () w := by simp [handleEvent, queue]
      rw [ran]
      exact .inl (.refl w)
  | cons task tasks =>
      have ran : (handleEvent σ .task).run w = (runTask σ task).run
          { w with base := { w.base with tasks := tasks } } := by
        simp [handleEvent, queue, modifyBase]
      have redials : task = .reconnect → Redials .task w := fun reconnects =>
        .inr ⟨rfl, by rw [queue, reconnects]; rfl⟩
      rw [ran]
      exact meets_iff.mp ((runTask_proceeds σ w task).imp (fun _ start => start)
        (fun _ _ => Proceeds.imp redials) fun _ _ => Misdials.imp redials) _ ⟨⟨_, rfl⟩, settled⟩

/-- **Every event keeps to the attempt**, except for a reconnect, which ends it, and for the
exit of the loop. -/
theorem handleEvent_proceeds {event : Event} (looping : event ≠ .loopExit) :
    Meets (fun w => w = w₀ ∧ Settled w) (handleEvent σ event)
      (fun _ => Proceeds w₀ (Redials event w₀)) (Misdials w₀ (Redials event w₀)) := by
  have nested : Stays w₀ (onClose σ) := handleRead_stays σ maxNesting
  have shut := closeChannel_stays nested
  have same : ∀ w, w = w₀ ∧ Settled w → ∃ base, w = { w₀ with base := base } :=
    fun w start => ⟨w.base, by rw [start.1]⟩
  cases event with
  | readable =>
      have reads : Stays w₀ (handleRead σ (maxNesting + 1)) := handleRead_stays σ _
      have stays : Stays w₀ (handleEvent σ .readable) := by mvcgen [handleEvent, reads]
      exact stays.proceeds _ same
  | writable =>
      have writes := handleWrite_stays nested σ
      have stays : Stays w₀ (handleEvent σ .writable) := by mvcgen [handleEvent, writes]
      exact stays.proceeds _ same
  | timer => exact timer_proceeds σ w₀
  | task => exact task_proceeds σ w₀
  | call op =>
      have stays : Stays w₀ (handleEvent σ (.call op)) := (attempt_endures nested).runOp_kept trivial
      exact stays.proceeds _ same
  | elapse milli =>
      have stays : Stays w₀ (handleEvent σ (.elapse milli)) := by mvcgen [handleEvent, modifyBase]
      exact stays.proceeds _ same
  | loopExit => exact absurd rfl looping
  | destroyPoller =>
      have stays : Stays w₀ (handleEvent σ .destroyPoller) := by mvcgen [handleEvent, shut]
      exact stays.proceeds _ same

/-- The event base when its loop has exited. -/
def exiting (w : World υ) : World υ :=
  { w with
    base := { w.base with timers := w.base.timers.clear, idleConns := .empty }
    seen := { w.seen with events := .exitedWaiting :: w.seen.events } }

/-- At the exit of the loop the connection is cleaned up, if it waits for its reconnect. -/
theorem loopExit_run :
    (w₀.base.exited = true ∧ w₀.base.reconnectConns = true ∧
      (handleEvent σ .loopExit).run w₀ = (cleanup σ (onClose σ)).run (exiting w₀)) ∨
    ∃ base, (handleEvent σ .loopExit).run w₀ = .ok () { w₀ with base := base } := by
  by_cases exited : w₀.base.exited = true
  · by_cases waiting : w₀.base.reconnectConns = true
    · refine .inl ⟨exited, waiting, ?_⟩
      simp [handleEvent, modifyBase, record, exited, waiting, exiting]
    · refine .inr ⟨{ w₀.base with timers := w₀.base.timers.clear, idleConns := .empty }, ?_⟩
      simp [handleEvent, modifyBase, exited, waiting]
  · exact .inr ⟨w₀.base, by simp [handleEvent, exited]⟩

/-- **The exit of the loop** attaches no socket either. -/
theorem loopExit_stays :
    Meets (fun w => w = w₀) (handleEvent σ .loopExit)
      (fun _ w => Attempt w₀ w ∨ Attempt (exiting w₀) w) (Broken (exiting w₀)) := by
  have cleans : Stays (exiting w₀) (cleanup σ (onClose σ)) :=
    cleanup_stays (handleRead_stays σ maxNesting) σ
  refine meets_iff.mpr ?_
  rintro w rfl
  rcases loopExit_run σ w with ⟨-, -, ran⟩ | ⟨base, ran⟩
  · rw [ran]
    exact meets_iff.mp (cleans.imp (fun _ start => start) (fun _ _ attempt => .inr attempt)
      fun _ _ broken => broken) _ (.refl _)
  · rw [ran]
    exact .inl (Attempt.refl w)

end Events

end TcpConn

end Handy
