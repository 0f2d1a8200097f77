import Handy.Conn.Attempt
import Handy.Conn.Finalise

/-!
# A client that reconnects

The fatal checks of `connect` and `attach` ask for a connection that is over and for the port
of a client. A reconnect finds both, as long as only one reconnect is scheduled for each
socket (`redial_final`); once the loop has exited none is scheduled any more (`Retired`).

The port comes as a `short`. For ports from 32768 on the first `connect` already reaches the
check (`client_checks_pass_iff`).
-/

set_option autoImplicit false
set_option mvcgen.warning false

namespace Handy

/-- The value of an integer stored in a `short`. -/
def toInt16 (value : ℤ) : ℤ := value.bmod (2 ^ 16)

namespace TcpConn

variable {υ : Type} {σ : UserCode υ} {w w' w₀ : World υ}

/-! ## No reconnect after the loop has exited -/

/-- The loop has exited and no reconnect is due. -/
def Retired (w : World υ) : Prop :=
  w.base.exited = true ∧ w.base.timers.pending .reconnect = 0 ∧
    w.base.timers.NeverRepeats .reconnect ∧ ∀ task ∈ w.base.tasks, task ≠ .reconnect

theorem Plain.retired (plain : Plain w w') (exited : w.base.exited = true → w'.base.exited = true)
    (retired : Retired w) : Retired w' := by
  obtain ⟨ended, none_pending, never, none_queued⟩ := retired
  exact ⟨exited ended, Nat.le_zero.mp (none_pending ▸ plain.pending), plain.repeats never,
    plain.tasks none_queued⟩

/-- After the exit no timer is made for idle connections either. -/
theorem registerIdle_exited {base : EventBase} (exited : base.exited = true) (idle : ℤ) :
    (base.registerIdle idle).2.exited = true := by
  have kept : (base.runAfter 1000 .callIdles 1000).2 = base := by
    have exit : base.timers.exit = true := exited
    simp [EventBase.runAfter, Timers.runAfter, Timers.runAt, exit]
  unfold EventBase.registerIdle
  split_ifs with enabled
  · exact exited
  · rw [kept]
    exact exited

section Nested

variable {self : Act υ Unit} (nested : Leads Retired self Retired) (σ : UserCode υ)

omit nested in
theorem Sends.retired (sends : Sends w w') (retired : Retired w) : Retired w' := by
  refine (Plain.of_sends sends).retired (fun exited => ?_) retired
  obtain ⟨poller, base⟩ := sends.base
  rw [base]
  exact exited

include nested

theorem closeChannel_retired : Leads Retired (closeChannel self) Retired := by
  mvcgen [closeChannel, getChannel, closeFd, record, modifyCon, modifyBase, nested]

theorem retired_withstands : Withstands self Retired fun _ _ => True where
  sends op sending := ((runOp_sends self sending).keeps Sends.refl
    fun w w' retired sends => sends.retired retired).imp (fun _ start => start)
      (fun _ _ done => done) fun _ _ _ => trivial
  closes := closeChannel_retired nested
  tweaks w w' tweak retired := by
    refine (Plain.tweaked tweak).retired (fun exited => ?_) retired
    cases tweak with
    | exit => rfl
    | addIdle idle _ => exact registerIdle_exited exited idle
    | _ => exact exited
  stops _ _ _ _ _ := trivial

omit nested in
theorem cancelTimeout_retired : Leads Retired (cancelTimeout : Act υ Unit) Retired := by
  mvcgen [cancelTimeout, modifyBase]
  case vc1 w retired removed timers ran _ =>
    obtain ⟨exited, none_pending, never, none_queued⟩ := retired
    have fewer : timers.pending .reconnect ≤ w.base.timers.pending .reconnect := Timers.pending_cancel ran
    exact ⟨(Timers.exit_cancel ran).trans exited, Nat.le_zero.mp (none_pending ▸ fewer),
      never.cancel ran, none_queued⟩

omit nested in
theorem unregisterIdles_retired (ids : List IdleId) :
    Leads Retired (unregisterIdles ids : Act υ Unit) Retired := by
  induction ids with
  | nil => mvcgen [unregisterIdles]
  | cons id rest ih =>
      mvcgen [unregisterIdles, handyUnregisterIdle, record, ih]
      case vc1 w retired _ base found _ =>
        obtain ⟨idleConns, rfl⟩ := EventBase.unregisterIdle_frame found
        exact retired

theorem cleanup_retired : Leads Retired (cleanup σ self) Retired := by
  have reads := (retired_withstands nested).callRead_kept σ
  have calls : Leads Retired (callState σ self) Retired :=
    (retired_withstands nested).callState_kept σ (fun _ retired _ => retired)
      fun _ retired _ => retired
  have cancels : Leads Retired (cancelTimeout : Act υ Unit) Retired := cancelTimeout_retired
  have unregisters : ∀ ids, Leads Retired (unregisterIdles ids : Act υ Unit) Retired :=
    unregisterIdles_retired
  have detaches : Leads Retired (detachChannel self) Retired := by
    mvcgen [detachChannel, closeFd, record, modifyCon, modifyBase, nested]
  have reconnects : Leads (fun w => Retired w ∧ w.base.exited = false) (reconnect self) Retired := by
    refine meets_iff.mpr fun w start => ?_
    rw [start.1.1] at start
    cases start.2
  mvcgen [cleanup, drainInput, setDraining, modifyCon, cancels, reads, calls, reconnects, unregisters,
    detaches]
  case vc4 w retired going => exact ⟨retired, going.2⟩
  case vc9 w retired going => exact ⟨retired, going.2⟩

theorem handleHandshake_retired : Leads Retired (handleHandshake σ self) Retired := by
  have cleans := cleanup_retired nested σ
  have calls : Leads Retired (callState σ self) Retired :=
    (retired_withstands nested).callState_kept σ (fun _ retired _ => retired)
      fun _ retired _ => retired
  mvcgen [handleHandshake, getChannel, poll, completeHandshake, enableReadWrite, updateChannel, record,
    modifyCon, modifyBase, calls, cleans]

omit nested in
theorem updateIdles_retired (ids : List IdleId) :
    Leads Retired (updateIdles ids : Act υ Unit) Retired := by
  induction ids with
  | nil => mvcgen [updateIdles]
  | cons id rest ih =>
      mvcgen [updateIdles, handyUpdateIdle, ih]
      case vc1 w retired base found _ =>
        obtain ⟨idleConns, rfl⟩ := EventBase.updateIdle_frame found
        exact retired

theorem handleReadOnce_retired : Leads Retired (handleReadOnce σ self) Retired := by
  have shakes := handleHandshake_retired nested σ
  have cleans := cleanup_retired nested σ
  have updates : ∀ ids, Leads Retired (updateIdles ids : Act υ Unit) Retired := updateIdles_retired
  have reads := (retired_withstands nested).callRead_kept σ
  mvcgen [handleReadOnce, readConnected, getChannel, modifyCon, shakes, cleans, updates, reads]

omit nested in
theorem retired_of_sends {program : Act υ Unit} (moves : Moves Sends program) :
    Leads Retired program Retired :=
  (moves.keeps Sends.refl fun _ _ retired sends => sends.retired retired).imp (fun _ start => start)
    (fun _ _ done => done) fun _ _ _ => trivial

theorem handleWrite_retired : Leads Retired (handleWrite σ self) Retired := by
  have shakes := handleHandshake_retired nested σ
  have calls := (retired_withstands nested).callUser_kept σ
  have flushes : Leads Retired (flushOutput : Act υ Unit) Retired := retired_of_sends flushOutput_sends
  have stops : Leads Retired (stopWriting : Act υ Unit) Retired := retired_of_sends stopWriting_sends
  mvcgen [handleWrite, shakes, flushes, calls, stops]

end Nested

theorem handleRead_retired (σ : UserCode υ) (depth : ℕ) :
    Leads Retired (handleRead σ depth) Retired := by
  induction depth with
  | zero => mvcgen [handleRead]
  | succ depth ih => exact handleReadOnce_retired ih σ

/-- A reconnect that is not due is not made. -/
theorem Retired.not_redials (retired : Retired w) {event : Event} : ¬ Redials event w := by
  obtain ⟨-, none_pending, never, none_queued⟩ := retired
  rintro (⟨-, key, action, fired, timers, next, fires, reconnects⟩ | ⟨-, first⟩)
  · have fewer := (never.fire next fires).1
    rw [if_pos reconnects] at fewer
    omega
  · exact none_queued _ (List.mem_of_mem_head? first) rfl

/-- **After the exit of the loop no event makes a reconnect.** -/
theorem handleEvent_retired (σ : UserCode υ) (event : Event) :
    Leads Retired (handleEvent σ event) Retired := by
  have nested : Leads Retired (onClose σ) Retired := handleRead_retired σ maxNesting
  have shut := closeChannel_retired nested
  have runs : ∀ task, Leads (fun w => Retired w ∧ task ≠ .reconnect) (runTask σ task) Retired := by
    intro task
    refine meets_iff.mpr fun w start => ?_
    have keeps : Leads Retired (runTask σ task) Retired := by
      cases task with
      | closeChannel => mvcgen [runTask, shut]
      | connectTimeout => mvcgen [runTask, shut]
      | reconnect => exact absurd rfl start.2
      | callIdles => mvcgen [runTask]
    exact meets_iff.mp keeps w start.1
  cases event with
  | readable =>
      have reads : Leads Retired (handleRead σ (maxNesting + 1)) Retired := handleRead_retired σ _
      mvcgen [handleEvent, reads]
  | writable =>
      have writes := handleWrite_retired nested σ
      mvcgen [handleEvent, writes]
  | timer =>
      mvcgen [handleEvent, modifyBase, runs]
      case vc3 w retired _ key action next fired timers fires _ =>
        obtain ⟨exited, none_pending, never, none_queued⟩ := retired
        obtain ⟨fewer, still⟩ := never.fire next fires
        rw [none_pending] at fewer
        refine ⟨⟨(Timers.exit_fire fires).trans exited, ?_, still, none_queued⟩, fun reconnects => ?_⟩
        · show timers.pending .reconnect = 0
          omega
        · rw [if_pos reconnects] at fewer
          omega
  | task =>
      mvcgen [handleEvent, modifyBase, runs]
      case vc2 w retired task tasks queue _ =>
        obtain ⟨exited, none_pending, never, none_queued⟩ := retired
        rw [queue] at none_queued
        exact ⟨⟨exited, none_pending, never, fun other member =>
          none_queued other (List.mem_cons_of_mem _ member)⟩, none_queued task List.mem_cons_self⟩
  | call op => exact (retired_withstands nested).runOp_kept op
  | elapse milli => mvcgen [handleEvent, modifyBase]
  | loopExit =>
      have cleans := cleanup_retired nested σ
      mvcgen [handleEvent, modifyBase, record, cleans]
      case vc1 w retired exited _ _ _ =>
        exact ⟨exited, rfl, Timers.neverRepeats_clear _ _, retired.2.2.2⟩
      case vc2 w retired exited _ _ =>
        exact ⟨exited, rfl, Timers.neverRepeats_clear _ _, retired.2.2.2⟩
  | destroyPoller => mvcgen [handleEvent, shut]

/-! ## A client's run -/

/-- `TcpConn::isClient`. -/
def isClient (con : TcpConn) : Bool := 0 < con.destPort

/-- No open channel was closed within the read callback of `cleanup`. -/
def Calm (w : World υ) : Prop := .channelClosed true ∉ w.seen.events

/-- What holds between the events of a client's run. -/
structure Dependable (w : World υ) : Prop where
  settled : Settled w
  client : isClient w.con = true
  accounted : Accounted w
  scheduled : Calm w → Orderly w ∨ Retired w

/-- What holds when a client's run has stopped. -/
def Unchecked (fault : Fault) (w : World υ) : Prop :=
  isClient w.con = true ∧ (Calm w → fault ≠ .badState)

theorem Calm.of_append {new : List ConnEvent} (events : w'.seen.events = new ++ w.seen.events)
    (calm : Calm w') : Calm w := fun member =>
  calm (by rw [events]; exact List.mem_append_right _ member)

theorem Orderly.append (orderly : Orderly w) (calm : Calm w') {new : List ConnEvent}
    (events : w'.seen.events = new ++ w.seen.events) (looping : .exitedWaiting ∉ new) :
    Orderly w' := by
  rw [Orderly, events, List.any_append, Bool.or_eq_false_iff]
  refine ⟨List.any_eq_false.mpr fun event member => ?_, orderly⟩
  cases event with
  | channelClosed draining =>
      cases draining with
      | false => simp [ConnEvent.disorders]
      | true => exact absurd (by rw [events]; exact List.mem_append_left _ member) calm
  | exitedWaiting => exact absurd member looping
  | _ => simp [ConnEvent.disorders]

/-- **A reconnect finds a connection that is over.** -/
theorem Accounted.redial_final (accounted : Accounted w) (orderly : Orderly w) {event : Event}
    (redials : Redials event w) : Final w := by
  obtain ⟨ledger, -, untouched⟩ := accounted orderly
  by_contra used
  have none_pending := (untouched used).1.pending
  rcases redials with ⟨-, key, action, fired, timers, next, fires, reconnects⟩ | ⟨-, first⟩
  · have fewer := (ledger.repeats.fire next fires).1
    rw [if_pos reconnects] at fewer
    omega
  · exact ledger.tasks _ (List.mem_of_mem_head? first) rfl

/-- What is scheduled after an event that attaches no socket or the next one. -/
theorem Dependable.scheduled_append (dependable : Dependable w) {new : List ConnEvent}
    (events : w'.seen.events = new ++ w.seen.events) (looping : .exitedWaiting ∉ new)
    (retires : Retired w → Retired w') (calm : Calm w') : Orderly w' ∨ Retired w' :=
  (dependable.scheduled (calm.of_append events)).imp
    (fun orderly => orderly.append calm events looping) retires

theorem Within.looping {new : List ConnEvent} (routine : ∀ event ∈ new, event.routine = true) :
    .exitedWaiting ∉ new := fun member => Bool.noConfusion (routine _ member)

/-- An event of the running loop. -/
theorem handleEvent_dependable {event : Event} (looping : event ≠ .loopExit) :
    Meets Dependable (handleEvent σ event) (fun _ => Dependable) Unchecked := by
  refine meets_iff.mpr fun w dependable => ?_
  have proceeds := handleEvent_proceeds σ w looping
  cases ran : (handleEvent σ event).run w with
  | ok _ w' =>
      have settled := (handleEvent_settled σ event).ok dependable.settled ran
      have accounted := (handleEvent_accounts σ event).ok
        ⟨dependable.accounted, dependable.settled⟩ ran
      have retires : Retired w → Retired w' := fun retired =>
        (handleEvent_retired σ event).ok retired ran
      rcases proceeds.ok ⟨rfl, dependable.settled⟩ ran with attempt | renewed
      · obtain ⟨new, routine, events⟩ := attempt.1.2.2
        refine ⟨settled, ?_, accounted,
          dependable.scheduled_append events (Within.looping routine) retires⟩
        rw [isClient, attempt.1.1]
        exact dependable.client
      · refine ⟨settled, ?_, accounted, dependable.scheduled_append
          (show w'.seen.events = [.attached] ++ w.seen.events from renewed.2.events) (by simp) retires⟩
        rw [isClient, renewed.2.destPort]
        exact dependable.client
  | error fault w' =>
      obtain ⟨same, stop⟩ := proceeds.fault ⟨rfl, dependable.settled⟩ ran
      refine ⟨by rw [isClient, same]; exact dependable.client, fun calm bad => ?_⟩
      obtain ⟨redials, wrong, seen⟩ := stop bad
      rw [Calm, seen] at calm
      rcases wrong with not_client | used
      · exact absurd (of_decide_eq_true dependable.client) (not_lt.mpr not_client)
      · rcases dependable.scheduled calm with orderly | retired
        · exact used (dependable.accounted.redial_final orderly redials)
        · exact retired.not_redials redials

/-- The exit of the loop. -/
theorem loopExit_dependable :
    Meets Dependable (handleEvent σ .loopExit) (fun _ => Dependable) Unchecked := by
  refine meets_iff.mpr fun w dependable => ?_
  have stays := loopExit_stays σ w
  cases ran : (handleEvent σ .loopExit).run w with
  | ok _ w' =>
      have settled := (handleEvent_settled σ .loopExit).ok dependable.settled ran
      have accounted := (handleEvent_accounts σ .loopExit).ok
        ⟨dependable.accounted, dependable.settled⟩ ran
      have retires : Retired w → Retired w' := fun retired =>
        (handleEvent_retired σ .loopExit).ok retired ran
      rcases loopExit_run σ w with ⟨exited, -, cleans⟩ | ⟨base, unchanged⟩
      · have attempt : Attempt (exiting w) w' := by
          rw [cleans] at ran
          exact (cleanup_stays (handleRead_stays σ maxNesting) σ).ok (.refl _) ran
        obtain ⟨new, -, events⟩ := attempt.1.2.2
        refine ⟨settled, by rw [isClient, attempt.1.1]; exact dependable.client, accounted,
          fun calm => .inr ?_⟩
        have before : Calm (exiting w) := calm.of_append events
        have calm_before : Calm w := before.of_append
          (show (exiting w).seen.events = [.exitedWaiting] ++ w.seen.events from rfl)
        rcases dependable.scheduled calm_before with orderly | retired
        · have start : Retired (exiting w) := ⟨exited, rfl, Timers.neverRepeats_clear _ _,
            (dependable.accounted orderly).1.tasks⟩
          rw [cleans] at ran
          exact (cleanup_retired (handleRead_retired σ maxNesting) σ).ok start ran
        · exact retires retired
      · rw [unchanged] at ran
        cases ran
        exact ⟨settled, dependable.client, accounted, dependable.scheduled_append
          (show w.seen.events = [] ++ w.seen.events from rfl) List.not_mem_nil retires⟩
  | error fault w' =>
      have broken := stays.fault rfl ran
      refine ⟨?_, fun _ => broken.2⟩
      rw [isClient, broken.1.1]
      exact dependable.client

/-! ## The port -/

/-- `TcpConn::createConnection` to a port: the port is passed as a `short`. -/
def createConnection (self : Act υ Unit) (port : ℕ) (timeout : ℤ) : Act υ Unit :=
  connect self (toInt16 port) timeout

/-- The configuration after `createConnection`, or at the fault that stops it. -/
inductive Created (σ : UserCode υ) (port : ℕ) (timeout : ℤ) (w : World υ) : ConnConfig υ → Prop where
  | done {w' : World υ} (ran : (createConnection (onClose σ) port timeout).run w = .ok () w') :
      Created σ port timeout w ⟨w', none⟩
  | fault {w' : World υ} {fault : Fault}
      (ran : (createConnection (onClose σ) port timeout).run w = .error fault w') :
      Created σ port timeout w ⟨w', some fault⟩

theorem Created.dependable {port : ℕ} {timeout : ℤ} {c : ConnConfig υ} (start : New w)
    (positive : 0 < toInt16 port) (created : Created σ port timeout w c) :
    c.Holds Dependable Unchecked := by
  have renews := connect_renews (onClose σ) (toInt16 port) w timeout
  have settled : Settled w := .inr start.gone
  cases created with
  | done ran =>
      have renewed := renews.ok ⟨rfl, settled⟩ ran
      have opened : Opened σ _ := .connect (toInt16 port) timeout start ran
      refine ⟨opened.steady.2, ?_, opened.accounted, fun _ => .inl ?_⟩
      · rw [isClient, renewed.destPort]
        exact decide_eq_true positive
      · rw [Orderly, renewed.events, start.seen]
        rfl
  | fault ran =>
      obtain ⟨dest, -, stop⟩ := renews.fault ⟨rfl, settled⟩ ran
      refine ⟨?_, fun _ bad => ?_⟩
      · rcases dest with same | used
        · rw [isClient, same]
          exact decide_eq_true positive
        · exact absurd start.gone.2 used.2
      · rcases (stop bad).1 with low | used
        · exact absurd positive (not_lt.mpr low)
        · exact used start.gone.2

/-- With a port that is not positive the check of `attach` is reached. -/
theorem connect_fatal (self : Act υ Unit) {port : ℤ} (timeout : ℤ) (start : New w)
    (low : port ≤ 0) : ∃ w', (connect self port timeout).run w = .error .badState w' ∧
      Calm w' ∧ w'.con.destPort = port := by
  have new : w.con.state = .invalid := by rw [start.con]; rfl
  refine ⟨{ w with
    con := { w.con with
      destPort := port
      connectTimeout := timeout
      connectedTime := w.base.timers.clock
      state := .handshaking }
    net := { w.net with nextFd := w.net.nextFd + 1 } }, ?_, ?_, rfl⟩
  · simp [connect, attach, new, low]
  · rw [Calm, start.seen]
    exact List.not_mem_nil

theorem toInt16_of_small {port : ℕ} (small : port ≤ 32767) : toInt16 port = port := by
  unfold toInt16
  rw [Int.bmod_eq_of_le (by omega) (by omega)]

theorem toInt16_of_large {port : ℕ} (large : 32767 < port) (upper : port ≤ 65535) :
    toInt16 port = port - 65536 := by
  unfold toInt16
  rw [Int.bmod_def]
  split_ifs <;> omega

/-- **The fatal checks of a client pass exactly for ports up to 32767**: for every port from 1
to 65535 and every run that follows `createConnection`, in which no open channel is closed
within the read callback of `cleanup`, none of the checks is reached and `isClient` holds, if
and only if the port is at most 32767. -/
theorem client_checks_pass_iff (σ : UserCode υ) {port : ℕ} (timeout : ℤ) (start : New w)
    (lower : 1 ≤ port) (upper : port ≤ 65535) :
    (∀ c₀ events c, Created σ port timeout w c₀ → LabelledRun (ConnStep σ) c₀ events c →
      .channelClosed true ∉ c.world.seen.events →
      c.stopped ≠ some .badState ∧ isClient c.world.con = true) ↔ port ≤ 32767 := by
  refine ⟨fun safe => ?_, fun small c₀ events c created run calm => ?_⟩
  · by_contra large
    have wrapped := toInt16_of_large (not_le.mp large) upper
    have low : toInt16 port ≤ 0 := by omega
    obtain ⟨w', ran, calm, -⟩ := connect_fatal (onClose σ) timeout start low
    exact (safe _ [] _ (.fault ran) (.refl _) calm).1 rfl
  · have positive : 0 < toInt16 port := by
      rw [toInt16_of_small small]
      omega
    have keeps : ∀ event, True → Meets Dependable (handleEvent σ event) (fun _ => Dependable)
        Unchecked := by
      intro event _
      by_cases looping : event = .loopExit
      · subst looping
        exact loopExit_dependable
      · exact handleEvent_dependable looping
    have final := (created.dependable start positive).of_run keeps run fun _ _ => trivial
    obtain ⟨world, stopped⟩ := c
    cases stopped with
    | none =>
        have dependable : Dependable world := final
        exact ⟨nofun, dependable.client⟩
    | some fault =>
        have unchecked : Unchecked fault world := final
        exact ⟨fun bad => unchecked.2 calm (Option.some.inj bad), unchecked.1⟩

end TcpConn

/-- A client without callbacks. -/
def plainClient : World Unit :=
  TcpConn.newWorld (.new none false false none 0)
    { writes := [], reads := [], polls := [], peer := [], laterPeers := [], nextFd := 7 } ()

theorem plainClient_new : TcpConn.New plainClient := TcpConn.newWorld_new none false false none 0 _ ()

theorem client_checks_pass_iff_http : toInt16 (80 : ℕ) = 80 ∧
    ∀ c₀ events c, TcpConn.Created (fun _ _ => ([], ())) 80 0 plainClient c₀ →
      LabelledRun (ConnStep fun _ _ => ([], ())) c₀ events c →
      .channelClosed true ∉ c.world.seen.events →
      c.stopped ≠ some .badState ∧ TcpConn.isClient c.world.con = true :=
  ⟨by decide,
    (TcpConn.client_checks_pass_iff _ 0 plainClient_new (by decide) (by decide)).mpr (by decide)⟩

/-- **Port 32768 is fatal.** -/
theorem high_port_is_fatal : ∃ c : ConnConfig Unit,
    TcpConn.Created (fun _ _ => ([], ())) 32768 0 plainClient c ∧ c.stopped = some .badState ∧
      TcpConn.isClient c.world.con = false := by
  have wrapped : toInt16 (32768 : ℕ) ≤ 0 := by decide
  obtain ⟨w', ran, -, same⟩ :=
    TcpConn.connect_fatal (TcpConn.onClose fun _ _ => ([], ())) 0 plainClient_new wrapped
  refine ⟨⟨w', some .badState⟩, .fault ran, rfl, ?_⟩
  rw [TcpConn.isClient, same]
  exact decide_eq_false (not_lt.mpr wrapped)

end Handy
