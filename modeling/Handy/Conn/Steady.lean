import Handy.Conn.Send
import Handy.Conn.Settled

/-!
# Every event keeps the connection steady
-/

set_option autoImplicit false
set_option mvcgen.warning false

namespace Handy

namespace TcpConn

variable {υ α : Type} {depth : ℕ} {w w' : World υ}

/-- The program keeps the connection steady, and leaves it steady when it faults. -/
abbrev Keeps (depth : ℕ) (program : Act υ α) : Prop :=
  Meets (Steady depth) program (fun _ => Steady depth) (Halted depth)

theorem Nestable.succ (nestable : Nestable depth w) : Nestable (depth + 1) w :=
  ⟨by omega, fun ch channel opened => (nestable.2 ch channel opened).trans (Nat.le_succ _)⟩

theorem Steady.succ (steady : Steady depth w) : Steady (depth + 1) w :=
  { steady with nestable := steady.nestable.succ }

theorem Halted.succ {fault : Fault} (halted : Halted depth fault w) :
    Halted (depth + 1) fault w :=
  { halted with toSteady := halted.toSteady.succ }

/-- Only the channel, the poller, the output and what was seen of them matter. -/
theorem Steady.of_same (steady : Steady depth w) (channel : w'.con.channel = w.con.channel)
    (output : w'.con.output = w.con.output) (poller : w'.base.poller = w.base.poller)
    (events : w'.seen.events = w.seen.events) (wire : w'.seen.wire = w.seen.wire)
    (handed : w'.seen.handed = w.seen.handed) : Steady depth w' := by
  refine ⟨?_, ?_, ?_, ?_, ?_⟩
  · simpa only [Known, channel, poller] using steady.known
  · simpa only [Nestable, channel] using steady.nestable
  · simpa only [events] using steady.updates
  · simpa only [Undisturbed, channel, output, events, wire, handed] using steady.flow
  · simpa only [Undisturbed, Interested, channel, output, events] using steady.interested

/-- A neutral event is recorded. -/
theorem Steady.record (steady : Steady depth w) (event : ConnEvent) (neutral : event.Neutral) :
    Steady depth { w with seen := { w.seen with events := event :: w.seen.events } } := by
  obtain ⟨no_send, no_update, no_disturbance⟩ := neutral
  refine ⟨steady.known, steady.nestable, ?_, ?_, ?_⟩
  · simpa [no_send, no_update] using steady.updates
  · simpa [Undisturbed, no_disturbance] using steady.flow
  · simpa [Undisturbed, Interested, no_disturbance] using steady.interested

/-- A fault that is neither the model's bound nor the poller's. -/
theorem Steady.halted (steady : Steady depth w) {fault : Fault} (nesting : fault ≠ .nesting)
    (modifies : fault ≠ .epollCtlMod) : Halted depth fault w :=
  { steady with not_nesting := nesting, modifies := fun same => absurd same modifies }

/-- A detached or closed channel. -/
theorem Steady.closed (steady : Steady (depth + 1) w) {ch : Channel}
    (channel : w.con.channel = some ch) (opened : 0 ≤ ch.fd)
    (same : ∀ ch', w'.con.channel = some ch' → ch'.fd < 0)
    (output : w'.con.output = w.con.output) (draining : Bool)
    (events : w'.seen.events = .channelClosed draining :: w.seen.events)
    (wire : w'.seen.wire = w.seen.wire) (handed : w'.seen.handed = w.seen.handed) :
    Steady depth w' := by
  have deep := steady.nestable.2 ch channel opened
  have shut : ∀ {p : Prop} ch', w'.con.channel = some ch' → 0 ≤ ch'.fd → p := fun ch' found above =>
    absurd above (not_le.mpr (same ch' found))
  refine ⟨fun ch' found above => shut ch' found above, ⟨by omega, fun ch' found above =>
    shut ch' found above⟩, ?_, ?_, fun _ ch' found above => shut ch' found above⟩
  · rw [events]
    exact steady.updates
  · intro undisturbed _
    rw [output, wire, handed]
    refine steady.flow ?_ (by simp [channel])
    rw [Undisturbed, events] at undisturbed
    exact undisturbed

/-- There is no channel any more. -/
theorem Steady.detached (steady : Steady depth w) (channel : w'.con.channel = none)
    (events : w'.seen.events = w.seen.events) : Steady depth w' := by
  refine ⟨?_, ⟨steady.nestable.1, ?_⟩, ?_, ?_, ?_⟩
  · simp [Known, channel]
  · simp [channel]
  · rw [events]
    exact steady.updates
  · simp [channel]
  · simp [Interested, channel]

/-! ## Closing the channel -/

section Nested

variable {self : Act υ Unit} (σ : UserCode υ)

theorem closeChannel_keeps (nested : Keeps depth self) : Keeps (depth + 1) (closeChannel self) := by
  mvcgen [closeChannel, getChannel, closeFd, TcpConn.record, modifyCon, modifyBase, nested]
  case vc1 w steady ch channel opened _ _ _ =>
    exact steady.closed channel opened (by rintro _ ⟨⟩; simp) rfl w.seen.draining rfl rfl rfl
  case vc2 => exact Steady.succ
  case vc3 => exact Halted.succ
  case vc5 w steady _ => exact steady.halted (by decide) (by decide)

theorem deleteChannel_keeps (nested : Keeps depth self) :
    Keeps (depth + 1) (deleteChannel self) := by
  have closes := closeChannel_keeps nested
  mvcgen [deleteChannel, modifyCon, closes]
  case vc2 steady _ => exact steady.detached rfl rfl

theorem detachChannel_keeps (nested : Keeps depth self) :
    Keeps (depth + 1) (detachChannel self) := by
  mvcgen [detachChannel, closeFd, TcpConn.record, modifyCon, modifyBase, nested]
  case vc1 w steady _ _ _ => exact steady.detached rfl rfl
  case vc2 w steady _ _ ch channel opened _ _ =>
    exact steady.closed channel opened (by rintro _ ⟨⟩) rfl w.seen.draining rfl rfl rfl
  case vc3 => exact Steady.succ
  case vc4 => exact Halted.succ
  case vc5 w steady _ _ _ _ _ => exact steady.detached rfl rfl

/-! ## Sending -/

theorem Steady.handOver (steady : Steady depth w) (bytes : Bytes) :
    Handed depth bytes (handOver bytes w) := by
  unfold TcpConn.handOver
  split_ifs with present
  · refine ⟨steady.known, steady.nestable, steady.updates, ?_, steady.interested⟩
    intro undisturbed _
    rw [← List.append_assoc]
    exact congrArg (· ++ bytes) (steady.flow undisturbed present)
  · refine ⟨steady.known, steady.nestable, steady.updates, ?_, steady.interested⟩
    exact fun _ other => absurd other present

/-- When nothing was handed over, the connection is steady. -/
theorem Handed.nothing (handed : Handed depth [] w) : Steady depth w where
  known := handed.known
  nestable := handed.nestable
  updates := handed.updates
  flow undisturbed present := by simpa using handed.flow undisturbed present
  interested := handed.interested

theorem Handed.output {bytes : Bytes} (handed : Handed depth bytes w) :
    Ready depth .output { w with con := { w.con with output := w.con.output.append bytes } } where
  known := handed.known
  nestable := handed.nestable
  updates := handed.updates
  flow undisturbed present := by
    rw [pending, if_pos rfl, List.append_nil, Buffer.contents_append]
    exact handed.flow undisturbed present
  interested own := absurd rfl own

theorem Handed.arg {buffer : Buffer} (handed : Handed depth buffer.contents w) :
    Ready depth .arg { w with arg := buffer } where
  known := handed.known
  nestable := handed.nestable
  updates := handed.updates
  flow undisturbed present := handed.flow undisturbed present
  interested _ := handed.interested

theorem Handed.input (handed : Handed depth w.con.input.contents w) : Ready depth .input w where
  known := handed.known
  nestable := handed.nestable
  updates := handed.updates
  flow undisturbed present := handed.flow undisturbed present
  interested _ := handed.interested

theorem sendOutput_meets (depth : ℕ) (bytes : Bytes) :
    Meets (Handed depth bytes) (sendOutput bytes : Act υ Unit) (fun _ => Steady depth)
      (Halted depth) := by
  have sends : Meets _ (send .output : Act υ Unit) _ _ := send_meets depth .output
  mvcgen [sendOutput, modifyCon, sends]
  case vc1 w handed _ => exact handed.output

/-- `sendMsg`, when what the codec makes of the message was handed over. -/
theorem sendMsg_meets (depth : ℕ) (msg : Bytes) :
    Meets (fun w => Handed depth (encoded msg w) w) (sendMsg msg : Act υ Unit)
      (fun _ => Steady depth) (Halted depth) := by
  refine meets_iff.mpr fun w handed => ?_
  cases coded : w.con.codec with
  | none =>
      obtain ⟨nothing, stops⟩ := sendMsg_none coded msg
      rw [nothing] at handed
      rw [stops]
      exact handed.nothing.halted (by decide) (by decide)
  | some codec =>
      rw [sendMsg_some coded]
      exact meets_iff.mp (sendOutput_meets depth (encoded msg w)) w handed

/-! ## User code -/

theorem consume_input_keeps (len : ℕ) : Keeps depth (consume .input len : Act υ Unit) := by
  mvcgen [consume]
  case vc1 w steady rest _ _ => exact steady.of_same rfl rfl rfl rfl rfl rfl
  case vc2 w steady _ => exact steady.halted (by decide) (by decide)

theorem sends_keeps {op : Op} (sending : op.sends = true) : Keeps depth (runOp self op) := by
  cases op with
  | send bytes =>
      have sends : Meets _ (sendBytes bytes : Act υ Unit) _ _ := sendBytes_meets depth bytes
      mvcgen [runOp, sends]
      case vc1 w steady _ => exact steady.handOver bytes
  | sendBuffer buffer =>
      have sends : Meets _ (send .arg : Act υ Unit) _ _ := send_meets depth .arg
      mvcgen [runOp, sends]
      case vc1 w steady _ _ => exact (steady.handOver buffer.contents).arg
  | sendInput =>
      have sends : Meets _ (send .input : Act υ Unit) _ _ := send_meets depth .input
      mvcgen [runOp, sends]
      case vc1 w steady _ =>
        have same : (handOver w.con.input.contents w).con.input = w.con.input := by
          rw [handOver_con]
        exact Handed.input (same ▸ steady.handOver w.con.input.contents)
  | sendOutput bytes =>
      have sends : Meets _ (sendOutput bytes : Act υ Unit) _ _ := sendOutput_meets depth bytes
      mvcgen [runOp, sends]
      case vc1 w steady _ => exact steady.handOver bytes
  | sendMsg msg =>
      have sends : Meets _ (sendMsg msg : Act υ Unit) _ _ := sendMsg_meets depth msg
      mvcgen [runOp, sends]
      case vc1 w steady _ =>
        rw [encoded_handOver]
        exact steady.handOver (encoded msg w)
  | consumeInput len => exact consume_input_keeps len
  | _ => cases sending

theorem Steady.tweaked (steady : Steady depth w) (tweak : Tweaks w w') : Steady depth w' := by
  cases tweak with
  | user => exact steady.of_same rfl rfl rfl rfl rfl rfl
  | closeLater => exact steady.of_same rfl rfl rfl rfl rfl rfl
  | addIdle idle _ => exact steady.of_same rfl rfl (w.base.registerIdle_poller idle) rfl rfl rfl
  | interval => exact steady.of_same rfl rfl rfl rfl rfl rfl
  | exit => exact steady.of_same rfl rfl rfl rfl rfl rfl
  | message => exact steady.record _ ⟨rfl, rfl, rfl⟩

/-- **User code keeps the connection steady.** -/
theorem steady_withstands (nested : Keeps depth self) :
    Withstands self (Steady (depth + 1)) (Halted (depth + 1)) where
  sends _ sending := sends_keeps sending
  closes := closeChannel_keeps nested
  tweaks _ _ tweak steady := steady.tweaked tweak
  stops _ _ nesting modifies steady := steady.halted nesting modifies

theorem callState_keeps (nested : Keeps depth self) : Keeps (depth + 1) (callState σ self) :=
  (steady_withstands nested).callState_kept σ (fun _ steady _ => steady.record _ ⟨rfl, rfl, rfl⟩)
    fun _ steady _ => steady

/-! ## Closing the connection -/

theorem reconnect_keeps (nested : Keeps depth self) : Keeps (depth + 1) (reconnect self) := by
  have deletes := deleteChannel_keeps nested
  mvcgen [reconnect, TcpConn.record, deletes]
  case vc1 w steady _ _ _ =>
    exact (steady.record .reconnectScheduled ⟨rfl, rfl, rfl⟩).of_same rfl rfl rfl rfl rfl rfl

theorem handyUnregisterIdle_keeps (id : IdleId) :
    Keeps depth (handyUnregisterIdle id : Act υ Unit) := by
  mvcgen [handyUnregisterIdle, TcpConn.record]
  case vc1 w steady _ base found _ =>
    obtain ⟨idleConns, rfl⟩ := EventBase.unregisterIdle_frame found
    exact (steady.record (.unregistered id) ⟨rfl, rfl, rfl⟩).of_same rfl rfl rfl rfl rfl rfl
  case vc2 w steady _ _ => exact (steady.record _ ⟨rfl, rfl, rfl⟩).halted (by decide) (by decide)

theorem unregisterIdles_keeps (ids : List IdleId) :
    Keeps depth (unregisterIdles ids : Act υ Unit) := by
  induction ids with
  | nil => mvcgen [unregisterIdles]
  | cons id rest ih =>
      have first : Keeps depth (handyUnregisterIdle id : Act υ Unit) := handyUnregisterIdle_keeps id
      mvcgen [unregisterIdles, first, ih]

theorem drainInput_keeps (nested : Keeps depth self) : Keeps (depth + 1) (drainInput σ self) := by
  have reads := (steady_withstands nested).callRead_kept σ
  mvcgen [drainInput, setDraining, reads]
  case vc1 w steady _ _ => exact steady.of_same rfl rfl rfl rfl rfl rfl
  case vc2 steady _ => exact steady.of_same rfl rfl rfl rfl rfl rfl

theorem cancelTimeout_keeps : Keeps depth (cancelTimeout : Act υ Unit) := by
  mvcgen [cancelTimeout, modifyBase]
  case vc1 w steady _ _ _ _ => exact steady.of_same rfl rfl rfl rfl rfl rfl
  case vc2 w steady _ _ => exact steady.halted (by simp) (by simp)

theorem cleanup_keeps (nested : Keeps depth self) : Keeps (depth + 1) (cleanup σ self) := by
  have drains := drainInput_keeps σ nested
  have cancels : Keeps (depth + 1) (cancelTimeout : Act υ Unit) := cancelTimeout_keeps
  have calls := callState_keeps σ nested
  have reconnects := reconnect_keeps nested
  have unregisters : ∀ ids, Keeps (depth + 1) (unregisterIdles ids : Act υ Unit) :=
    unregisterIdles_keeps
  have detaches := detachChannel_keeps nested
  mvcgen [cleanup, modifyCon, drains, cancels, calls, reconnects, unregisters, detaches]
  case vc2 steady _ => exact steady.of_same rfl rfl rfl rfl rfl rfl
  case vc6 steady _ => exact steady.of_same rfl rfl rfl rfl rfl rfl

/-! ## The handshake -/

/-- The handshake of a known channel completes. -/
theorem completeHandshake_run {ch : Channel} (channel : w.con.channel = some ch)
    (knows : w.base.poller.Knows ch) :
    ∃ poller : Poller, poller.Knows ch ∧ (completeHandshake).run w = .ok () { w with
      con := { w.con with
        channel := some { ch with events := ⟨true, false⟩ }
        state := .connected
        connectedTime := w.base.timers.clock }
      base := { w.base with poller := poller }
      seen := { w.seen with
        events := .updated ch.fd true :: .handshaken w.con.output.size :: w.seen.events } } := by
  have same : w.base.poller.Knows { ch with events := ⟨true, false⟩ } := knows.of_same rfl rfl
  obtain ⟨poller, updates, knows'⟩ := same.updateChannel
  refine ⟨poller, knows'.of_same rfl rfl, ?_⟩
  simp [completeHandshake, enableReadWrite, getChannel, updateChannel, TcpConn.record, modifyCon,
    modifyBase, channel, updates, knows.1]

theorem completeHandshake_keeps (depth : ℕ) : Meets
    (fun w => Steady depth w ∧ ∃ ch, w.con.channel = some ch ∧ 0 ≤ ch.fd)
    (completeHandshake : Act υ Unit) (fun _ => Steady depth) (Halted depth) := by
  refine meets_iff.mpr fun w start => ?_
  obtain ⟨steady, ch, channel, opened⟩ := start
  obtain ⟨poller, knows, ran⟩ := completeHandshake_run channel (steady.known ch channel opened)
  rw [ran]
  refine ⟨?_, ⟨steady.nestable.1, ?_⟩, ?_, ?_, ?_⟩
  · rintro _ ⟨⟩ _
    exact knows.of_same rfl rfl
  · rintro _ ⟨⟩ _
    exact steady.nestable.2 ch channel opened
  · have no_shake : (ConnEvent.handshaken w.con.output.size).sendsOnClosed = false ∧
        (ConnEvent.handshaken w.con.output.size).updatesDead = false := ⟨rfl, rfl⟩
    simpa [no_shake, not_lt.mpr opened] using steady.updates
  · intro undisturbed _
    simp only [Undisturbed, List.any_cons, Bool.or_eq_false_iff] at undisturbed
    exact steady.flow undisturbed.2.2 (by simp [channel])
  · rintro undisturbed _ ⟨⟩ _ waiting
    simp only [Undisturbed, List.any_cons, Bool.or_eq_false_iff, ConnEvent.disturbs,
      bne_eq_false_iff_eq] at undisturbed
    exact absurd (Buffer.contents_eq_nil_iff.mpr undisturbed.2.1) waiting

theorem handleHandshake_keeps (nested : Keeps depth self) :
    Keeps (depth + 1) (handleHandshake σ self) := by
  have completes : Meets _ (completeHandshake : Act υ Unit) _ _ :=
    completeHandshake_keeps (depth + 1)
  have calls := callState_keeps σ nested
  have cleans := cleanup_keeps σ nested
  mvcgen [handleHandshake, getChannel, poll, completes, calls, cleans]
  case vc1 w steady _ _ => exact steady.halted (by decide) (by decide)
  case vc8 w steady _ _ ch channel opened _ _ _ _ _ =>
    exact ⟨steady.of_same rfl rfl rfl rfl rfl rfl, ch, channel, not_lt.mp opened⟩
  case vc10 w steady _ _ _ _ _ _ _ _ _ _ => exact steady.of_same rfl rfl rfl rfl rfl rfl
  case vc11 w steady _ _ _ => exact steady.halted (by decide) (by decide)

theorem handyUpdateIdle_keeps (id : IdleId) : Keeps depth (handyUpdateIdle id : Act υ Unit) := by
  mvcgen [handyUpdateIdle]
  case vc1 w steady base found _ =>
    obtain ⟨idleConns, rfl⟩ := EventBase.updateIdle_frame found
    exact steady.of_same rfl rfl rfl rfl rfl rfl
  case vc2 w steady _ => exact steady.halted (by decide) (by decide)

theorem updateIdles_keeps (ids : List IdleId) : Keeps depth (updateIdles ids : Act υ Unit) := by
  induction ids with
  | nil => mvcgen [updateIdles]
  | cons id rest ih =>
      have first : Keeps depth (handyUpdateIdle id : Act υ Unit) := handyUpdateIdle_keeps id
      mvcgen [updateIdles, first, ih]

theorem readConnected_keeps (nested : Keeps depth self) :
    Keeps (depth + 1) (readConnected σ self) := by
  have cleans := cleanup_keeps σ nested
  have updates : ∀ ids, Keeps (depth + 1) (updateIdles ids : Act υ Unit) := updateIdles_keeps
  have reads := (steady_withstands nested).callRead_kept σ
  mvcgen [readConnected, getChannel, modifyCon, cleans, updates, reads]
  case vc1 w steady _ _ _ _ => exact steady.of_same rfl rfl rfl rfl rfl rfl
  case vc2 w steady _ _ _ _ _ => exact steady.of_same rfl rfl rfl rfl rfl rfl
  case vc3 w steady _ _ _ _ _ => exact steady.of_same rfl rfl rfl rfl rfl rfl
  case vc6 w steady _ => exact steady.halted (by decide) (by decide)

theorem handleReadOnce_keeps (nested : Keeps depth self) :
    Keeps (depth + 1) (handleReadOnce σ self) := by
  have shakes := handleHandshake_keeps σ nested
  have reads := readConnected_keeps σ nested
  mvcgen [handleReadOnce, shakes, reads]

/-- **`handleRead` keeps the connection steady, however deep it is nested.** -/
theorem handleRead_keeps (depth : ℕ) : Keeps depth (handleRead σ depth) := by
  induction depth with
  | zero =>
      mvcgen [handleRead]
      case vc1 w steady => exact absurd steady.nestable.1 (by decide)
  | succ depth ih => exact handleReadOnce_keeps σ ih

/-! ## Writing -/

theorem flushOutput_absent (depth : ℕ) :
    Meets (fun w => Steady depth w ∧ w.con.channel = none) (flushOutput : Act υ Unit)
      (fun _ => Steady depth) (Halted depth) := by
  refine meets_iff.mpr fun w start => ?_
  obtain ⟨steady, absent⟩ := start
  by_cases nothing : w.con.output.size = 0
  · obtain ⟨rest, consumed, -⟩ := Buffer.consume_spec (Nat.zero_le w.con.output.size)
    have ran : (flushOutput).run w = .ok () (writeBuffer .output rest w) := by
      simp [flushOutput, isend, nothing, consume, readBuffer, consumed]
    rw [ran]
    exact steady.detached absent rfl
  · have ran : (flushOutput).run w = .error .nullChannel w := by
      simp [flushOutput, isend, nothing, getChannel_absent absent]
    rw [ran]
    exact steady.halted (by decide) (by decide)

theorem flushOutput_keeps (depth : ℕ) : Keeps depth (flushOutput : Act υ Unit) := by
  refine meets_iff.mpr fun w steady => ?_
  cases channel : w.con.channel with
  | none => exact meets_iff.mp (flushOutput_absent depth) w ⟨steady, channel⟩
  | some ch =>
      obtain ⟨sended, w', isent, enabled, poller, writes, events, rfl, le, knows, -, shut, left,
        quiet⟩ := isend_run channel (steady.known ch channel) w.con.output.contents
      obtain ⟨rest, consumed, rest_eq⟩ := Buffer.consume_spec (Buffer.length_contents _ ▸ le)
      obtain ⟨same_sends, same_dead⟩ := any_written w (setWrite ch enabled) poller writes
        (w.con.output.contents.take sended) quiet
      have ran : (flushOutput).run w = .ok () (writeBuffer .output rest
          (written w (setWrite ch enabled) poller writes (w.con.output.contents.take sended)
            events)) := by
        simp [flushOutput, isent, consume, readBuffer, written, consumed]
      rw [ran]
      refine ⟨?_, ⟨steady.nestable.1, ?_⟩, ?_, ?_, ?_⟩
      · rintro _ ⟨⟩ opened
        exact (knows opened).of_same rfl rfl
      · rintro _ ⟨⟩ opened
        exact steady.nestable.2 ch channel opened
      · rw [writeBuffer_seen, same_sends, same_dead, steady.updates]
      · intro undisturbed _
        rw [Undisturbed, writeBuffer_seen] at undisturbed
        have flow := steady.flow (undisturbed_written undisturbed).1 (by simp [channel])
        simp only [writeBuffer, written, rest_eq, List.append_assoc, List.take_append_drop]
        exact flow
      · rintro undisturbed _ ⟨⟩ opened not_all
        rw [Undisturbed, writeBuffer_seen] at undisturbed
        have unsent : sended < w.con.output.contents.length := by
          rw [writeBuffer, rest_eq] at not_all
          exact not_le.mp (List.drop_eq_nil_iff.not.mp not_all)
        rcases left opened unsent with now | failed
        · exact now
        · exact absurd failed (undisturbed_written undisturbed).2

/-- The last test of `handleWrite` turns write interest off with nothing to write. -/
theorem stopWriting_keeps (depth : ℕ) : Meets (fun w => Steady depth w ∧ Settled w)
    (stopWriting : Act υ Unit) (fun _ => Steady depth) (Halted depth) := by
  refine meets_iff.mpr fun w start => ?_
  obtain ⟨steady, settled⟩ := start
  cases drained : w.con.output.empty with
  | false =>
      have ran : (stopWriting).run w = .ok () w := by simp [stopWriting, drained]
      rw [ran]
      exact steady
  | true =>
      rcases settled with ⟨⟨ch, channel, opened⟩, -⟩ | ⟨absent, -⟩
      · cases waiting : ch.writeEnabled with
        | false =>
            have ran : (stopWriting).run w = .ok () w := by
              simp [stopWriting, drained, getChannel, channel, waiting]
            rw [ran]
            exact steady
        | true =>
            obtain ⟨poller, knows, updated⟩ := enableWrite_known channel
              (steady.known ch channel opened) false
            have ran : (stopWriting).run w = (enableWrite false).run w := by
              simp [stopWriting, drained, getChannel, channel, waiting]
            rw [ran, updated]
            refine ⟨?_, ⟨steady.nestable.1, ?_⟩, ?_, ?_, ?_⟩
            · rintro _ ⟨⟩ _
              exact knows.of_same rfl rfl
            · rintro _ ⟨⟩ _
              exact steady.nestable.2 ch channel opened
            · simpa [not_lt.mpr opened] using steady.updates
            · intro undisturbed _
              exact steady.flow (by simpa [Undisturbed] using undisturbed) (by simp [channel])
            · rintro _ _ ⟨⟩ _ not_drained
              exact absurd (Buffer.empty_iff.mp drained) not_drained
      · have ran : (stopWriting).run w = .error .nullChannel w := by
          simp [stopWriting, drained, getChannel_absent absent]
        rw [ran]
        exact steady.halted (by decide) (by decide)

theorem handleWrite_keeps (nested : Keeps depth self) (closes : Closes self) :
    Meets (fun w => Steady (depth + 1) w ∧ Settled w) (handleWrite σ self)
      (fun _ => Steady (depth + 1)) (Halted (depth + 1)) := by
  have shakes := handleHandshake_keeps σ nested
  have flushes : Meets _ (flushOutput : Act υ Unit) _ _ :=
    Meets.and (flushOutput_keeps (depth + 1)) (settled_of_sends flushOutput_sends)
  have calls := fun callback =>
    ((steady_withstands nested).callUser_kept σ callback).and
      ((settled_withstands closes).callUser_kept σ callback)
  have stops : Meets _ (stopWriting : Act υ Unit) _ _ := stopWriting_keeps (depth + 1)
  mvcgen [handleWrite, shakes, flushes, calls, stops]
  case vc1 start _ => exact start.1
  case vc5 => exact id
  case vc7 => exact id
  case vc8 start _ _ _ _ => exact start.1

/-! ## Connecting -/

theorem attach_keeps (nested : Keeps depth self) (deep : 1 ≤ depth) (fd : ℤ) :
    Keeps (depth + 1) (attach self fd) := by
  have deletes := deleteChannel_keeps nested
  mvcgen [attach, modifyCon, TcpConn.record, deletes]
  case vc1 w steady _ _ _ => exact steady.halted (by decide) (by decide)
  case vc2 w steady _ _ _ _ => exact steady.of_same rfl rfl rfl rfl rfl rfl
  case vc3 steady ch _ => exact steady.halted (by decide) (by decide)
  case vc4 w steady ch poller added _ _ =>
    refine ⟨?_, ⟨by omega, fun _ _ _ => by omega⟩, ?_, ?_, ?_⟩
    · rintro _ ⟨⟩ _
      exact Poller.knows_of_addChannel added
    · exact (steady.record .attached ⟨rfl, rfl, rfl⟩).updates
    · exact fun _ _ => rfl
    · rintro _ _ ⟨⟩ _ _
      rfl

theorem connect_keeps (nested : Keeps depth self) (deep : 1 ≤ depth) (port timeout : ℤ) :
    Keeps (depth + 1) (connect self port timeout) := by
  have attaches := attach_keeps nested deep
  mvcgen [connect, attaches]
  case vc1 w steady _ _ _ => exact steady.halted (by decide) (by decide)
  case vc2 w steady _ _ _ _ _ => exact steady.of_same rfl rfl rfl rfl rfl rfl
  case vc3 steady _ => exact steady.of_same rfl rfl rfl rfl rfl rfl

end Nested

/-! ## Events -/

variable (σ : UserCode υ)

theorem runTask_keeps (task : BaseTask) : Keeps (maxNesting + 1) (runTask σ task) := by
  have nested : Keeps maxNesting (onClose σ) := handleRead_keeps σ maxNesting
  have shut := closeChannel_keeps nested
  cases task with
  | closeChannel => mvcgen [runTask, shut]
  | connectTimeout => mvcgen [runTask, shut]
  | reconnect =>
      have connects := connect_keeps nested (by decide)
      mvcgen [runTask, modifyBase, connects]
      case vc1 w steady _ _ => exact steady.of_same rfl rfl rfl rfl rfl rfl
  | callIdles => mvcgen [runTask]

theorem Keeps.settled {program : Act υ α} (keeps : Keeps depth program) :
    Meets (fun w => Steady depth w ∧ Settled w) program (fun _ => Steady depth) (Halted depth) :=
  keeps.imp (fun _ start => start.1) (fun _ _ done => done) fun _ _ stop => stop

/-- **Every event keeps the connection steady.** -/
theorem handleEvent_keeps (event : Event) :
    Meets (fun w => Steady (maxNesting + 1) w ∧ Settled w) (handleEvent σ event)
      (fun _ => Steady (maxNesting + 1)) (Halted (maxNesting + 1)) := by
  have nested : Keeps maxNesting (onClose σ) := handleRead_keeps σ maxNesting
  have shut := closeChannel_keeps nested
  have runs := runTask_keeps σ
  cases event with
  | readable =>
      have reads := handleRead_keeps σ (maxNesting + 1)
      refine Keeps.settled ?_
      mvcgen [handleEvent, reads]
  | writable =>
      have writes := handleWrite_keeps σ nested (handleRead_closes σ maxNesting)
      mvcgen [handleEvent, writes]
      case vc2 start _ => exact start.1
  | timer =>
      refine Keeps.settled ?_
      mvcgen [handleEvent, modifyBase, runs]
      case vc2 w steady _ _ _ _ _ _ => exact steady.halted (by simp) (by simp)
      case vc3 w steady _ _ _ _ _ _ _ _ => exact steady.of_same rfl rfl rfl rfl rfl rfl
  | task =>
      refine Keeps.settled ?_
      mvcgen [handleEvent, modifyBase, runs]
      case vc2 w steady _ _ _ _ => exact steady.of_same rfl rfl rfl rfl rfl rfl
  | call op => exact Keeps.settled ((steady_withstands nested).runOp_kept op)
  | elapse milli =>
      refine Keeps.settled ?_
      mvcgen [handleEvent, modifyBase]
      case vc1 steady _ => exact steady.of_same rfl rfl rfl rfl rfl rfl
  | loopExit =>
      have cleans := cleanup_keeps σ nested
      refine Keeps.settled ?_
      mvcgen [handleEvent, modifyBase, TcpConn.record, cleans]
      case vc1 w steady _ _ _ _ =>
        exact (steady.record .exitedWaiting ⟨rfl, rfl, rfl⟩).of_same
          rfl rfl rfl rfl rfl rfl
      case vc2 w steady _ _ _ => exact steady.of_same rfl rfl rfl rfl rfl rfl
  | destroyPoller =>
      refine Keeps.settled ?_
      mvcgen [handleEvent, shut]

end TcpConn

end Handy
