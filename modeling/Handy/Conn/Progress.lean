import Handy.Conn.Messages
import Handy.Conn.Steady

/-!
# What the socket accepts is the beginning of what was handed over

While the channel is there, the bytes that the socket has accepted, followed by `output_`, are
those that were handed over for it (`Steady`). When the channel has gone, nothing is sent any more,
so what was accepted stays the beginning of what was handed over; and until the next `attach` it
only grows (`Progress`). Every event keeps this.
-/

set_option autoImplicit false
set_option mvcgen.warning false

namespace Handy

namespace TcpConn

variable {υ α : Type} {w₀ w w' : World υ} {depth : ℕ}

/-! ## Sending -/

/-- What sending does to the socket: it accepts more, and without a channel nothing happens. -/
structure Accepts (w w' : World υ) : Prop where
  sends : Sends w w'
  more : w.seen.wire <+: w'.seen.wire
  idle : w.con.channel = none → w'.seen.wire = w.seen.wire ∧ w'.seen.handed = w.seen.handed

namespace Accepts

theorem refl (w : World υ) : Accepts w w := ⟨.refl w, List.prefix_rfl, fun _ => ⟨rfl, rfl⟩⟩

theorem absent (accepts : Accepts w w') : w.con.channel = none ↔ w'.con.channel = none := by
  rw [← Option.isNone_iff_eq_none, ← Option.isNone_iff_eq_none, ← Option.not_isSome,
    ← Option.not_isSome, accepts.sends.channel_isSome]

theorem trans {w'' : World υ} (first : Accepts w w') (second : Accepts w' w'') : Accepts w w'' := by
  refine ⟨first.sends.trans second.sends, first.more.trans second.more, fun none => ?_⟩
  obtain ⟨wire, handed⟩ := first.idle none
  obtain ⟨wire', handed'⟩ := second.idle (first.absent.mp none)
  exact ⟨wire'.trans wire, handed'.trans handed⟩

/-- A step of sending that the socket does not see. -/
theorem silent (sends : Sends w w') (wire : w'.seen.wire = w.seen.wire)
    (handed : w'.seen.handed = w.seen.handed) : Accepts w w' :=
  ⟨sends, by rw [wire], fun _ => ⟨wire, handed⟩⟩

theorem handOver (bytes : Bytes) (w : World υ) : Accepts w (handOver bytes w) := by
  refine ⟨.handOver bytes w, ?_, fun none => ?_⟩
  · unfold TcpConn.handOver
    split_ifs <;> exact List.prefix_rfl
  · unfold TcpConn.handOver
    rw [none]
    exact ⟨rfl, rfl⟩

end Accepts

/-- A program that sends, and of which the socket sees nothing. -/
theorem accepts_of_silent {program : Act υ α} (moves : Moves Sends program)
    (unseen : ∀ wire handed, Meets (fun w => w.seen.wire = wire ∧ w.seen.handed = handed) program
      (fun _ w => w.seen.wire = wire ∧ w.seen.handed = handed)
      fun _ w => w.seen.wire = wire ∧ w.seen.handed = handed) : Moves Accepts program := by
  intro w₀
  refine meets_iff.mpr fun w accepts => ?_
  have both := (moves w).and (unseen w.seen.wire w.seen.handed)
  cases ran : program.run w with
  | ok _ w' =>
      obtain ⟨sends, wire, handed⟩ := both.ok ⟨.refl w, rfl, rfl⟩ ran
      exact accepts.trans (.silent sends wire handed)
  | error fault w' =>
      obtain ⟨sends, wire, handed⟩ := both.fault ⟨.refl w, rfl, rfl⟩ ran
      exact accepts.trans (.silent sends wire handed)

theorem enableWrite_accepts (enable : Bool) : Moves Accepts (enableWrite enable : Act υ Unit) := by
  refine accepts_of_silent (enableWrite_sends enable) fun wire handed => ?_
  mvcgen [enableWrite, getChannel, updateChannel, record, modifyCon, modifyBase]

theorem endWrite_accepts (ch : Channel) (stop : WriteStop) :
    Moves Accepts (endWrite ch stop : Act υ Unit) := by
  intro w₀
  cases stop with
  | done => mvcgen [endWrite]
  | again =>
      have enables : Meets _ (enableWrite true : Act υ Unit) _ _ := enableWrite_accepts true w₀
      mvcgen [endWrite, enables]
  | failed =>
      mvcgen [endWrite, record]
      case vc1 w accepts _ => exact accepts.trans (.silent (.recorded w rfl) rfl rfl)

theorem isend_accepts (buf : Bytes) : Moves Accepts (isend buf : Act υ ℕ) := by
  intro w₀
  have ends : ∀ ch stop, Meets (Accepts w₀) (endWrite ch stop : Act υ Unit) _ _ :=
    fun ch stop => endWrite_accepts ch stop w₀
  mvcgen [isend, getChannel, ends]
  case vc3 w accepts _ channel _ _ =>
    refine accepts.trans ⟨.silent rfl rfl rfl rfl rfl rfl, List.prefix_append .., fun none => ?_⟩
    rw [none] at channel
    cases channel

theorem consume_accepts (ref : BufferRef) (len : ℕ) :
    Moves Accepts (consume ref len : Act υ Unit) := by
  refine accepts_of_silent (consume_sends ref len) fun wire handed => ?_
  mvcgen [consume]
  case vc1 start _ _ _ => cases ref <;> exact start

theorem sendQueued_accepts (ref : BufferRef) : Moves Accepts (sendQueued ref : Act υ Unit) := by
  refine accepts_of_silent (sendQueued_sends ref) fun wire handed => ?_
  mvcgen [sendQueued, getChannel]
  case vc1 start _ _ _ _ => cases ref <;> exact start

theorem sendDirect_accepts (ref : BufferRef) : Moves Accepts (sendDirect ref : Act υ Unit) := by
  intro w₀
  have writes : ∀ buf, Meets (Accepts w₀) (isend buf : Act υ ℕ) _ _ := fun buf => isend_accepts buf w₀
  have consumes : ∀ len, Meets (Accepts w₀) (consume ref len : Act υ Unit) _ _ :=
    fun len => consume_accepts ref len w₀
  mvcgen [sendDirect, writes, consumes]

theorem sendRest_accepts (ref : BufferRef) : Moves Accepts (sendRest ref : Act υ Unit) := by
  intro w₀
  have enables : Meets _ (enableWrite true : Act υ Unit) _ _ := enableWrite_accepts true w₀
  have absorbs : ∀ w : World υ, Accepts w (absorb ref w) := fun w =>
    .silent (.absorb ref w) (by rw [absorb_seen]) (by rw [absorb_seen])
  mvcgen [sendRest, getChannel, enables]
  case vc1 w accepts _ _ _ _ _ => exact accepts.trans (absorbs w)
  case vc2 w accepts _ _ _ _ _ => exact accepts.trans (absorbs w)
  case vc3 w accepts _ _ _ => exact accepts.trans (absorbs w)

theorem send_accepts (ref : BufferRef) : Moves Accepts (send ref : Act υ Unit) := by
  intro w₀
  have queued : Meets _ (sendQueued ref : Act υ Unit) _ _ := sendQueued_accepts ref w₀
  have direct : Meets _ (sendDirect ref : Act υ Unit) _ _ := sendDirect_accepts ref w₀
  have rest : Meets _ (sendRest ref : Act υ Unit) _ _ := sendRest_accepts ref w₀
  mvcgen [send, record, queued, direct, rest]
  case vc2 w accepts _ _ _ => exact accepts.trans (.silent (.recorded w rfl) rfl rfl)

theorem sendBytes_accepts (bytes : Bytes) : Moves Accepts (sendBytes bytes : Act υ Unit) := by
  intro w₀
  have writes : ∀ buf, Meets (Accepts w₀) (isend buf : Act υ ℕ) _ _ := fun buf => isend_accepts buf w₀
  mvcgen [sendBytes, sendUnqueued, modifyCon, writes]
  case vc2 w accepts _ => exact accepts.trans (.silent (.silent rfl rfl rfl rfl rfl rfl) rfl rfl)
  case vc4 w accepts _ _ _ _ => exact accepts.trans (.silent (.silent rfl rfl rfl rfl rfl rfl) rfl rfl)

theorem sendOutput_accepts (bytes : Bytes) : Moves Accepts (sendOutput bytes : Act υ Unit) := by
  intro w₀
  have sends : Meets _ (send .output : Act υ Unit) _ _ := send_accepts .output w₀
  mvcgen [sendOutput, modifyCon, sends]
  case vc1 w accepts _ => exact accepts.trans (.silent (.silent rfl rfl rfl rfl rfl rfl) rfl rfl)

theorem sendMsg_accepts (msg : Bytes) : Moves Accepts (sendMsg msg : Act υ Unit) := by
  intro w₀
  have sends : ∀ bytes, Meets (Accepts w₀) (sendOutput bytes : Act υ Unit) _ _ :=
    fun bytes => sendOutput_accepts bytes w₀
  mvcgen [sendMsg, sends]

theorem flushOutput_accepts : Moves Accepts (flushOutput : Act υ Unit) := by
  intro w₀
  have writes : ∀ buf, Meets (Accepts w₀) (isend buf : Act υ ℕ) _ _ := fun buf => isend_accepts buf w₀
  have consumes : ∀ len, Meets (Accepts w₀) (consume .output len : Act υ Unit) _ _ :=
    fun len => consume_accepts .output len w₀
  mvcgen [flushOutput, writes, consumes]

theorem stopWriting_accepts : Moves Accepts (stopWriting : Act υ Unit) := by
  intro w₀
  have stops : Meets _ (enableWrite false : Act υ Unit) _ _ := enableWrite_accepts false w₀
  mvcgen [stopWriting, getChannel, stops]

theorem runOp_accepts (self : Act υ Unit) {op : Op} (sending : op.sends = true) :
    Moves Accepts (runOp self op) := by
  intro w₀
  cases op with
  | send bytes =>
      have sends : Meets _ (sendBytes bytes : Act υ Unit) _ _ := sendBytes_accepts bytes w₀
      mvcgen [runOp, sends]
      case vc1 w accepts _ => exact accepts.trans (.handOver bytes w)
  | sendBuffer buffer =>
      have sends : Meets _ (send .arg : Act υ Unit) _ _ := send_accepts .arg w₀
      mvcgen [runOp, sends]
      case vc1 w accepts _ _ =>
        exact (accepts.trans (.handOver _ w)).trans (.silent (.silent rfl rfl rfl rfl rfl rfl) rfl rfl)
  | sendInput =>
      have sends : Meets _ (send .input : Act υ Unit) _ _ := send_accepts .input w₀
      mvcgen [runOp, sends]
      case vc1 w accepts _ => exact accepts.trans (.handOver _ w)
  | sendOutput bytes =>
      have sends : Meets _ (sendOutput bytes : Act υ Unit) _ _ := sendOutput_accepts bytes w₀
      mvcgen [runOp, sends]
      case vc1 w accepts _ => exact accepts.trans (.handOver bytes w)
  | sendMsg msg =>
      have sends : Meets _ (sendMsg msg : Act υ Unit) _ _ := sendMsg_accepts msg w₀
      mvcgen [runOp, sends]
      case vc1 w accepts _ => exact accepts.trans (.handOver _ w)
  | consumeInput len => exact consume_accepts .input len w₀
  | _ => cases sending

/-! ## Progress -/

/-- Since `w₀`, the socket has accepted more, unless another one was attached; and what it has
accepted is the beginning of what was handed over. -/
structure Progress (w₀ w : World υ) : Prop where
  ordered : Undisturbed w → w.seen.wire <+: w.seen.handed
  later : attempts w₀.seen.events ≤ attempts w.seen.events
  grows : attempts w.seen.events = attempts w₀.seen.events → w₀.seen.wire <+: w.seen.wire

/-- A steady connection that has made progress. -/
structure Advancing (depth : ℕ) (w₀ w : World υ) : Prop extends Steady depth w, Progress w₀ w

/-- The program keeps the connection steady and lets it make progress, also where it faults. -/
abbrev Advances (depth : ℕ) (w₀ : World υ) (program : Act υ α) : Prop :=
  Meets (Advancing depth w₀) program (fun _ => Advancing depth w₀) fun _ => Progress w₀

namespace Progress

/-- Nothing was sent. -/
theorem of_same (progress : Progress w₀ w) (wire : w'.seen.wire = w.seen.wire)
    (handed : w'.seen.handed = w.seen.handed) (events : w'.seen.events = w.seen.events) :
    Progress w₀ w' := by
  refine ⟨?_, ?_, ?_⟩
  · rw [Undisturbed, wire, handed, events]
    exact progress.ordered
  · rw [events]
    exact progress.later
  · rw [wire, events]
    exact progress.grows

/-- An event was recorded, and nothing was sent. -/
theorem record (progress : Progress w₀ w) (event : ConnEvent) (other : event.attaches = false)
    (wire : w'.seen.wire = w.seen.wire) (handed : w'.seen.handed = w.seen.handed)
    (events : w'.seen.events = event :: w.seen.events) : Progress w₀ w' := by
  have same : attempts w'.seen.events = attempts w.seen.events := by
    have alone : ∀ recorded ∈ [event], recorded.attaches = false := by simpa using other
    rw [events]
    exact attempts_append alone
  refine ⟨fun undisturbed => ?_, ?_, ?_⟩
  · rw [wire, handed]
    refine progress.ordered ?_
    rw [Undisturbed, events, List.any_cons, Bool.or_eq_false_iff] at undisturbed
    exact undisturbed.2
  · rw [same]
    exact progress.later
  · rw [same, wire]
    exact progress.grows

/-- A send lets the socket make progress: with a channel the bytes flow, and without one nothing
happens. -/
theorem accepts (progress : Progress w₀ w) (steady : Steady depth w') (accepts : Accepts w w') :
    Progress w₀ w' := by
  obtain ⟨new, ofSend, events⟩ := accepts.sends.events
  have same : attempts w'.seen.events = attempts w.seen.events := by
    rw [events]
    refine attempts_append fun event member => ?_
    have sent := ofSend event member
    cases event <;> first | rfl | cases sent
  refine ⟨fun undisturbed => ?_, ?_, fun once => ?_⟩
  · cases channel : w'.con.channel with
    | some ch => exact ⟨_, steady.flow undisturbed (by rw [channel]; rfl)⟩
    | none =>
        obtain ⟨wire, handed⟩ := accepts.idle (accepts.absent.mpr channel)
        rw [wire, handed]
        refine progress.ordered ?_
        rw [Undisturbed, events, List.any_append, Bool.or_eq_false_iff] at undisturbed
        exact undisturbed.2
  · rw [same]
    exact progress.later
  · exact (progress.grows (same ▸ once)).trans accepts.more

end Progress

/-- A program that sends, and keeps the connection steady from some states, lets it make progress
from them. -/
theorem advances_of {before : World υ → Prop} {program : Act υ α}
    (keeps : Meets (fun w => Steady depth w ∧ before w) program (fun _ => Steady depth) (Halted depth))
    (accepts : Moves Accepts program) :
    Meets (fun w => Advancing depth w₀ w ∧ before w) program (fun _ => Advancing depth w₀)
      fun _ => Progress w₀ := by
  refine meets_iff.mpr fun w start => ?_
  obtain ⟨advancing, holds⟩ := start
  have both := keeps.and (accepts w)
  cases ran : program.run w with
  | ok _ w' =>
      obtain ⟨steady, accepted⟩ := both.ok ⟨⟨advancing.toSteady, holds⟩, .refl w⟩ ran
      exact ⟨steady, advancing.toProgress.accepts steady accepted⟩
  | error fault w' =>
      obtain ⟨halted, accepted⟩ := both.fault ⟨⟨advancing.toSteady, holds⟩, .refl w⟩ ran
      exact advancing.toProgress.accepts halted.toSteady accepted

theorem Keeps.advances {program : Act υ α} (keeps : Keeps depth program)
    (accepts : Moves Accepts program) : Advances depth w₀ program :=
  have always : Meets (fun w => Steady depth w ∧ True) program _ _ :=
    keeps.imp (fun _ start => start.1) (fun _ _ done => done) fun _ _ stop => stop
  (advances_of always accepts).imp (fun _ advancing => ⟨advancing, trivial⟩)
    (fun _ _ done => done) fun _ _ stop => stop

namespace Advancing

/-- Only the channel, the poller, the output and what was seen of them matter. -/
theorem of_same (advancing : Advancing depth w₀ w) (channel : w'.con.channel = w.con.channel)
    (output : w'.con.output = w.con.output) (poller : w'.base.poller = w.base.poller)
    (events : w'.seen.events = w.seen.events) (wire : w'.seen.wire = w.seen.wire)
    (handed : w'.seen.handed = w.seen.handed) : Advancing depth w₀ w' :=
  ⟨advancing.toSteady.of_same channel output poller events wire handed,
    advancing.toProgress.of_same wire handed events⟩

/-- An ordinary event is recorded. -/
theorem record (advancing : Advancing depth w₀ w) (event : ConnEvent) (neutral : event.Neutral)
    (other : event.attaches = false) :
    Advancing depth w₀ { w with seen := { w.seen with events := event :: w.seen.events } } :=
  ⟨advancing.toSteady.record event neutral, advancing.toProgress.record event other rfl rfl rfl⟩

theorem detached (advancing : Advancing depth w₀ w) (channel : w'.con.channel = none)
    (seen : w'.seen = w.seen) : Advancing depth w₀ w' :=
  ⟨advancing.toSteady.detached channel (by rw [seen]),
    advancing.toProgress.of_same (by rw [seen]) (by rw [seen]) (by rw [seen])⟩

theorem succ (advancing : Advancing depth w₀ w) : Advancing (depth + 1) w₀ w :=
  ⟨advancing.toSteady.succ, advancing.toProgress⟩

/-- The channel is closed or detached. -/
theorem closed (advancing : Advancing (depth + 1) w₀ w) {ch : Channel}
    (channel : w.con.channel = some ch) (opened : 0 ≤ ch.fd)
    (same : ∀ ch', w'.con.channel = some ch' → ch'.fd < 0)
    (output : w'.con.output = w.con.output)
    (events : w'.seen.events = .channelClosed w.seen.draining :: w.seen.events)
    (wire : w'.seen.wire = w.seen.wire) (handed : w'.seen.handed = w.seen.handed) :
    Advancing depth w₀ w' :=
  ⟨advancing.toSteady.closed channel opened same output w.seen.draining events wire handed,
    advancing.toProgress.record _ rfl wire handed events⟩

theorem tweaked (advancing : Advancing depth w₀ w) (tweak : Tweaks w w') :
    Advancing depth w₀ w' := by
  cases tweak with
  | user => exact advancing.of_same rfl rfl rfl rfl rfl rfl
  | closeLater => exact advancing.of_same rfl rfl rfl rfl rfl rfl
  | addIdle idle _ => exact advancing.of_same rfl rfl (w.base.registerIdle_poller idle) rfl rfl rfl
  | interval => exact advancing.of_same rfl rfl rfl rfl rfl rfl
  | exit => exact advancing.of_same rfl rfl rfl rfl rfl rfl
  | message => exact advancing.record _ ⟨rfl, rfl, rfl⟩ rfl

end Advancing

/-! ## Closing the connection -/

section Nested

variable {self : Act υ Unit} (σ : UserCode υ) (nested : Advances depth w₀ self)

include nested

theorem closeChannel_advances : Advances (depth + 1) w₀ (closeChannel self) := by
  mvcgen [closeChannel, getChannel, closeFd, TcpConn.record, modifyCon, modifyBase, nested]
  case vc1 w advancing ch channel opened _ _ _ =>
    exact advancing.closed channel opened (by rintro _ ⟨⟩; simp) rfl rfl rfl rfl
  case vc2 => exact Advancing.succ
  case vc4 w advancing _ => exact advancing.toProgress

theorem deleteChannel_advances : Advances (depth + 1) w₀ (deleteChannel self) := by
  have closes := closeChannel_advances nested
  mvcgen [deleteChannel, modifyCon, closes]
  case vc2 advancing _ => exact advancing.detached rfl rfl

theorem detachChannel_advances : Advances (depth + 1) w₀ (detachChannel self) := by
  mvcgen [detachChannel, closeFd, TcpConn.record, modifyCon, modifyBase, nested]
  case vc1 w advancing _ _ _ => exact advancing.detached rfl rfl
  case vc2 w advancing _ _ ch channel opened _ _ =>
    exact advancing.closed channel opened (by rintro _ ⟨⟩) rfl rfl rfl rfl
  case vc3 => exact Advancing.succ
  case vc4 w advancing _ _ _ _ _ => exact advancing.detached rfl rfl

/-- **User code lets the connection make progress.** -/
theorem advancing_withstands :
    Withstands self (Advancing (depth + 1) w₀) fun _ => Progress w₀ where
  sends _ sending := (sends_keeps sending).advances (runOp_accepts self sending)
  closes := closeChannel_advances nested
  tweaks _ _ tweak advancing := advancing.tweaked tweak
  stops _ _ _ _ advancing := advancing.toProgress

theorem callState_advances : Advances (depth + 1) w₀ (callState σ self) :=
  (advancing_withstands nested).callState_kept σ
    (fun _ advancing _ => advancing.record _ ⟨rfl, rfl, rfl⟩ rfl) fun _ advancing _ => advancing

theorem reconnect_advances : Advances (depth + 1) w₀ (reconnect self) := by
  have deletes := deleteChannel_advances nested
  mvcgen [reconnect, TcpConn.record, deletes]
  case vc1 w advancing _ _ _ =>
    have recorded := advancing.record .reconnectScheduled ⟨rfl, rfl, rfl⟩ rfl
    exact recorded.of_same rfl rfl rfl rfl rfl rfl

omit nested in
theorem unregisterIdles_advances (ids : List IdleId) :
    Advances depth w₀ (unregisterIdles ids : Act υ Unit) := by
  induction ids with
  | nil => mvcgen [unregisterIdles]
  | cons id rest ih =>
      mvcgen [unregisterIdles, handyUnregisterIdle, TcpConn.record, ih]
      case vc1 w advancing _ base found _ =>
        obtain ⟨idleConns, rfl⟩ := EventBase.unregisterIdle_frame found
        have recorded := advancing.record (.unregistered id) ⟨rfl, rfl, rfl⟩ rfl
        exact recorded.of_same rfl rfl rfl rfl rfl rfl
      case vc2 w advancing _ _ => exact advancing.toProgress.record _ rfl rfl rfl rfl

theorem drainInput_advances : Advances (depth + 1) w₀ (drainInput σ self) := by
  have reads := (advancing_withstands nested).callRead_kept σ
  mvcgen [drainInput, setDraining, reads]
  case vc1 w advancing _ _ => exact advancing.of_same rfl rfl rfl rfl rfl rfl
  case vc2 advancing _ => exact advancing.of_same rfl rfl rfl rfl rfl rfl

omit nested in
theorem cancelTimeout_advances : Advances depth w₀ (cancelTimeout : Act υ Unit) := by
  mvcgen [cancelTimeout, modifyBase]
  case vc1 w advancing _ _ _ _ => exact advancing.of_same rfl rfl rfl rfl rfl rfl
  case vc2 w advancing _ _ => exact advancing.toProgress

theorem cleanup_advances : Advances (depth + 1) w₀ (cleanup σ self) := by
  have drains := drainInput_advances σ nested
  have cancels : Advances (depth + 1) w₀ (cancelTimeout : Act υ Unit) := cancelTimeout_advances
  have calls := callState_advances σ nested
  have reconnects := reconnect_advances nested
  have unregisters : ∀ ids, Advances (depth + 1) w₀ (unregisterIdles ids : Act υ Unit) :=
    unregisterIdles_advances
  have detaches := detachChannel_advances nested
  mvcgen [cleanup, modifyCon, drains, cancels, calls, reconnects, unregisters, detaches]
  case vc2 advancing _ => exact advancing.of_same rfl rfl rfl rfl rfl rfl
  case vc6 advancing _ => exact advancing.of_same rfl rfl rfl rfl rfl rfl

/-! ## The handlers -/

omit nested in
theorem completeHandshake_advances (depth : ℕ) : Meets
    (fun w => Advancing depth w₀ w ∧ ∃ ch, w.con.channel = some ch ∧ 0 ≤ ch.fd)
    (completeHandshake : Act υ Unit) (fun _ => Advancing depth w₀) fun _ => Progress w₀ := by
  refine meets_iff.mpr fun w start => ?_
  obtain ⟨advancing, ch, channel, opened⟩ := start
  obtain ⟨poller, knows, ran⟩ :=
    completeHandshake_run channel (advancing.known ch channel opened)
  have steady := meets_iff.mp (completeHandshake_keeps depth) w
    ⟨advancing.toSteady, ch, channel, opened⟩
  rw [ran] at steady ⊢
  have shaken : Progress w₀ { w with seen := { w.seen with
      events := .handshaken w.con.output.size :: w.seen.events } } :=
    advancing.toProgress.record _ rfl rfl rfl rfl
  exact ⟨steady, shaken.record (.updated ch.fd true) rfl rfl rfl rfl⟩

theorem handleHandshake_advances : Advances (depth + 1) w₀ (handleHandshake σ self) := by
  have completes : Meets _ (completeHandshake : Act υ Unit) _ _ :=
    @completeHandshake_advances υ w₀ (depth + 1)
  have calls := callState_advances σ nested
  have cleans := cleanup_advances σ nested
  mvcgen [handleHandshake, getChannel, poll, completes, calls, cleans]
  case vc1 w advancing _ _ => exact advancing.toProgress
  case vc8 w advancing _ _ ch channel opened _ _ _ _ _ =>
    exact ⟨advancing.of_same rfl rfl rfl rfl rfl rfl, ch, channel, not_lt.mp opened⟩
  case vc10 w advancing _ _ _ _ _ _ _ _ _ _ => exact advancing.of_same rfl rfl rfl rfl rfl rfl
  case vc11 w advancing _ _ _ => exact advancing.toProgress

omit nested in
theorem updateIdles_advances (ids : List IdleId) :
    Advances depth w₀ (updateIdles ids : Act υ Unit) := by
  induction ids with
  | nil => mvcgen [updateIdles]
  | cons id rest ih =>
      mvcgen [updateIdles, handyUpdateIdle, ih]
      case vc1 w advancing base found _ =>
        obtain ⟨idleConns, rfl⟩ := EventBase.updateIdle_frame found
        exact advancing.of_same rfl rfl rfl rfl rfl rfl
      case vc2 w advancing _ => exact advancing.toProgress

theorem readConnected_advances : Advances (depth + 1) w₀ (readConnected σ self) := by
  have cleans := cleanup_advances σ nested
  have updates : ∀ ids, Advances (depth + 1) w₀ (updateIdles ids : Act υ Unit) := updateIdles_advances
  have reads := (advancing_withstands nested).callRead_kept σ
  mvcgen [readConnected, getChannel, modifyCon, cleans, updates, reads]
  case vc1 w advancing _ _ _ _ => exact advancing.of_same rfl rfl rfl rfl rfl rfl
  case vc2 w advancing _ _ _ _ _ => exact advancing.of_same rfl rfl rfl rfl rfl rfl
  case vc3 w advancing _ _ _ _ _ => exact advancing.of_same rfl rfl rfl rfl rfl rfl
  case vc6 w advancing _ => exact advancing.toProgress

theorem handleReadOnce_advances : Advances (depth + 1) w₀ (handleReadOnce σ self) := by
  have shakes := handleHandshake_advances σ nested
  have reads := readConnected_advances σ nested
  mvcgen [handleReadOnce, shakes, reads]

omit nested in
/-- **`handleRead` lets the connection make progress, however deep it is nested.** -/
theorem handleRead_advances (depth : ℕ) : Advances depth w₀ (handleRead σ depth) := by
  induction depth with
  | zero =>
      mvcgen [handleRead]
      case vc1 w advancing => exact advancing.toProgress
  | succ depth ih => exact handleReadOnce_advances σ ih

theorem handleWrite_advances (closes : Closes self) :
    Meets (fun w => Advancing (depth + 1) w₀ w ∧ Settled w) (handleWrite σ self)
      (fun _ => Advancing (depth + 1) w₀) fun _ => Progress w₀ := by
  have shakes := handleHandshake_advances σ nested
  have advances : Advances (depth + 1) w₀ (flushOutput : Act υ Unit) :=
    (flushOutput_keeps (depth + 1)).advances flushOutput_accepts
  have flushes : Meets _ (flushOutput : Act υ Unit) _ _ :=
    advances.and (settled_of_sends flushOutput_sends)
  have calls := fun callback =>
    ((advancing_withstands nested).callUser_kept σ callback).and
      ((settled_withstands closes).callUser_kept σ callback)
  have stops : Meets (fun w => Advancing (depth + 1) w₀ w ∧ Settled w)
      (stopWriting : Act υ Unit) _ _ := advances_of (stopWriting_keeps (depth + 1)) stopWriting_accepts
  mvcgen [handleWrite, shakes, flushes, calls, stops]
  case vc1 start _ => exact start.1
  case vc5 => exact id
  case vc7 => exact id
  case vc8 start _ _ _ _ => exact start.1

theorem attach_advances (deep : 1 ≤ depth) (fd : ℤ) : Advances (depth + 1) w₀ (attach self fd) := by
  have deletes := deleteChannel_advances nested
  mvcgen [attach, modifyCon, TcpConn.record, deletes]
  case vc1 w advancing _ _ _ => exact advancing.toProgress
  case vc2 w advancing _ _ _ _ => exact advancing.of_same rfl rfl rfl rfl rfl rfl
  case vc3 advancing ch _ => exact advancing.toProgress
  case vc4 w advancing ch poller added _ _ =>
    have attached : attempts (.attached :: w.seen.events) = attempts w.seen.events + 1 :=
      attempts_attached w.seen.events
    have later := advancing.later
    refine ⟨⟨?_, ⟨by omega, fun _ _ _ => by omega⟩, ?_, ?_, ?_⟩, fun _ => List.nil_prefix, ?_, ?_⟩
    · rintro _ ⟨⟩ _
      exact Poller.knows_of_addChannel added
    · exact (advancing.toSteady.record .attached ⟨rfl, rfl, rfl⟩).updates
    · exact fun _ _ => rfl
    · rintro _ _ ⟨⟩ _ _
      rfl
    · show attempts w₀.seen.events ≤ attempts (.attached :: w.seen.events)
      omega
    · intro same
      have again : attempts (.attached :: w.seen.events) = attempts w₀.seen.events := same
      omega

theorem connect_advances (deep : 1 ≤ depth) (port timeout : ℤ) :
    Advances (depth + 1) w₀ (connect self port timeout) := by
  have attaches := attach_advances nested deep
  mvcgen [connect, attaches]
  case vc1 w advancing _ _ _ => exact advancing.toProgress
  case vc2 w advancing _ _ _ _ _ => exact advancing.of_same rfl rfl rfl rfl rfl rfl
  case vc3 advancing _ => exact advancing.of_same rfl rfl rfl rfl rfl rfl

end Nested

/-! ## Events -/

variable (σ : UserCode υ)

theorem runTask_advances (task : BaseTask) : Advances (maxNesting + 1) w₀ (runTask σ task) := by
  have nested : Advances maxNesting w₀ (onClose σ) := handleRead_advances σ maxNesting
  have shut := closeChannel_advances nested
  cases task with
  | closeChannel => mvcgen [runTask, shut]
  | connectTimeout => mvcgen [runTask, shut]
  | reconnect =>
      have connects := connect_advances nested (by decide)
      mvcgen [runTask, modifyBase, connects]
      case vc1 w advancing _ _ => exact advancing.of_same rfl rfl rfl rfl rfl rfl
  | callIdles => mvcgen [runTask]

theorem Advances.settled {program : Act υ α} (advances : Advances depth w₀ program) :
    Meets (fun w => Advancing depth w₀ w ∧ Settled w) program (fun _ => Advancing depth w₀)
      fun _ => Progress w₀ :=
  advances.imp (fun _ start => start.1) (fun _ _ done => done) fun _ _ stop => stop

/-- **Every event lets the connection make progress.** -/
theorem handleEvent_advances (event : Event) :
    Meets (fun w => Advancing (maxNesting + 1) w₀ w ∧ Settled w) (handleEvent σ event)
      (fun _ => Advancing (maxNesting + 1) w₀) fun _ => Progress w₀ := by
  have nested : Advances maxNesting w₀ (onClose σ) := handleRead_advances σ maxNesting
  have shut := closeChannel_advances nested
  have runs : ∀ task, Advances (maxNesting + 1) w₀ (runTask σ task) := runTask_advances σ
  cases event with
  | readable =>
      have reads : Advances (maxNesting + 1) w₀ (handleRead σ (maxNesting + 1)) :=
        handleRead_advances σ _
      refine Advances.settled ?_
      mvcgen [handleEvent, reads]
  | writable =>
      have writes := handleWrite_advances σ nested (handleRead_closes σ maxNesting)
      mvcgen [handleEvent, writes]
      case vc2 start _ => exact start.1
  | timer =>
      refine Advances.settled ?_
      mvcgen [handleEvent, modifyBase, runs]
      case vc2 w advancing _ _ _ _ _ _ => exact advancing.toProgress
      case vc3 w advancing _ _ _ _ _ _ _ _ => exact advancing.of_same rfl rfl rfl rfl rfl rfl
  | task =>
      refine Advances.settled ?_
      mvcgen [handleEvent, modifyBase, runs]
      case vc2 w advancing _ _ _ _ => exact advancing.of_same rfl rfl rfl rfl rfl rfl
  | call op => exact Advances.settled ((advancing_withstands nested).runOp_kept op)
  | elapse milli =>
      refine Advances.settled ?_
      mvcgen [handleEvent, modifyBase]
      case vc1 advancing _ => exact advancing.of_same rfl rfl rfl rfl rfl rfl
  | loopExit =>
      have cleans := cleanup_advances σ nested
      refine Advances.settled ?_
      mvcgen [handleEvent, modifyBase, TcpConn.record, cleans]
      case vc1 w advancing _ _ _ _ =>
        have recorded := advancing.record .exitedWaiting ⟨rfl, rfl, rfl⟩ rfl
        exact recorded.of_same rfl rfl rfl rfl rfl rfl
      case vc2 w advancing _ _ _ => exact advancing.of_same rfl rfl rfl rfl rfl rfl
  | destroyPoller =>
      refine Advances.settled ?_
      mvcgen [handleEvent, shut]

end TcpConn

end Handy
