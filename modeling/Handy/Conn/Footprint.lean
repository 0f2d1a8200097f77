import Handy.Conn
import Handy.Lib.Faulting

/-!
# What sending may change

The send operations touch the buffers of the connection, the write interest of its
channel and the answers of the kernel, and nothing else. `Sends` is the relation between
the states before and after; every property that it preserves is kept by all of them
(`runOp_sends`).
-/

set_option autoImplicit false
set_option mvcgen.warning false

namespace Handy

/-- The events that send operations record. -/
def ConnEvent.ofSend : ConnEvent → Bool
  | .updated _ _ => true
  | .writeFailed => true
  | .bufferSent _ _ _ => true
  | _ => false

/-- The operations of user code that only send, or consume input. -/
def Op.sends : Op → Bool
  | .send _ => true
  | .sendBuffer _ => true
  | .sendInput => true
  | .sendOutput _ => true
  | .sendMsg _ => true
  | .consumeInput _ => true
  | _ => false

namespace TcpConn

variable {υ : Type} {w w' w'' : World υ}

/-- The second state differs from the first in what sending changes. -/
structure Sends (w w' : World υ) : Prop where
  con : ∃ channel input output, channel.map Channel.fd = w.con.channel.map Channel.fd ∧
    w'.con = { w.con with channel := channel, input := input, output := output }
  base : ∃ poller, w'.base = { w.base with poller := poller }
  net : ∃ writes, w'.net = { w.net with writes := writes }
  draining : w'.seen.draining = w.seen.draining
  events : ∃ events, (∀ event ∈ events, event.ofSend = true) ∧
    w'.seen.events = events ++ w.seen.events

namespace Sends

theorem refl (w : World υ) : Sends w w :=
  ⟨⟨_, _, _, rfl, rfl⟩, ⟨_, rfl⟩, ⟨_, rfl⟩, rfl, [], by simp, rfl⟩

theorem trans (first : Sends w w') (second : Sends w' w'') : Sends w w'' := by
  obtain ⟨⟨channel, input, output, fd, con⟩, ⟨poller, base⟩, ⟨writes, net⟩, draining,
    ⟨events, ofSend, seen⟩⟩ := first
  obtain ⟨⟨channel', input', output', fd', con'⟩, ⟨poller', base'⟩, ⟨writes', net'⟩,
    draining', ⟨events', ofSend', seen'⟩⟩ := second
  refine ⟨⟨channel', input', output', ?_, ?_⟩, ⟨poller', ?_⟩, ⟨writes', ?_⟩,
    draining'.trans draining, events' ++ events, ?_, ?_⟩
  · rw [fd', con, fd]
  · rw [con', con]
  · rw [base', base]
  · rw [net', net]
  · intro event member
    rcases List.mem_append.mp member with new | old
    · exact ofSend' event new
    · exact ofSend event old
  · rw [seen', seen, List.append_assoc]

/-- A step that keeps the descriptor and records nothing. -/
theorem silent (channel : w'.con.channel.map Channel.fd = w.con.channel.map Channel.fd)
    (con : w'.con = { w.con with
      channel := w'.con.channel, input := w'.con.input, output := w'.con.output })
    (base : w'.base = w.base) (net : w'.net = { w.net with writes := w'.net.writes })
    (draining : w'.seen.draining = w.seen.draining)
    (events : w'.seen.events = w.seen.events) : Sends w w' :=
  ⟨⟨_, _, _, channel, con⟩, ⟨w.base.poller, base⟩, ⟨_, net⟩, draining, [], by simp, events⟩

/-- An event of a send is recorded. -/
theorem recorded (w : World υ) {event : ConnEvent} (ofSend : event.ofSend = true) :
    Sends w { w with seen := { w.seen with events := event :: w.seen.events } } :=
  ⟨⟨_, _, _, rfl, rfl⟩, ⟨_, rfl⟩, ⟨_, rfl⟩, rfl, [event], by simpa using ofSend, rfl⟩

/-- The interest mask of the channel changes, and the poller is told. -/
theorem updated {ch : Channel} (channel : w.con.channel = some ch) (ch' : Channel)
    (fd : ch'.fd = ch.fd) (poller : Poller) (live : Bool) :
    Sends w { w with
      con := { w.con with channel := some ch' }
      base := { w.base with poller := poller }
      seen := { w.seen with events := .updated ch'.fd live :: w.seen.events } } := by
  refine ⟨⟨_, _, _, ?_, rfl⟩, ⟨_, rfl⟩, ⟨_, rfl⟩, rfl, [.updated ch'.fd live], ?_, rfl⟩
  · rw [channel, Option.map_some, Option.map_some, fd]
  · simp [ConnEvent.ofSend]

theorem channel_isSome (sends : Sends w w') : w'.con.channel.isSome = w.con.channel.isSome := by
  obtain ⟨channel, input, output, fd, con⟩ := sends.con
  rw [con]
  have := congrArg Option.isSome fd
  simpa using this

end Sends

theorem enableWrite_sends (enable : Bool) : Moves Sends (enableWrite enable : Act υ Unit) := by
  intro w₀
  mvcgen [enableWrite, getChannel, updateChannel, record, modifyCon, modifyBase]
  case vc1 w sends ch channel ch' _ _ poller _ _ => exact sends.trans (.updated channel ch' rfl poller _)
  case vc2 w sends ch channel ch' _ _ _ => exact sends.trans (.updated channel ch' rfl w.base.poller _)

theorem endWrite_sends (ch : Channel) (stop : WriteStop) :
    Moves Sends (endWrite ch stop : Act υ Unit) := by
  intro w₀
  cases stop with
  | done => mvcgen [endWrite]
  | again =>
      have enables : Meets _ (enableWrite true : Act υ Unit) _ _ := enableWrite_sends true w₀
      mvcgen [endWrite, enables]
  | failed =>
      mvcgen [endWrite, record]
      case vc1 w sends _ => exact sends.trans (.recorded w rfl)

theorem isend_sends (buf : Bytes) : Moves Sends (isend buf : Act υ ℕ) := by
  intro w₀
  have ends : ∀ ch stop, Meets (Sends w₀) (endWrite ch stop : Act υ Unit) _ _ :=
    fun ch stop => endWrite_sends ch stop w₀
  mvcgen [isend, getChannel, ends]
  case vc3 w sends _ _ _ _ => exact sends.trans (.silent rfl rfl rfl rfl rfl rfl)

theorem consume_sends (ref : BufferRef) (len : ℕ) : Moves Sends (consume ref len : Act υ Unit) := by
  intro w₀
  mvcgen [consume]
  case vc1 w sends rest _ _ =>
    refine sends.trans ?_
    cases ref <;> exact .silent rfl rfl rfl rfl rfl rfl

theorem Sends.absorb (ref : BufferRef) (w : World υ) : Sends w (absorb ref w) := by
  cases ref <;> exact .silent rfl rfl rfl rfl rfl rfl

theorem Sends.handOver (bytes : Bytes) (w : World υ) : Sends w (handOver bytes w) := by
  unfold TcpConn.handOver
  split_ifs
  · exact .silent rfl rfl rfl rfl rfl rfl
  · exact .refl w

theorem sendQueued_sends (ref : BufferRef) : Moves Sends (sendQueued ref : Act υ Unit) := by
  intro w₀
  mvcgen [sendQueued, getChannel]
  case vc1 w sends _ _ _ _ => exact sends.trans (.absorb ref w)

theorem sendDirect_sends (ref : BufferRef) : Moves Sends (sendDirect ref : Act υ Unit) := by
  intro w₀
  have writes : ∀ buf, Meets (Sends w₀) (isend buf : Act υ ℕ) _ _ := fun buf => isend_sends buf w₀
  have consumes : ∀ len, Meets (Sends w₀) (consume ref len : Act υ Unit) _ _ :=
    fun len => consume_sends ref len w₀
  mvcgen [sendDirect, writes, consumes]

theorem sendRest_sends (ref : BufferRef) : Moves Sends (sendRest ref : Act υ Unit) := by
  intro w₀
  have enables : Meets _ (enableWrite true : Act υ Unit) _ _ := enableWrite_sends true w₀
  mvcgen [sendRest, getChannel, enables]
  case vc1 w sends _ _ _ _ _ => exact sends.trans (.absorb ref w)
  case vc2 w sends _ _ _ _ _ => exact sends.trans (.absorb ref w)
  case vc3 w sends _ _ _ => exact sends.trans (.absorb ref w)

theorem send_sends (ref : BufferRef) : Moves Sends (send ref : Act υ Unit) := by
  intro w₀
  have queued : Meets _ (sendQueued ref : Act υ Unit) _ _ := sendQueued_sends ref w₀
  have direct : Meets _ (sendDirect ref : Act υ Unit) _ _ := sendDirect_sends ref w₀
  have rest : Meets _ (sendRest ref : Act υ Unit) _ _ := sendRest_sends ref w₀
  mvcgen [send, record, queued, direct, rest]
  case vc2 w sends _ _ _ => exact sends.trans (.recorded w rfl)

theorem sendBytes_sends (bytes : Bytes) : Moves Sends (sendBytes bytes : Act υ Unit) := by
  intro w₀
  have writes : ∀ buf, Meets (Sends w₀) (isend buf : Act υ ℕ) _ _ := fun buf => isend_sends buf w₀
  mvcgen [sendBytes, sendUnqueued, modifyCon, writes]
  case vc2 w sends _ => exact sends.trans (.silent rfl rfl rfl rfl rfl rfl)
  case vc4 w sends _ _ _ _ => exact sends.trans (.silent rfl rfl rfl rfl rfl rfl)

theorem sendOutput_sends (bytes : Bytes) : Moves Sends (sendOutput bytes : Act υ Unit) := by
  intro w₀
  have sends : Meets _ (send .output : Act υ Unit) _ _ := send_sends .output w₀
  mvcgen [sendOutput, modifyCon, sends]
  case vc1 w sends _ => exact sends.trans (.silent rfl rfl rfl rfl rfl rfl)

theorem sendMsg_sends (msg : Bytes) : Moves Sends (sendMsg msg : Act υ Unit) := by
  intro w₀
  have sends : ∀ bytes, Meets (Sends w₀) (sendOutput bytes : Act υ Unit) _ _ :=
    fun bytes => sendOutput_sends bytes w₀
  mvcgen [sendMsg, sends]

theorem flushOutput_sends : Moves Sends (flushOutput : Act υ Unit) := by
  intro w₀
  have writes : ∀ buf, Meets (Sends w₀) (isend buf : Act υ ℕ) _ _ := fun buf => isend_sends buf w₀
  have consumes : ∀ len, Meets (Sends w₀) (consume .output len : Act υ Unit) _ _ :=
    fun len => consume_sends .output len w₀
  mvcgen [flushOutput, writes, consumes]

theorem stopWriting_sends : Moves Sends (stopWriting : Act υ Unit) := by
  intro w₀
  have stops : Meets _ (enableWrite false : Act υ Unit) _ _ := enableWrite_sends false w₀
  mvcgen [stopWriting, getChannel, stops]

/-- **The send operations change nothing but what sending changes.** -/
theorem runOp_sends (self : Act υ Unit) {op : Op} (sending : op.sends = true) :
    Moves Sends (runOp self op) := by
  intro w₀
  cases op with
  | send bytes =>
      have sends : Meets _ (sendBytes bytes : Act υ Unit) _ _ := sendBytes_sends bytes w₀
      mvcgen [runOp, sends]
      case vc1 w sends _ => exact sends.trans (.handOver bytes w)
  | sendBuffer buffer =>
      have sends : Meets _ (send .arg : Act υ Unit) _ _ := send_sends .arg w₀
      mvcgen [runOp, sends]
      case vc1 w sends _ _ =>
        exact (sends.trans (.handOver _ w)).trans (.silent rfl rfl rfl rfl rfl rfl)
  | sendInput =>
      have sends : Meets _ (send .input : Act υ Unit) _ _ := send_sends .input w₀
      mvcgen [runOp, sends]
      case vc1 w sends _ => exact sends.trans (.handOver _ w)
  | sendOutput bytes =>
      have sends : Meets _ (sendOutput bytes : Act υ Unit) _ _ := sendOutput_sends bytes w₀
      mvcgen [runOp, sends]
      case vc1 w sends _ => exact sends.trans (.handOver bytes w)
  | sendMsg msg =>
      have sends : Meets _ (sendMsg msg : Act υ Unit) _ _ := sendMsg_sends msg w₀
      mvcgen [runOp, sends]
      case vc1 w sends _ => exact sends.trans (.handOver _ w)
  | consumeInput len => exact consume_sends .input len w₀
  | _ => cases sending

end TcpConn

end Handy
