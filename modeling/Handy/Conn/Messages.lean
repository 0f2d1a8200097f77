import Handy.Codec.Stream
import Handy.Conn.Ledger
import Handy.Conn.Manners
import Handy.Conn.Runs

/-!
# The messages of a connection

What `onMsg` delivers, against the bytes that were read. From a state `w₀` of the
connection and until the next `attach`, the messages delivered since are found one behind
the other in the stream that consists of what was in `input_` and of what has been read
since, and what is in `input_` is the rest of that stream (`Tracked`). When the handlers
have returned, nothing more can be decoded (`Current`).

This is kept by user code that leaves `input_` to the decode loop and whose message
callback does not close the connection under it (`Mannerly`).
-/

set_option autoImplicit false
set_option mvcgen.warning false

namespace Handy

/-- The message that the callback of `onMsg` is called on. -/
def ConnEvent.message : ConnEvent → Option Bytes
  | .msgCalled msg => some msg
  | _ => none

/-- The messages that were delivered, oldest first. -/
def messages (events : List ConnEvent) : List Bytes :=
  (events.filterMap ConnEvent.message).reverse

/-- How often a socket was attached. -/
def attempts (events : List ConnEvent) : ℕ := events.countP ConnEvent.attaches

@[simp] theorem messages_msgCalled (msg : Bytes) (events : List ConnEvent) :
    messages (.msgCalled msg :: events) = messages events ++ [msg] := by
  simp [messages, ConnEvent.message]

@[simp] theorem attempts_attached (events : List ConnEvent) :
    attempts (.attached :: events) = attempts events + 1 :=
  List.countP_cons_of_pos rfl

/-- Events that are neither messages nor new sockets. -/
theorem messages_append {new events : List ConnEvent}
    (none_new : ∀ event ∈ new, event.message = none) :
    messages (new ++ events) = messages events := by
  rw [messages, List.filterMap_append, List.filterMap_eq_nil_iff.mpr none_new, List.nil_append,
    messages]

theorem attempts_append {new events : List ConnEvent}
    (none_new : ∀ event ∈ new, event.attaches = false) :
    attempts (new ++ events) = attempts events := by
  rw [attempts, List.countP_append, List.countP_eq_zero.mpr (by simpa using none_new), Nat.zero_add,
    attempts]

namespace TcpConn

variable {υ : Type} {codec : Codec} {w₀ w w' : World υ}

/-- User code leaves `input_` to the decode loop, and its message callback does not close
an open connection. -/
structure Mannerly (σ : UserCode υ) : Prop where
  spares : ∀ callback w, ∀ op ∈ (σ callback w).1, op.sparesInput = true
  patient : ∀ msg w, Open w → ∀ op ∈ (σ (.msg msg) w).1, op ≠ .closeNow

/-- Since `w₀`, the delivered messages were found in the stream, and the data is its
rest. -/
def Follows (codec : Codec) (w₀ w : World υ) (data : Bytes) : Prop :=
  ∃ received msgs, w₀.net.peer = received ++ w.net.peer ∧
    messages w.seen.events = messages w₀.seen.events ++ msgs ∧
    codec.Decodes (w₀.con.input.contents ++ received) msgs data

/-- What holds of a connection that has consumed all but the data. -/
structure Tracking (codec : Codec) (w₀ w : World υ) (data : Bytes) : Prop where
  codec_eq : w.con.codec = some codec
  readcb : w.con.readcb ≠ some .read
  later : attempts w₀.seen.events ≤ attempts w.seen.events
  follows : attempts w.seen.events = attempts w₀.seen.events → Follows codec w₀ w data

/-- What holds whenever the decode loop is not in the middle of a message. -/
def Tracked (codec : Codec) (w₀ w : World υ) : Prop :=
  Tracking codec w₀ w w.con.input.contents

/-- What holds while the callback is called on a message of so many bytes. -/
def Consuming (codec : Codec) (w₀ : World υ) (size : ℕ) (w : World υ) : Prop :=
  size ≤ w.con.input.size ∧ Tracking codec w₀ w (w.con.input.contents.drop size)

/-- Nothing more can be decoded. -/
def Caught (codec : Codec) (w : World υ) : Prop :=
  w.con.readcb = some .msg → (codec.tryDecode w.con.input.contents).1 ≤ 0

/-- What holds between the events of a connection. -/
def Current (codec : Codec) (w₀ w : World υ) : Prop := Tracked codec w₀ w ∧ Caught codec w

/-- What holds when a program stops: the buffer was not exceeded, and the messages that
were delivered are in the stream. -/
def Cut (codec : Codec) (w₀ : World υ) (fault : Fault) (w : World υ) : Prop :=
  fault ≠ .consumeUnderflow ∧
    (attempts w.seen.events = attempts w₀.seen.events → ∃ rest, Follows codec w₀ w rest)

theorem Tracking.cut {data : Bytes} (tracking : Tracking codec w₀ w data) {fault : Fault}
    (other : fault ≠ .consumeUnderflow) : Cut codec w₀ fault w :=
  ⟨other, fun same => ⟨data, tracking.follows same⟩⟩

theorem Tracked.cut (tracked : Tracked codec w₀ w) {fault : Fault}
    (other : fault ≠ .consumeUnderflow) : Cut codec w₀ fault w :=
  Tracking.cut tracked other

theorem Current.cut (current : Current codec w₀ w) {fault : Fault}
    (other : fault ≠ .consumeUnderflow) : Cut codec w₀ fault w :=
  current.1.cut other

/-! ## Steps that have nothing to do with messages -/

/-- Neither the stream nor what is delivered of it changes. -/
structure Aside (w w' : World υ) : Prop where
  codec : w'.con.codec = w.con.codec
  readcb : w'.con.readcb = w.con.readcb ∨ w'.con.readcb = none
  input : w'.con.input.contents = w.con.input.contents
  peer : w'.net.peer = w.net.peer
  messages : messages w'.seen.events = messages w.seen.events
  attempts : attempts w'.seen.events = attempts w.seen.events

namespace Aside

theorem follows (aside : Aside w w') {data : Bytes} (follows : Follows codec w₀ w data) :
    Follows codec w₀ w' data := by
  obtain ⟨received, msgs, peer, delivered, decodes⟩ := follows
  exact ⟨received, msgs, by rw [aside.peer, peer], by rw [aside.messages, delivered], decodes⟩

theorem tracking (aside : Aside w w') {data : Bytes} (tracking : Tracking codec w₀ w data) :
    Tracking codec w₀ w' data where
  codec_eq := aside.codec.trans tracking.codec_eq
  readcb := by
    rcases aside.readcb with same | unset
    · rw [same]
      exact tracking.readcb
    · rw [unset]
      exact nofun
  later := aside.attempts ▸ tracking.later
  follows same := aside.follows (tracking.follows (aside.attempts ▸ same))

theorem tracked (aside : Aside w w') (tracked : Tracked codec w₀ w) : Tracked codec w₀ w' := by
  rw [Tracked, aside.input]
  exact aside.tracking tracked

theorem consuming (aside : Aside w w') {size : ℕ} (consuming : Consuming codec w₀ size w) :
    Consuming codec w₀ size w' := by
  rw [Consuming, aside.input, Buffer.size_eq_of_contents aside.input]
  exact ⟨consuming.1, aside.tracking consuming.2⟩

theorem caught (aside : Aside w w') (caught : Caught codec w) : Caught codec w' := by
  intro set
  rcases aside.readcb with same | unset
  · rw [aside.input]
    exact caught (same ▸ set)
  · rw [unset] at set
    cases set

theorem current (aside : Aside w w') (current : Current codec w₀ w) : Current codec w₀ w' :=
  ⟨aside.tracked current.1, aside.caught current.2⟩

theorem of_sends (sends : Sends w w') (input : w'.con.input = w.con.input) : Aside w w' := by
  obtain ⟨channel, _, output, -, con⟩ := sends.con
  obtain ⟨writes, net⟩ := sends.net
  obtain ⟨new, ofSend, events⟩ := sends.events
  refine ⟨by rw [con], .inl (by rw [con]), by rw [input], by rw [net], ?_, ?_⟩
  · rw [events]
    refine messages_append fun event member => ?_
    have sent := ofSend event member
    cases event <;> first | rfl | cases sent
  · rw [events]
    refine attempts_append fun event member => ?_
    have sent := ofSend event member
    cases event <;> first | rfl | cases sent

theorem of_tweak (tweak : Tweaks w w') (seen : w'.seen = w.seen) : Aside w w' := by
  have same := congrArg (fun record => Handy.messages record.events) seen
  have attempted := congrArg (fun record => Handy.attempts record.events) seen
  cases tweak <;> exact ⟨rfl, .inl rfl, rfl, rfl, same, attempted⟩

end Aside

theorem Sends.isOpen (sends : Sends w w') : Open w' ↔ Open w := by
  obtain ⟨channel, _, _, fd, con⟩ := sends.con
  have both : ∀ w : World υ, Open w ↔ ∃ fd, w.con.channel.map Channel.fd = some fd ∧ 0 ≤ fd := by
    intro w
    simp [Open]
  rw [both, both, con, fd]

theorem Tweaks.isOpen (tweak : Tweaks w w') : Open w' ↔ Open w := by
  cases tweak <;> exact Iff.rfl

section Callbacks

variable {self : Act υ Unit}

theorem spared_not_underflow {op : Op} (spares : op.sparesInput = true) {fault : Fault}
    (may : op.mayFault fault) : fault ≠ .consumeUnderflow := by
  cases op with
  | consumeInput len => cases spares
  | sendMsg msg => rcases may with rfl | rfl <;> decide
  | _ => exact may ▸ (by decide)

/-- A send that spares the input has nothing to do with messages. -/
theorem sends_aside {kept : World υ → Prop} {stopped : Fault → World υ → Prop} {op : Op}
    (sending : op.sends = true) (spares : op.sparesInput = true)
    (keeps : ∀ w w', Aside w w' → Sends w w' → kept w → kept w')
    (stops : ∀ fault w w', fault ≠ .consumeUnderflow → Aside w w' → kept w → stopped fault w') :
    Meets kept (runOp self op) (fun _ => kept) stopped := by
  refine meets_iff.mpr fun w holds => ?_
  have both := (runOp_sends self sending w).and (runOp_sent self sending w)
  cases ran : (runOp self op).run w with
  | ok _ w' =>
      obtain ⟨sends, sent⟩ := both.ok ⟨.refl w, rfl⟩ ran
      exact keeps w w' (.of_sends sends (sent.1 spares)) sends holds
  | error fault w' =>
      obtain ⟨sends, may, input⟩ := both.fault ⟨.refl w, rfl⟩ ran
      exact stops fault w w' (spared_not_underflow spares may) (.of_sends sends (input spares)) holds

/-- What the handler called by `Channel::close` does for the messages. -/
abbrev Keeping (codec : Codec) (w₀ : World υ) (program : Act υ Unit) : Prop :=
  Meets (Current codec w₀) program (fun _ => Current codec w₀) (Cut codec w₀)

theorem closeChannel_current (keeping : Keeping codec w₀ self) :
    Keeping codec w₀ (closeChannel self) := by
  mvcgen [closeChannel, getChannel, closeFd, record, modifyCon, modifyBase, keeping]
  case vc1 w current _ _ _ _ _ _ => exact Aside.current (w := w) ⟨rfl, .inl rfl, rfl, rfl, rfl, rfl⟩ current
  case vc3 w current _ => exact current.cut (by decide)

/-- A callback that is called between messages. -/
theorem current_endures (keeping : Keeping codec w₀ self) :
    Endures (fun op => op.sparesInput = true) self (Current codec w₀) (Cut codec w₀) where
  sends _ sending spares := sends_aside sending spares
    (fun _ _ aside _ current => aside.current current)
    fun _ _ _ other aside current => (aside.current current).cut other
  closes _ := (closeChannel_current keeping).imp (fun _ start => start.1) (fun _ _ done => done)
    fun _ _ stop => stop
  tweaks _ _ tweak seen current := (Aside.of_tweak tweak seen).current current
  raises _ current := current.cut (by decide)

/-- A message callback on an open connection does not close it. -/
theorem consuming_open_endures (size : ℕ) :
    Endures (fun op => op.sparesInput = true ∧ op ≠ .closeNow) self
      (fun w => Consuming codec w₀ size w ∧ Open w) (Cut codec w₀) where
  sends _ sending permitted := sends_aside sending permitted.1
    (fun _ _ aside sends start => ⟨aside.consuming start.1, sends.isOpen.mpr start.2⟩)
    fun _ _ _ other aside start => (aside.consuming start.1).2.cut other
  closes permitted := absurd rfl permitted.2
  tweaks _ _ tweak seen start :=
    ⟨(Aside.of_tweak tweak seen).consuming start.1, tweak.isOpen.mpr start.2⟩
  raises _ start := start.1.2.cut (by decide)

/-- On a closed connection there is nothing to close. -/
theorem consuming_closed_endures (size : ℕ) :
    Endures (fun op => op.sparesInput = true) self
      (fun w => Consuming codec w₀ size w ∧ ¬ Open w) (Cut codec w₀) where
  sends _ sending spares := sends_aside sending spares
    (fun _ _ aside sends start => ⟨aside.consuming start.1, fun opened => start.2 (sends.isOpen.mp opened)⟩)
    fun _ _ _ other aside start => (aside.consuming start.1).2.cut other
  closes _ := by
    refine meets_iff.mpr fun w start => ?_
    obtain ⟨ch, channel⟩ := Option.isSome_iff_exists.mp start.2
    have shut : ¬ 0 ≤ ch.fd := fun opened => start.1.2 ⟨ch, channel, opened⟩
    have ran : (closeChannel self).run w = .ok () w := by
      simp [closeChannel, getChannel, channel, shut]
    rw [ran]
    exact start.1
  tweaks _ _ tweak seen start :=
    ⟨(Aside.of_tweak tweak seen).consuming start.1, fun opened => start.2 (tweak.isOpen.mp opened)⟩
  raises _ start := start.1.2.cut (by decide)

variable {σ : UserCode υ} (mannerly : Mannerly σ) (sound : codec.Sound)

include mannerly

theorem callMsg_consuming (msg : Bytes) (size : ℕ) :
    Meets (Consuming codec w₀ size) (callUser σ self (.msg msg))
      (fun _ => Consuming codec w₀ size) (Cut codec w₀) := by
  refine Meets.by_cases Open ?_ ?_
  · refine ((consuming_open_endures size).callUser_kept σ fun w start op member => ?_).imp
      (fun _ start => start) (fun _ _ done => done.1) fun _ _ stop => stop
    exact ⟨mannerly.spares _ w op member, mannerly.patient msg w start.2 op member⟩
  · exact ((consuming_closed_endures size).callUser_kept σ fun w _ => mannerly.spares _ w).imp
      (fun _ start => start) (fun _ _ done => done.1) fun _ _ stop => stop

omit mannerly in
/-- The message has been recorded and is still in the buffer. -/
theorem Tracked.called (tracked : Tracked codec w₀ w) {size : ℕ} {view : Slice}
    (found : codec.tryDecode w.con.input.contents = ((size : ℤ), view)) (positive : 0 < size)
    (fits : size ≤ w.con.input.size) :
    Consuming codec w₀ size { w with seen := { w.seen with
      events := .msgCalled (view.of w.con.input.contents) :: w.seen.events } } := by
  refine ⟨fits, tracked.codec_eq, tracked.readcb, tracked.later, fun same => ?_⟩
  obtain ⟨received, msgs, peer, delivered, decodes⟩ := tracked.follows same
  refine ⟨received, msgs ++ [view.of w.con.input.contents], peer, ?_, ?_⟩
  · rw [messages_msgCalled, delivered, List.append_assoc]
  · refine decodes.snoc found positive ?_
    rwa [Buffer.length_contents]

omit mannerly in
/-- The message has been consumed. -/
theorem Consuming.consumed {size : ℕ} (consuming : Consuming codec w₀ size w) {rest : Buffer}
    (consumed : w.con.input.consume size = some rest) :
    Tracked codec w₀ { w with con := { w.con with input := rest } } := by
  obtain ⟨-, contents⟩ := Buffer.contents_of_consume consumed
  have tracking := consuming.2
  rw [← contents] at tracking
  exact ⟨tracking.codec_eq, tracking.readcb, tracking.later, tracking.follows⟩

/-- An iteration of the decode loop that has found a message. -/
theorem deliver_current {fuel size : ℕ} (msg : Bytes)
    (loops : Meets (Tracked codec w₀) (decodeLoop σ self fuel) (fun _ => Current codec w₀)
      (Cut codec w₀)) :
    Meets (Consuming codec w₀ size)
      (do callUser σ self (.msg msg); consume .input size; decodeLoop σ self fuel)
      (fun _ => Current codec w₀) (Cut codec w₀) := by
  have calls : Meets (Consuming codec w₀ size) (callUser σ self (.msg msg)) _ _ :=
    callMsg_consuming mannerly msg size
  mvcgen [consume, calls, loops]
  case vc2 w consuming rest consumed _ => exact consuming.consumed consumed
  case vc3 w consuming short =>
    exact absurd (Buffer.consume_eq_none.mp short) (not_lt.mpr consuming.1)

include sound

/-- **The decode loop delivers what it finds, once and in order.** -/
theorem decodeLoop_current (keeping : Keeping codec w₀ self) (fuel : ℕ) :
    Meets (Tracked codec w₀) (decodeLoop σ self fuel) (fun _ => Current codec w₀)
      (Cut codec w₀) := by
  induction fuel with
  | zero =>
      mvcgen [decodeLoop]
      case vc1 w tracked => exact tracked.cut (by decide)
  | succ fuel ih =>
      refine meets_iff.mpr fun w tracked => ?_
      rcases found : codec.tryDecode w.con.input.contents with ⟨r, view⟩
      rcases lt_trichotomy r 0 with malformed | rfl | positive
      · have ran : (decodeLoop σ self (fuel + 1)).run w = (closeChannel self).run w := by
          simp [decodeLoop, tracked.codec_eq, found, malformed]
        rw [ran]
        refine meets_iff.mp (closeChannel_current keeping) w ⟨tracked, fun _ => ?_⟩
        rw [found]
        exact malformed.le
      · have ran : (decodeLoop σ self (fuel + 1)).run w = .ok () w := by
          simp [decodeLoop, tracked.codec_eq, found]
        rw [ran]
        exact ⟨tracked, fun _ => by rw [found]⟩
      · obtain ⟨size, rfl⟩ := Int.eq_ofNat_of_zero_le positive.le
        have some_bytes : 0 < size := by exact_mod_cast positive
        have not_negative : ¬ (size : ℤ) < 0 := not_lt.mpr positive.le
        have ran : (decodeLoop σ self (fuel + 1)).run w =
            (do callUser σ self (.msg (view.of w.con.input.contents))
                consume .input size
                decodeLoop σ self fuel : Act υ Unit).run { w with seen := { w.seen with
              events := .msgCalled (view.of w.con.input.contents) :: w.seen.events } } := by
          simp [decodeLoop, tracked.codec_eq, found, some_bytes, not_negative, record]
        rw [ran]
        have fits : size ≤ w.con.input.size := by
          have bound := sound.bounded w.con.input.contents
          simp only [found, Buffer.length_contents] at bound
          exact_mod_cast bound
        exact meets_iff.mp (deliver_current mannerly _ ih) _ (tracked.called found some_bytes fits)

theorem callRead_current (keeping : Keeping codec w₀ self) :
    Meets (Tracked codec w₀) (callRead σ self) (fun _ => Current codec w₀) (Cut codec w₀) := by
  have decodes := decodeLoop_current mannerly sound keeping
  refine meets_iff.mpr fun w tracked => ?_
  have readcb := tracked.readcb
  cases set : w.con.readcb with
  | none =>
      have ran : (callRead σ self).run w = .ok () w := by simp [callRead, set]
      rw [ran]
      exact ⟨tracked, fun still => by rw [set] at still; cases still⟩
  | some kind =>
      cases kind with
      | read => exact absurd set readcb
      | msg =>
          have ran : (callRead σ self).run w =
              (decodeLoop σ self (w.con.input.size + 1)).run w := by simp [callRead, set]
          rw [ran]
          exact meets_iff.mp (decodes _) w tracked

end Callbacks

/-! ## The handlers -/

section Handlers

variable {self : Act υ Unit} {σ : UserCode υ} (mannerly : Mannerly σ) (sound : codec.Sound)
  (keeping : Keeping codec w₀ self)

include mannerly sound keeping

theorem drainInput_current :
    Meets (Tracked codec w₀) (drainInput σ self) (fun _ => Current codec w₀) (Cut codec w₀) := by
  have reads := callRead_current mannerly sound keeping
  mvcgen [drainInput, setDraining, reads]
  case vc1 w tracked _ _ => exact Aside.tracked (w := w) ⟨rfl, .inl rfl, rfl, rfl, rfl, rfl⟩ tracked
  case vc2 w current _ => exact Aside.current (w := w) ⟨rfl, .inl rfl, rfl, rfl, rfl, rfl⟩ current
  case vc3 w tracked idle =>
    refine ⟨tracked, fun set => ?_⟩
    have nothing : w.con.input.size = 0 := by simpa [set] using idle
    rw [Buffer.contents_eq_nil_iff.mpr nothing, sound.nothing]

omit mannerly sound keeping in
theorem cancelTimeout_current : Keeping codec w₀ (cancelTimeout : Act υ Unit) := by
  mvcgen [cancelTimeout, modifyBase]
  case vc1 w current _ _ _ _ => exact Aside.current (w := w) ⟨rfl, .inl rfl, rfl, rfl, rfl, rfl⟩ current
  case vc2 w current _ _ => exact current.cut (by simp)

omit sound in
theorem callState_current : Keeping codec w₀ (callState σ self) :=
  (current_endures keeping).callState_kept σ (fun w _ => mannerly.spares _ w)
    (fun w current _ => Aside.current (w := w) ⟨rfl, .inl rfl, rfl, rfl, rfl, rfl⟩ current)
    fun _ current _ => current

omit mannerly sound in
theorem deleteChannel_current : Keeping codec w₀ (deleteChannel self) := by
  have closes := closeChannel_current keeping
  mvcgen [deleteChannel, modifyCon, closes]
  case vc2 w current _ => exact Aside.current (w := w) ⟨rfl, .inl rfl, rfl, rfl, rfl, rfl⟩ current

omit mannerly sound in
theorem detachChannel_current : Keeping codec w₀ (detachChannel self) := by
  mvcgen [detachChannel, closeFd, record, modifyCon, modifyBase, keeping]
  case vc1 w current _ _ _ => exact Aside.current (w := w) ⟨rfl, .inl rfl, rfl, rfl, rfl, rfl⟩ current
  case vc2 w current _ _ _ _ _ _ _ => exact Aside.current (w := w) ⟨rfl, .inl rfl, rfl, rfl, rfl, rfl⟩ current
  case vc3 w current _ _ _ _ _ => exact Aside.current (w := w) ⟨rfl, .inl rfl, rfl, rfl, rfl, rfl⟩ current

omit mannerly sound in
theorem reconnect_current : Keeping codec w₀ (reconnect self) := by
  have deletes := deleteChannel_current keeping
  mvcgen [reconnect, record, deletes]
  case vc1 w current _ _ _ => exact Aside.current (w := w) ⟨rfl, .inl rfl, rfl, rfl, rfl, rfl⟩ current

omit mannerly sound keeping in
theorem unregisterIdles_current (ids : List IdleId) :
    Keeping codec w₀ (unregisterIdles ids : Act υ Unit) := by
  induction ids with
  | nil => mvcgen [unregisterIdles]
  | cons id rest ih =>
      mvcgen [unregisterIdles, handyUnregisterIdle, record, ih]
      case vc1 w current _ _ found _ =>
        obtain ⟨idleConns, rfl⟩ := EventBase.unregisterIdle_frame found
        exact Aside.current (w := w) ⟨rfl, .inl rfl, rfl, rfl, rfl, rfl⟩ current
      case vc2 w current _ _ =>
        exact Current.cut (Aside.current (w := w) ⟨rfl, .inl rfl, rfl, rfl, rfl, rfl⟩ current) (by decide)

/-- **`cleanup` delivers what is left of the stream.** -/
theorem cleanup_current :
    Meets (Tracked codec w₀) (cleanup σ self) (fun _ => Current codec w₀) (Cut codec w₀) := by
  have drains := drainInput_current mannerly sound keeping
  have cancels : Keeping codec w₀ (cancelTimeout : Act υ Unit) := cancelTimeout_current
  have calls := callState_current mannerly keeping
  have reconnects := reconnect_current keeping
  have unregisters : ∀ ids, Keeping codec w₀ (unregisterIdles ids : Act υ Unit) :=
    unregisterIdles_current
  have detaches := detachChannel_current keeping
  mvcgen [cleanup, modifyCon, drains, cancels, calls, reconnects, unregisters, detaches]
  case vc2 w current _ => exact Aside.current (w := w) ⟨rfl, .inl rfl, rfl, rfl, rfl, rfl⟩ current
  case vc6 w current _ => exact Aside.current (w := w) ⟨rfl, .inr rfl, rfl, rfl, rfl, rfl⟩ current

omit mannerly sound keeping in
theorem completeHandshake_current : Keeping codec w₀ (completeHandshake : Act υ Unit) := by
  mvcgen [completeHandshake, enableReadWrite, updateChannel, getChannel, record, modifyCon,
    modifyBase]
  case vc1 w current _ _ _ _ _ _ _ _ _ _ => exact Aside.current (w := w) ⟨rfl, .inl rfl, rfl, rfl, rfl, rfl⟩ current
  case vc2 w current _ _ _ _ _ _ _ =>
    exact Current.cut (Aside.current (w := w) ⟨rfl, .inl rfl, rfl, rfl, rfl, rfl⟩ current) (by decide)
  case vc3 w current _ _ =>
    exact Current.cut (Aside.current (w := w) ⟨rfl, .inl rfl, rfl, rfl, rfl, rfl⟩ current) (by decide)

theorem handleHandshake_current :
    Meets (Current codec w₀) (handleHandshake σ self) (fun _ => Current codec w₀)
      (Cut codec w₀) := by
  have calls := callState_current mannerly keeping
  have cleans := cleanup_current mannerly sound keeping
  have completes : Keeping codec w₀ (completeHandshake : Act υ Unit) := completeHandshake_current
  mvcgen [handleHandshake, getChannel, poll, completes, calls, cleans]
  case vc1 w current _ _ => exact current.cut (by decide)
  case vc4 w current _ _ _ _ _ _ => exact current.1
  case vc7 w current _ _ _ _ _ _ _ => exact current.1
  case vc8 w current _ _ _ _ _ _ _ _ _ _ => exact Aside.current (w := w) ⟨rfl, .inl rfl, rfl, rfl, rfl, rfl⟩ current
  case vc10 w current _ _ _ _ _ _ _ _ _ _ => exact Aside.tracked (w := w) ⟨rfl, .inl rfl, rfl, rfl, rfl, rfl⟩ current.1
  case vc11 w current _ _ _ => exact current.cut (by decide)

omit mannerly sound keeping in
theorem updateIdles_tracked (ids : List IdleId) :
    Meets (Tracked codec w₀) (updateIdles ids : Act υ Unit) (fun _ => Tracked codec w₀)
      (Cut codec w₀) := by
  induction ids with
  | nil => mvcgen [updateIdles]
  | cons id rest ih =>
      mvcgen [updateIdles, handyUpdateIdle, ih]
      case vc1 w tracked _ found _ =>
        obtain ⟨idleConns, rfl⟩ := EventBase.updateIdle_frame found
        exact Aside.tracked (w := w) ⟨rfl, .inl rfl, rfl, rfl, rfl, rfl⟩ tracked
      case vc2 w tracked _ => exact tracked.cut (by decide)

end Handlers

/-- The reading loop appends what it takes from the peer. -/
theorem readLoop_spec (reads : List ReadOutcome) (peer : Bytes) (input : Buffer) :
    ∃ received, peer = received ++ (readLoop reads peer input).2.2.1 ∧
      (readLoop reads peer input).2.2.2.contents = input.contents ++ received := by
  fun_induction readLoop reads peer input with
  | case1 peer input => exact ⟨[], rfl, by simp⟩
  | case2 reads peer input room ih => simpa [room] using ih
  | case3 reads peer input room => exact ⟨[], rfl, by simp [room]⟩
  | case4 reads peer input room => exact ⟨[], rfl, by simp [room]⟩
  | case5 reads peer input room => exact ⟨[], rfl, by simp [room]⟩
  | case6 reads peer input room => exact ⟨[], rfl, by simp [room]⟩
  | case7 reads input room => exact ⟨[], rfl, by simp [room]⟩
  | case8 reads peer input room n _ _ rd ih =>
      obtain ⟨received, split, contents⟩ := ih
      refine ⟨peer.take rd ++ received, ?_, ?_⟩
      · rw [List.append_assoc, ← split, List.take_append_drop]
      · rw [contents, Buffer.contents_fill, List.append_assoc]
        simp [room]

section Reading

variable {self : Act υ Unit} {σ : UserCode υ} (mannerly : Mannerly σ) (sound : codec.Sound)

/-- What has been read joins the stream. -/
theorem Tracked.read (tracked : Tracked codec w₀ w) (reads : List ReadOutcome) :
    Tracked codec w₀ { w with
      net := { w.net with
        reads := (readLoop reads w.net.peer w.con.input).2.1
        peer := (readLoop reads w.net.peer w.con.input).2.2.1 }
      con := { w.con with input := (readLoop reads w.net.peer w.con.input).2.2.2 } } := by
  obtain ⟨new, split, contents⟩ := readLoop_spec reads w.net.peer w.con.input
  refine ⟨tracked.codec_eq, tracked.readcb, tracked.later, fun same => ?_⟩
  obtain ⟨received, msgs, peer, delivered, decodes⟩ := tracked.follows same
  refine ⟨received ++ new, msgs, ?_, delivered, ?_⟩
  · rw [List.append_assoc, ← split, peer]
  · show codec.Decodes _ _ (readLoop reads w.net.peer w.con.input).2.2.2.contents
    rw [contents, ← List.append_assoc]
    exact decodes.append new

include mannerly sound

theorem readConnected_current (keeping : Keeping codec w₀ self) :
    Keeping codec w₀ (readConnected σ self) := by
  have cleans := cleanup_current mannerly sound keeping
  have updates : ∀ ids, Meets (Tracked codec w₀) (updateIdles ids : Act υ Unit) _ _ :=
    updateIdles_tracked
  have reads := callRead_current mannerly sound keeping
  mvcgen [readConnected, getChannel, modifyCon, cleans, updates, reads]
  case vc1 w current _ _ _ _ =>
    have room : w.con.input.makeRoom.contents = w.con.input.contents := Buffer.contents_makeRoom _
    exact Aside.tracked (w := w) ⟨rfl, .inl rfl, room, rfl, rfl, rfl⟩ current.1
  case vc2 w current _ _ _ _ _ => exact current.1.read w.net.reads
  case vc3 w current _ _ _ _ _ => exact current.1.read w.net.reads
  case vc5 w tracked drained =>
    refine ⟨tracked, fun _ => ?_⟩
    rw [Buffer.contents_eq_nil_iff.mpr (not_not.mp drained), sound.nothing]
  case vc6 w current _ => exact current.cut (by decide)

theorem handleReadOnce_current (keeping : Keeping codec w₀ self) :
    Keeping codec w₀ (handleReadOnce σ self) := by
  have shakes := handleHandshake_current mannerly sound keeping
  have reads := readConnected_current mannerly sound keeping
  mvcgen [handleReadOnce, shakes, reads]

/-- **The read handler delivers what it reads**, once and in order. -/
theorem handleRead_current (depth : ℕ) : Keeping codec w₀ (handleRead σ depth) := by
  induction depth with
  | zero =>
      mvcgen [handleRead]
      case vc1 w current => exact current.cut (by decide)
  | succ depth ih => exact handleReadOnce_current mannerly sound ih

omit mannerly sound in
/-- Writing what was queued has nothing to do with messages. -/
theorem flushes_current {program : Act υ Unit} (moves : Moves Sends program)
    (flushes : ∀ w, Meets (fun w' => w' = w) program (fun _ => Flushed w) (FlushStops w)) :
    Keeping codec w₀ program := by
  refine meets_iff.mpr fun w current => ?_
  have both := (moves w).and (flushes w)
  cases ran : program.run w with
  | ok _ w' =>
      obtain ⟨sends, flushed⟩ := both.ok ⟨.refl w, rfl⟩ ran
      exact (Aside.of_sends sends flushed.1).current current
  | error fault w' =>
      obtain ⟨sends, stop, input⟩ := both.fault ⟨.refl w, rfl⟩ ran
      refine ((Aside.of_sends sends input).current current).cut ?_
      rcases stop with rfl | ⟨rfl, -⟩ <;> decide

theorem handleWrite_current (keeping : Keeping codec w₀ self) :
    Keeping codec w₀ (handleWrite σ self) := by
  have shakes := handleHandshake_current mannerly sound keeping
  have calls := (current_endures keeping).callUser_kept σ fun w _ => mannerly.spares .writable w
  have flushes : Keeping codec w₀ (flushOutput : Act υ Unit) :=
    flushes_current flushOutput_sends flushOutput_flushed
  have stops : Keeping codec w₀ (stopWriting : Act υ Unit) :=
    flushes_current stopWriting_sends stopWriting_flushed
  mvcgen [handleWrite, shakes, flushes, calls, stops]

end Reading

/-! ## Connecting -/

section Connecting

variable {self : Act υ Unit} (keeping : Keeping codec w₀ self)

include keeping

theorem attach_current (fd : ℤ) : Keeping codec w₀ (attach self fd) := by
  have deletes := deleteChannel_current keeping
  mvcgen [attach, modifyCon, record, deletes]
  case vc1 w current _ _ _ => exact current.cut (by decide)
  case vc2 w current _ _ _ _ => exact Aside.current (w := w) ⟨rfl, .inl rfl, rfl, rfl, rfl, rfl⟩ current
  case vc3 w current _ _ => exact current.cut (by decide)
  case vc4 w current _ _ _ _ _ =>
    refine ⟨⟨current.1.codec_eq, current.1.readcb, ?_, fun same => ?_⟩, current.2⟩
    · rw [attempts_attached]
      exact current.1.later.trans (Nat.le_succ _)
    · rw [attempts_attached] at same
      have one_more : attempts w.seen.events + 1 = attempts w₀.seen.events := same
      have later := current.1.later
      omega

theorem connect_current (port timeout : ℤ) : Keeping codec w₀ (connect self port timeout) := by
  have attaches := attach_current keeping
  mvcgen [connect, attaches]
  case vc1 w current _ _ _ => exact current.cut (by decide)
  case vc2 w current _ _ _ _ _ => exact Aside.current (w := w) ⟨rfl, .inl rfl, rfl, rfl, rfl, rfl⟩ current
  case vc3 w current _ => exact Aside.current (w := w) ⟨rfl, .inl rfl, rfl, rfl, rfl, rfl⟩ current

end Connecting

/-! ## Events -/

/-- The event leaves `input_` to the decode loop. -/
def Spares (event : Event) : Prop := ∀ op, event = .call op → op.sparesInput = true

section Events

variable {σ : UserCode υ} (mannerly : Mannerly σ) (sound : codec.Sound)

include mannerly sound

theorem runTask_current (task : BaseTask) : Keeping codec w₀ (runTask σ task) := by
  have keeping : Keeping codec w₀ (onClose σ) := handleRead_current mannerly sound maxNesting
  have closes := closeChannel_current keeping
  have connects := connect_current keeping
  cases task with
  | closeChannel => mvcgen [runTask, closes]
  | connectTimeout => mvcgen [runTask, closes]
  | reconnect =>
      mvcgen [runTask, modifyBase, connects]
      case vc1 w current _ _ => exact Aside.current (w := w) ⟨rfl, .inl rfl, rfl, rfl, rfl, rfl⟩ current
  | callIdles => mvcgen [runTask]

/-- **Every event delivers what it reads**, once and in order. -/
theorem handleEvent_current {event : Event} (spares : Spares event) :
    Keeping codec w₀ (handleEvent σ event) := by
  have keeping : Keeping codec w₀ (onClose σ) := handleRead_current mannerly sound maxNesting
  have runs : ∀ task, Keeping codec w₀ (runTask σ task) := runTask_current mannerly sound
  have closes := closeChannel_current keeping
  cases event with
  | readable =>
      have reads : Keeping codec w₀ (handleRead σ (maxNesting + 1)) :=
        handleRead_current mannerly sound _
      mvcgen [handleEvent, reads]
  | writable =>
      have writes := handleWrite_current mannerly sound keeping
      mvcgen [handleEvent, writes]
  | timer =>
      mvcgen [handleEvent, modifyBase, runs]
      case vc2 w current _ _ _ _ _ _ => exact current.cut (by simp)
      case vc3 w current _ _ _ _ _ _ _ _ => exact Aside.current (w := w) ⟨rfl, .inl rfl, rfl, rfl, rfl, rfl⟩ current
  | task =>
      mvcgen [handleEvent, modifyBase, runs]
      case vc2 w current _ _ _ _ => exact Aside.current (w := w) ⟨rfl, .inl rfl, rfl, rfl, rfl, rfl⟩ current
  | call op => exact (current_endures keeping).runOp_kept (spares op rfl)
  | elapse milli =>
      mvcgen [handleEvent, modifyBase]
      case vc1 w current _ => exact Aside.current (w := w) ⟨rfl, .inl rfl, rfl, rfl, rfl, rfl⟩ current
  | loopExit =>
      have cleans := cleanup_current mannerly sound keeping
      mvcgen [handleEvent, modifyBase, record, cleans]
      case vc1 w current _ _ _ _ => exact Aside.tracked (w := w) ⟨rfl, .inl rfl, rfl, rfl, rfl, rfl⟩ current.1
      case vc2 w current _ _ _ => exact Aside.current (w := w) ⟨rfl, .inl rfl, rfl, rfl, rfl, rfl⟩ current
  | destroyPoller => mvcgen [handleEvent, closes]

end Events

end TcpConn

end Handy
