import Handy.Conn
import Handy.Lib.Faulting

/-!
# What the send operations keep

Between operations the connection is steady: what the socket has accepted and what is queued
in `output_` are what was handed over, the poller waits to write while there is output, and it
knows the channel while that is open (`Steady`). The loop of `isend` is followed through the
answers of `write`, and from it the two ways of sending (`send_meets`, `sendBytes_meets`).
-/

set_option autoImplicit false
set_option mvcgen.warning false

namespace Handy

namespace ConnEvent

/-- A call of `send(Buffer &)` with something to send, on a closed descriptor that is not
waiting to write. -/
def sendsOnClosed : ConnEvent → Bool
  | .bufferSent fd writeEnabled size => fd < 0 && !writeEnabled && size != 0
  | _ => false

/-- A call of `updateChannel` on a channel that is closed or not live. -/
def updatesDead : ConnEvent → Bool
  | .updated fd live => fd < 0 || !live
  | _ => false

/-- A failed write, or a handshake that completes with output pending. -/
def disturbs : ConnEvent → Bool
  | .writeFailed => true
  | .handshaken pending => pending != 0
  | _ => false

@[simp] theorem sendsOnClosed_updated (fd : ℤ) (live : Bool) :
    (updated fd live).sendsOnClosed = false := rfl

@[simp] theorem updatesDead_updated (fd : ℤ) (live : Bool) :
    (updated fd live).updatesDead = (decide (fd < 0) || !live) := rfl

@[simp] theorem disturbs_updated (fd : ℤ) (live : Bool) : (updated fd live).disturbs = false := rfl

@[simp] theorem sendsOnClosed_bufferSent (fd : ℤ) (writeEnabled : Bool) (size : ℕ) :
    (bufferSent fd writeEnabled size).sendsOnClosed =
      (decide (fd < 0) && !writeEnabled && size != 0) := rfl

@[simp] theorem updatesDead_bufferSent (fd : ℤ) (writeEnabled : Bool) (size : ℕ) :
    (bufferSent fd writeEnabled size).updatesDead = false := rfl

@[simp] theorem disturbs_bufferSent (fd : ℤ) (writeEnabled : Bool) (size : ℕ) :
    (bufferSent fd writeEnabled size).disturbs = false := rfl

/-- An event that none of the three tests picks out. -/
def Neutral (event : ConnEvent) : Prop :=
  event.sendsOnClosed = false ∧ event.updatesDead = false ∧ event.disturbs = false

end ConnEvent

namespace TcpConn

variable {υ : Type}

/-- The poller knows the connection's channel while it is open. -/
def Known (w : World υ) : Prop :=
  ∀ ch, w.con.channel = some ch → 0 ≤ ch.fd → w.base.poller.Knows ch

/-- Nothing recorded so far disturbs the output queue. -/
def Undisturbed (w : World υ) : Prop := w.seen.events.any ConnEvent.disturbs = false

/-- While the channel is open, output is waited for. -/
def Interested (w : World υ) : Prop :=
  ∀ ch, w.con.channel = some ch → 0 ≤ ch.fd → w.con.output.contents ≠ [] → ch.writeEnabled = true

/-- Handlers can be nested `depth` times: once when the channel is closed, twice while it
is open. -/
def Nestable (depth : ℕ) (w : World υ) : Prop :=
  1 ≤ depth ∧ ∀ ch, w.con.channel = some ch → 0 ≤ ch.fd → 2 ≤ depth

/-- What holds between the operations on a connection. -/
structure Steady (depth : ℕ) (w : World υ) : Prop where
  known : Known w
  nestable : Nestable depth w
  updates : w.seen.events.any ConnEvent.sendsOnClosed = w.seen.events.any ConnEvent.updatesDead
  flow : Undisturbed w → w.con.channel.isSome →
    w.seen.wire ++ w.con.output.contents = w.seen.handed
  interested : Undisturbed w → Interested w

/-- What holds when a program stops. -/
structure Halted (depth : ℕ) (fault : Fault) (w : World υ) : Prop extends Steady depth w where
  not_nesting : fault ≠ .nesting
  modifies : fault = .epollCtlMod → w.seen.events.any ConnEvent.updatesDead = true

/-! ## Writing to the socket -/

theorem writeLoop_spec (writes : List WriteOutcome) (len : ℕ) :
    (writeLoop writes len).1 ≤ len ∧
      ((writeLoop writes len).2.1 = .done → (writeLoop writes len).1 = len) := by
  fun_induction writeLoop writes len with
  | case1 writes => simp
  | case2 len => simp
  | case3 n writes len wd sended stop left eq ih =>
      rw [eq] at ih
      obtain ⟨bound, all⟩ := ih
      refine ⟨?_, fun done => ?_⟩
      · simp only at bound ⊢
        omega
      · have := all done
        simp only at this ⊢
        omega
  | case4 writes len ih => exact ih
  | case5 writes len => simp
  | case6 writes len => simp

/-- The channel with its write interest set. -/
def setWrite (ch : Channel) (enable : Bool) : Channel :=
  { ch with events := { ch.events with write := enable } }

@[simp] theorem setWrite_fd (ch : Channel) (enable : Bool) : (setWrite ch enable).fd = ch.fd := rfl

@[simp] theorem setWrite_writeEnabled (ch : Channel) (enable : Bool) :
    (setWrite ch enable).writeEnabled = enable := rfl

@[simp] theorem setWrite_self (ch : Channel) : setWrite ch ch.writeEnabled = ch := rfl

@[simp] theorem setWrite_setWrite (ch : Channel) (first second : Bool) :
    setWrite (setWrite ch first) second = setWrite ch second := rfl

/-- The state in which `enableWrite` calls the poller. -/
def updating (w : World υ) (ch : Channel) (enable : Bool) : World υ :=
  { w with
    con := { w.con with channel := some (setWrite ch enable) }
    seen := { w.seen with
      events := .updated ch.fd (decide (ch.id ∈ w.base.poller.liveChannels)) :: w.seen.events } }

theorem enableWrite_run {w : World υ} {ch : Channel} (channel : w.con.channel = some ch)
    (enable : Bool) :
    (enableWrite enable).run w =
      match w.base.poller.updateChannel (setWrite ch enable) with
      | some poller => .ok () { updating w ch enable with base := { w.base with poller := poller } }
      | none => .error .epollCtlMod (updating w ch enable) := by
  unfold setWrite
  simp only [enableWrite, getChannel, updateChannel, record, modifyCon, modifyBase, updating,
    setWrite, channel, EStateM.run_bind, EStateM.run_get, EStateM.run_pure, EStateM.run_modify]
  cases w.base.poller.updateChannel _ <;> rfl

/-- The update of a known channel succeeds. -/
theorem enableWrite_known {w : World υ} {ch : Channel} (channel : w.con.channel = some ch)
    (knows : w.base.poller.Knows ch) (enable : Bool) :
    ∃ poller : Poller, poller.Knows ch ∧ (enableWrite enable).run w = .ok () { w with
        con := { w.con with channel := some (setWrite ch enable) }
        base := { w.base with poller := poller }
        seen := { w.seen with events := .updated ch.fd true :: w.seen.events } } := by
  have same : w.base.poller.Knows (setWrite ch enable) := knows.of_same rfl rfl
  obtain ⟨poller, updates, knows'⟩ := same.updateChannel
  refine ⟨poller, knows'.of_same rfl rfl, ?_⟩
  simp [enableWrite_run channel, updates, updating, knows.1]

/-- The state after a call of `isend`. -/
def written (w : World υ) (ch : Channel) (poller : Poller) (writes : List WriteOutcome)
    (accepted : Bytes) (events : List ConnEvent) : World υ :=
  { w with
    con := { w.con with channel := some ch }
    base := { w.base with poller := poller }
    net := { w.net with writes := writes }
    seen := { w.seen with wire := w.seen.wire ++ accepted, events := events ++ w.seen.events } }

/-- What `isend` did: the socket accepted `sended` bytes, and what is left is waited for
unless the channel is closed or the write failed. -/
def Isent (w : World υ) (ch : Channel) (buf : Bytes) (sended : ℕ) (w' : World υ) : Prop :=
  ∃ (enabled : Bool) (poller : Poller) (writes : List WriteOutcome) (events : List ConnEvent),
    w' = written w (setWrite ch enabled) poller writes (buf.take sended) events ∧
    sended ≤ buf.length ∧
    (0 ≤ ch.fd → poller.Knows ch) ∧
    (ch.writeEnabled = true → enabled = true) ∧
    (ch.fd < 0 → sended = 0 ∧ enabled = ch.writeEnabled) ∧
    (0 ≤ ch.fd → sended < buf.length → enabled = true ∨ .writeFailed ∈ events) ∧
    ∀ event ∈ events, event = .writeFailed ∨ (0 ≤ ch.fd ∧ event = .updated ch.fd true)

/-- `isend` on a channel that is known while it is open does not fault. -/
theorem isend_run {w : World υ} {ch : Channel} (channel : w.con.channel = some ch)
    (knows : 0 ≤ ch.fd → w.base.poller.Knows ch) (buf : Bytes) :
    ∃ sended w', (isend buf).run w = .ok sended w' ∧ Isent w ch buf sended w' := by
  have own : { w.con with channel := some ch } = w.con := by rw [← channel]
  have unchanged : w = written w (setWrite ch ch.writeEnabled) w.base.poller w.net.writes
      (buf.take 0) [] := by
    simp [written, own]
  by_cases nothing : buf.length = 0
  · refine ⟨0, w, by simp [isend, nothing], ch.writeEnabled, w.base.poller, w.net.writes, [],
      unchanged, by omega, knows, by simp, by simp, by omega, by simp⟩
  by_cases shut : ch.fd < 0
  · refine ⟨0, w, by simp [isend, nothing, getChannel, channel, shut], ch.writeEnabled,
      w.base.poller, w.net.writes, [], unchanged, by omega, knows, by simp, by simp,
      by omega, by simp⟩
  obtain ⟨le, all⟩ := writeLoop_spec w.net.writes buf.length
  rcases loop : writeLoop w.net.writes buf.length with ⟨sended, stop, writes⟩
  rw [loop] at le all
  have opened : 0 ≤ ch.fd := by omega
  cases stop with
  | done =>
      have complete : sended = buf.length := all rfl
      refine ⟨sended, written w ch w.base.poller writes (buf.take sended) [], ?_,
        ch.writeEnabled, w.base.poller, writes, [], rfl, le, knows, by simp, by omega, by omega,
        by simp⟩
      simp [isend, nothing, getChannel, channel, shut, loop, endWrite, written, own]
  | failed =>
      refine ⟨sended, written w ch w.base.poller writes (buf.take sended) [.writeFailed], ?_,
        ch.writeEnabled, w.base.poller, writes, [.writeFailed], rfl, le, knows, by simp, by omega,
        by simp, by simp⟩
      simp [isend, nothing, getChannel, channel, shut, loop, endWrite, record, written, own]
  | again =>
      cases waiting : ch.writeEnabled with
      | true =>
          refine ⟨sended, written w ch w.base.poller writes (buf.take sended) [], ?_,
            ch.writeEnabled, w.base.poller, writes, [], rfl, le, knows, by simp, by omega,
            by simp [waiting], by simp⟩
          simp [isend, nothing, getChannel, channel, shut, loop, endWrite, waiting, written, own]
      | false =>
          obtain ⟨poller, knows', ran⟩ := enableWrite_known
            (w := written w ch w.base.poller writes (buf.take sended) []) rfl (knows opened) true
          refine ⟨sended, written w (setWrite ch true) poller writes (buf.take sended)
              [.updated ch.fd true], ?_, true, poller, writes, [.updated ch.fd true], rfl, le,
            fun _ => knows', by simp, by omega, by simp, by simp [opened]⟩
          simp only [written, own, List.nil_append] at ran
          simp [isend, nothing, getChannel, channel, shut, loop, endWrite, waiting, ran, written]

section Written

variable (w : World υ) (ch' : Channel) (poller : Poller) (writes : List WriteOutcome)
  (accepted : Bytes) {events : List ConnEvent}

theorem readBuffer_written (ref : BufferRef) :
    readBuffer ref (written w ch' poller writes accepted events) = readBuffer ref w := by
  cases ref <;> rfl

/-- What `isend` records is neither a send nor a call on a dead channel. -/
theorem any_written {ch : Channel} (quiet : ∀ event ∈ events,
      event = .writeFailed ∨ (0 ≤ ch.fd ∧ event = .updated ch.fd true)) :
    (written w ch' poller writes accepted events).seen.events.any ConnEvent.sendsOnClosed =
        w.seen.events.any ConnEvent.sendsOnClosed ∧
      (written w ch' poller writes accepted events).seen.events.any ConnEvent.updatesDead =
        w.seen.events.any ConnEvent.updatesDead := by
  have none_sent : events.any ConnEvent.sendsOnClosed = false := by
    rw [List.any_eq_false]
    intro event member
    rcases quiet event member with rfl | ⟨-, rfl⟩ <;> simp [ConnEvent.sendsOnClosed]
  have none_dead : events.any ConnEvent.updatesDead = false := by
    rw [List.any_eq_false]
    intro event member
    rcases quiet event member with rfl | ⟨opened, rfl⟩
    · simp [ConnEvent.updatesDead]
    · simp [ConnEvent.updatesDead, opened]
  simp [written, none_sent, none_dead]

theorem undisturbed_written {w : World υ} {ch : Channel} {poller : Poller}
    {writes : List WriteOutcome} {accepted : Bytes}
    (undisturbed : Undisturbed (written w ch poller writes accepted events)) :
    Undisturbed w ∧ .writeFailed ∉ events := by
  simp only [Undisturbed, written, List.any_append, Bool.or_eq_false_iff] at undisturbed
  refine ⟨undisturbed.2, fun failed => ?_⟩
  have := List.any_eq_false.mp undisturbed.1 _ failed
  simp [ConnEvent.disturbs] at this

end Written

theorem getChannel_absent {w : World υ} (absent : w.con.channel = none) :
    (getChannel).run w = .error .nullChannel w := by
  simp only [getChannel, absent, EStateM.run_bind, EStateM.run_get]
  rfl

/-! ## Sending a buffer -/

/-- The bytes of the caller's buffer that are not in `output_`. -/
def pending (ref : BufferRef) (w : World υ) : Bytes :=
  if ref = .output then [] else (readBuffer ref w).contents

@[simp] theorem absorb_channel (ref : BufferRef) (w : World υ) :
    (absorb ref w).con.channel = w.con.channel := by
  cases ref <;> rfl

@[simp] theorem absorb_base (ref : BufferRef) (w : World υ) : (absorb ref w).base = w.base := by
  cases ref <;> rfl

@[simp] theorem absorb_seen (ref : BufferRef) (w : World υ) : (absorb ref w).seen = w.seen := by
  cases ref <;> rfl

@[simp] theorem absorb_output (ref : BufferRef) (w : World υ) :
    (absorb ref w).con.output.contents = w.con.output.contents ++ pending ref w := by
  cases ref <;> simp [absorb, pending, readBuffer, writeBuffer]

@[simp] theorem pending_absorb (ref : BufferRef) (w : World υ) : pending ref (absorb ref w) = [] := by
  cases ref <;> simp [absorb, pending, readBuffer, writeBuffer]

@[simp] theorem writeBuffer_channel (ref : BufferRef) (buffer : Buffer) (w : World υ) :
    (writeBuffer ref buffer w).con.channel = w.con.channel := by
  cases ref <;> rfl

@[simp] theorem writeBuffer_base (ref : BufferRef) (buffer : Buffer) (w : World υ) :
    (writeBuffer ref buffer w).base = w.base := by
  cases ref <;> rfl

@[simp] theorem writeBuffer_seen (ref : BufferRef) (buffer : Buffer) (w : World υ) :
    (writeBuffer ref buffer w).seen = w.seen := by
  cases ref <;> rfl

theorem writeBuffer_output {ref : BufferRef} (apart : ref ≠ .output) (buffer : Buffer)
    (w : World υ) : (writeBuffer ref buffer w).con.output = w.con.output := by
  cases ref with
  | output => exact absurd rfl apart
  | arg => rfl
  | input => rfl

@[simp] theorem readBuffer_writeBuffer (ref : BufferRef) (buffer : Buffer) (w : World υ) :
    readBuffer ref (writeBuffer ref buffer w) = buffer := by
  cases ref <;> rfl

/-- A call of `send(Buffer &)` is on its way. -/
structure Sending (depth : ℕ) (ref : BufferRef) (ch : Channel) (w : World υ) : Prop where
  channel : w.con.channel = some ch
  known : Known w
  nestable : Nestable depth w
  updates : w.seen.events.any ConnEvent.sendsOnClosed =
    (w.seen.events.any ConnEvent.updatesDead ||
      (ch.fd < 0 && !ch.writeEnabled && (readBuffer ref w).size != 0))
  flow : Undisturbed w →
    w.seen.wire ++ (w.con.output.contents ++ pending ref w) = w.seen.handed
  interested : ref ≠ .output → Undisturbed w → Interested w

theorem sendQueued_run {depth : ℕ} {ref : BufferRef} {ch : Channel} {w : World υ}
    (sending : Sending depth ref ch w) :
    ∃ w', (sendQueued ref).run w = .ok () w' ∧ Sending depth ref ch w' ∧
      (ch.writeEnabled = true → pending ref w' = []) := by
  cases waiting : ch.writeEnabled with
  | false =>
      exact ⟨w, by simp [sendQueued, getChannel, sending.channel, waiting], sending, by simp⟩
  | true =>
      refine ⟨absorb ref w, by simp [sendQueued, getChannel, sending.channel, waiting], ?_, by simp⟩
      refine ⟨by simpa using sending.channel, ?_, ?_, ?_, ?_, ?_⟩
      · simpa [Known] using sending.known
      · simpa [Nestable] using sending.nestable
      · simpa [waiting] using sending.updates
      · simpa [Undisturbed, List.append_assoc] using sending.flow
      · intro _ _ ch' channel' _ _
        rw [absorb_channel, sending.channel] at channel'
        cases channel'
        exact waiting

theorem sendDirect_run {depth : ℕ} {ref : BufferRef} {ch : Channel} {w : World υ}
    (sending : Sending depth ref ch w) (queued : ch.writeEnabled = true → pending ref w = []) :
    ∃ w' enabled, (sendDirect ref).run w = .ok () w' ∧ Sending depth ref (setWrite ch enabled) w' := by
  by_cases nothing : (readBuffer ref w).size = 0
  · exact ⟨w, ch.writeEnabled, by simp [sendDirect, nothing], sending⟩
  obtain ⟨sended, _, ran, enabled, poller, writes, events, rfl, le, knows, kept, shut, left, quiet⟩ :=
    isend_run sending.channel (sending.known ch sending.channel) (readBuffer ref w).contents
  obtain ⟨rest, consumed, rest_eq⟩ := Buffer.consume_spec (Buffer.length_contents _ ▸ le)
  refine ⟨writeBuffer ref rest (written w (setWrite ch enabled) poller writes
    ((readBuffer ref w).contents.take sended) events), enabled, ?_, ?_⟩
  · simp [sendDirect, nothing, ran, consume, readBuffer_written, consumed]
  obtain ⟨same_sends, same_dead⟩ := any_written w (setWrite ch enabled) poller writes
    ((readBuffer ref w).contents.take sended) quiet
  refine ⟨by rw [writeBuffer_channel]; rfl, ?_, ?_, ?_, ?_, ?_⟩
  · intro ch' channel' opened
    rw [writeBuffer_channel] at channel'
    cases channel'
    rw [writeBuffer_base]
    exact (knows opened).of_same rfl rfl
  · refine ⟨sending.nestable.1, fun ch' channel' opened => ?_⟩
    rw [writeBuffer_channel] at channel'
    cases channel'
    exact sending.nestable.2 ch sending.channel opened
  · rw [writeBuffer_seen, same_sends, same_dead, sending.updates, readBuffer_writeBuffer]
    congr 1
    by_cases closed : ch.fd < 0
    · obtain ⟨rfl, rfl⟩ := shut closed
      rw [List.drop_zero] at rest_eq
      rw [setWrite_self, Buffer.size_eq_of_contents rest_eq]
    · simp [closed]
  · intro undisturbed
    rw [Undisturbed, writeBuffer_seen] at undisturbed
    have flow := sending.flow (undisturbed_written undisturbed).1
    rw [writeBuffer_seen]
    by_cases own : ref = .output
    · subst own
      have whole := List.take_append_drop sended w.con.output.contents
      simp only [pending, readBuffer, writeBuffer, if_true, List.append_nil, written] at flow rest_eq ⊢
      rw [rest_eq, List.append_assoc, whole]
      exact flow
    · have direct : ch.writeEnabled = false := by
        by_contra waiting
        have none_left := queued (by simpa using waiting)
        rw [pending, if_neg own, Buffer.contents_eq_nil_iff] at none_left
        exact nothing none_left
      -- Bytes are written directly only when the queue is empty.
      have empty_or_none : w.con.output.contents = [] ∨ sended = 0 := by
        rcases lt_or_ge ch.fd 0 with closed | opened
        · exact .inr (shut closed).1
        · left
          by_contra waiting
          have := sending.interested own (undisturbed_written undisturbed).1 ch sending.channel
            opened waiting
          rw [direct] at this
          cases this
      have whole := List.take_append_drop sended (readBuffer ref w).contents
      rw [writeBuffer_output own, pending, if_neg own, readBuffer_writeBuffer, rest_eq]
      rw [pending, if_neg own] at flow
      show w.seen.wire ++ List.take sended _ ++ (w.con.output.contents ++ _) = w.seen.handed
      rcases empty_or_none with none_queued | none_sent
      · rw [none_queued] at flow ⊢
        rw [List.nil_append, List.append_assoc, whole]
        exact flow
      · rw [none_sent, List.take_zero, List.append_nil, List.drop_zero]
        exact flow
  · intro apart undisturbed ch' channel' opened waiting
    rw [Undisturbed, writeBuffer_seen] at undisturbed
    rw [writeBuffer_channel] at channel'
    rw [writeBuffer_output apart] at waiting
    cases channel'
    exact kept (sending.interested apart (undisturbed_written undisturbed).1 ch sending.channel
      opened waiting)

/-- The end of `send(Buffer &)`: what is left is queued and waited for. -/
theorem sendRest_meets {depth : ℕ} {ref : BufferRef} {ch : Channel} :
    Meets (Sending depth ref ch) (sendRest ref : Act υ Unit) (fun _ => Steady depth)
      (Halted depth) := by
  refine meets_iff.mpr fun w sending => ?_
  by_cases nothing : (readBuffer ref w).size = 0
  · have none_pending : pending ref w = [] := by
      unfold pending
      split_ifs
      · rfl
      · exact Buffer.contents_eq_nil_iff.mpr nothing
    have ran : (sendRest ref).run w = .ok () w := by simp [sendRest, nothing]
    rw [ran]
    refine ⟨sending.known, sending.nestable, ?_, ?_, ?_⟩
    · simpa [nothing] using sending.updates
    · intro undisturbed _
      simpa [none_pending] using sending.flow undisturbed
    · intro undisturbed ch' channel' opened waiting
      by_cases own : ref = .output
      · subst own
        exact absurd (Buffer.contents_eq_nil_iff.mpr nothing) waiting
      · exact sending.interested own undisturbed ch' channel' opened waiting
  have flow : Undisturbed w → w.seen.wire ++ (absorb ref w).con.output.contents = w.seen.handed := by
    intro undisturbed
    rw [absorb_output]
    exact sending.flow undisturbed
  have channel : (absorb ref w).con.channel = some ch := by rw [absorb_channel, sending.channel]
  cases waiting : ch.writeEnabled with
  | true =>
      have ran : (sendRest ref).run w = .ok () (absorb ref w) := by
        simp [sendRest, nothing, getChannel, sending.channel, waiting]
      rw [ran]
      refine ⟨?_, ?_, ?_, ?_, ?_⟩
      · simpa [Known] using sending.known
      · simpa [Nestable] using sending.nestable
      · simpa [waiting] using sending.updates
      · intro undisturbed _
        simpa using flow (by simpa [Undisturbed] using undisturbed)
      · intro _ ch' channel' _ _
        rw [channel] at channel'
        cases channel'
        exact waiting
  | false =>
      have ran : (sendRest ref).run w = (enableWrite true).run (absorb ref w) := by
        simp [sendRest, nothing, getChannel, sending.channel, waiting]
      rw [ran]
      rcases lt_or_ge ch.fd 0 with closed | opened
      · -- The poller is asked to update a closed channel, whatever it answers.
        have steady : ∀ poller, Steady depth { updating (absorb ref w) ch true with
            base := { (absorb ref w).base with poller := poller } } := by
          intro poller
          refine ⟨?_, ⟨sending.nestable.1, ?_⟩, ?_, ?_, ?_⟩
          · rintro _ ⟨⟩ opened
            exact absurd opened (not_le.mpr closed)
          · rintro _ ⟨⟩ opened
            exact absurd opened (not_le.mpr closed)
          · have := sending.updates
            have sent : ((readBuffer ref w).size != 0) = true := bne_iff_ne.mpr nothing
            simp only [closed, waiting, decide_true, Bool.not_false, Bool.true_and, sent,
              Bool.or_true] at this
            simpa [updating, closed] using this
          · intro undisturbed _
            simpa [updating] using
              flow (by simpa [Undisturbed, updating] using undisturbed)
          · rintro _ _ ⟨⟩ opened _
            exact absurd opened (not_le.mpr closed)
        rw [enableWrite_run channel]
        cases (absorb ref w).base.poller.updateChannel (setWrite ch true) with
        | some poller => exact steady poller
        | none =>
            refine ⟨steady (absorb ref w).base.poller, by decide, fun _ => ?_⟩
            simp [updating, closed]
      · obtain ⟨poller, knows, updated⟩ := enableWrite_known channel
          (by simpa using sending.known ch sending.channel opened) true
        rw [updated]
        refine ⟨?_, ⟨sending.nestable.1, ?_⟩, ?_, ?_, ?_⟩
        · rintro _ ⟨⟩ _
          exact knows.of_same rfl rfl
        · rintro _ ⟨⟩ _
          exact sending.nestable.2 ch sending.channel opened
        · have := sending.updates
          simpa [not_lt.mpr opened] using this
        · intro undisturbed _
          simpa using flow (by simpa [Undisturbed] using undisturbed)
        · rintro _ _ ⟨⟩ _ _
          rfl

/-- Before `send(Buffer &)`: as between operations, except that the bytes of the buffer
have been handed over and are yet to be passed on. -/
structure Ready (depth : ℕ) (ref : BufferRef) (w : World υ) : Prop where
  known : Known w
  nestable : Nestable depth w
  updates : w.seen.events.any ConnEvent.sendsOnClosed = w.seen.events.any ConnEvent.updatesDead
  flow : Undisturbed w → w.con.channel.isSome →
    w.seen.wire ++ (w.con.output.contents ++ pending ref w) = w.seen.handed
  interested : ref ≠ .output → Undisturbed w → Interested w

/-- **`send(Buffer &)` keeps the connection steady.** -/
theorem send_meets (depth : ℕ) (ref : BufferRef) :
    Meets (Ready depth ref) (send ref : Act υ Unit) (fun _ => Steady depth) (Halted depth) := by
  refine meets_iff.mpr fun w ready => ?_
  cases channel : w.con.channel with
  | none =>
      have ran : (send ref).run w = .ok () w := by simp [send, channel]
      rw [ran]
      refine ⟨ready.known, ready.nestable, ready.updates, ?_, ?_⟩
      · simp [channel]
      · simp [Interested, channel]
  | some ch =>
      let w₁ : World υ := { w with seen := { w.seen with
        events := .bufferSent ch.fd ch.writeEnabled (readBuffer ref w).size :: w.seen.events } }
      have same : readBuffer ref w₁ = readBuffer ref w := by cases ref <;> rfl
      have sending : Sending depth ref ch w₁ := by
        refine ⟨channel, ready.known, ready.nestable, ?_, ?_, ?_⟩
        · simp [w₁, same, ready.updates, Bool.or_comm]
        · intro undisturbed
          have := ready.flow (by simpa [Undisturbed, w₁] using undisturbed) (by simp [channel])
          simpa [pending, same] using this
        · intro apart undisturbed
          exact ready.interested apart (by simpa [Undisturbed, w₁] using undisturbed)
      obtain ⟨w₂, queued, sending₂, joined⟩ := sendQueued_run sending
      obtain ⟨w₃, enabled, direct, sending₃⟩ := sendDirect_run sending₂ joined
      have ran : (send ref).run w = (sendRest ref).run w₃ := by
        simp only [send, record, channel, EStateM.run_bind, EStateM.run_get, EStateM.run_modify]
        rw [show (sendQueued ref).run _ = _ from queued]
        simp only
        rw [direct]
      rw [ran]
      exact meets_iff.mp sendRest_meets w₃ sending₃

/-! ## Sending bytes -/

@[simp] theorem handOver_con (bytes : Bytes) (w : World υ) : (handOver bytes w).con = w.con := by
  unfold handOver
  split_ifs <;> rfl

@[simp] theorem encoded_handOver (msg bytes : Bytes) (w : World υ) :
    encoded msg (handOver bytes w) = encoded msg w := by
  rw [encoded, handOver_con]
  rfl

/-- Without a codec nothing is encoded, and `sendMsg` stops. -/
theorem sendMsg_none {w : World υ} (uncoded : w.con.codec = none) (msg : Bytes) :
    encoded msg w = [] ∧ (sendMsg msg).run w = .error .nullCodec w := by
  simp [encoded, sendMsg, uncoded]

theorem sendMsg_some {w : World υ} {codec : Codec} (coded : w.con.codec = some codec) (msg : Bytes) :
    (sendMsg msg).run w = (sendOutput (encoded msg w)).run w := by
  simp [sendMsg, encoded, coded]

/-- Before `send(const char *, size_t)`: the bytes have been handed over. -/
structure Handed (depth : ℕ) (bytes : Bytes) (w : World υ) : Prop where
  known : Known w
  nestable : Nestable depth w
  updates : w.seen.events.any ConnEvent.sendsOnClosed = w.seen.events.any ConnEvent.updatesDead
  flow : Undisturbed w → w.con.channel.isSome →
    w.seen.wire ++ (w.con.output.contents ++ bytes) = w.seen.handed
  interested : Undisturbed w → Interested w

/-- The last statement of `send(const char *, size_t)`. -/
def queueRest (rest : Bytes) (w : World υ) : World υ :=
  if rest.length ≠ 0 then { w with con := { w.con with output := w.con.output.append rest } } else w

theorem Handed.queueRest {depth : ℕ} {rest : Bytes} {w : World υ} (handed : Handed depth rest w)
    (waited : Undisturbed w → ∀ ch, w.con.channel = some ch → 0 ≤ ch.fd → rest ≠ [] →
      ch.writeEnabled = true) :
    Steady depth (queueRest rest w) := by
  unfold TcpConn.queueRest
  split_ifs with left
  · refine ⟨handed.known, handed.nestable, handed.updates, ?_, ?_⟩
    · intro undisturbed opened
      rw [Buffer.contents_append]
      exact handed.flow undisturbed opened
    · intro undisturbed ch channel opened _
      exact waited undisturbed ch channel opened (List.length_eq_zero_iff.not.mp left)
  · have nothing : rest = [] := List.length_eq_zero_iff.mp (not_not.mp left)
    refine ⟨handed.known, handed.nestable, handed.updates, ?_, handed.interested⟩
    intro undisturbed opened
    simpa [nothing] using handed.flow undisturbed opened

/-- **`send(const char *, size_t)` keeps the connection steady.** -/
theorem sendBytes_meets (depth : ℕ) (bytes : Bytes) :
    Meets (Handed depth bytes) (sendBytes bytes : Act υ Unit) (fun _ => Steady depth)
      (Halted depth) := by
  refine meets_iff.mpr fun w handed => ?_
  cases channel : w.con.channel with
  | none =>
      have ran : (sendBytes bytes).run w = .ok () w := by simp [sendBytes, channel]
      rw [ran]
      refine ⟨handed.known, handed.nestable, handed.updates, ?_, handed.interested⟩
      simp [channel]
  | some ch =>
      have present : w.con.channel.isSome = true := by simp [channel]
      cases queue : w.con.output.empty with
      | false =>
          have ran : (sendBytes bytes).run w = .ok () (queueRest bytes w) := by
            simp only [sendBytes, sendUnqueued, present, queue, modifyCon, queueRest, if_true,
              Bool.false_eq_true, if_false, List.drop_zero, EStateM.run_bind, EStateM.run_get,
              EStateM.run_pure]
            split_ifs <;> rfl
          rw [ran]
          refine handed.queueRest fun undisturbed ch channel opened _ => ?_
          refine handed.interested undisturbed ch channel opened fun nothing => ?_
          rw [Buffer.empty_iff.mpr nothing] at queue
          cases queue
      | true =>
          obtain ⟨sended, w', isent, enabled, poller, writes, events, rfl, le, knows, -, shut, left,
            quiet⟩ := isend_run channel (handed.known ch channel) bytes
          have ran : (sendBytes bytes).run w = .ok () (queueRest (bytes.drop sended)
              (written w (setWrite ch enabled) poller writes (bytes.take sended) events)) := by
            simp only [sendBytes, sendUnqueued, present, queue, modifyCon, queueRest, if_true, EStateM.run_bind,
              EStateM.run_get, isent]
            split_ifs <;> rfl
          rw [ran]
          have none_queued := Buffer.empty_iff.mp queue
          obtain ⟨same_sends, same_dead⟩ := any_written w (setWrite ch enabled) poller writes
            (bytes.take sended) quiet
          refine Handed.queueRest ⟨?_, ⟨handed.nestable.1, ?_⟩, ?_, ?_, ?_⟩ ?_
          · rintro _ ⟨⟩ opened
            exact (knows opened).of_same rfl rfl
          · rintro _ ⟨⟩ opened
            exact handed.nestable.2 ch channel opened
          · rw [same_sends, same_dead, handed.updates]
          · intro undisturbed _
            have := handed.flow (undisturbed_written undisturbed).1 (by simp [channel])
            simpa [written, none_queued] using this
          · rintro _ _ ⟨⟩ _ waiting
            exact absurd none_queued waiting
          · rintro undisturbed _ ⟨⟩ opened not_all
            rcases left opened (List.drop_eq_nil_iff.not.mp not_all |> not_le.mp) with now | failed
            · exact now
            · exact absurd failed (undisturbed_written undisturbed).2

end TcpConn

end Handy
