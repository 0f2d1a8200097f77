import Handy.Codec.Lines
import Handy.Conn.Delivery

/-!
# Messages and chunks

However the encodings of messages are cut into reads, a connected connection whose message
callback only observes is called on exactly those messages, in order, and is left with an
empty `input_` (`framed_messages_delivered`). Nothing can go wrong on the way: the bytes
are never malformed, there is always room to read into, and the decode loop ends.

For `LineCodec` the bytes need not be encodings: two connections that receive the same
unambiguous stream end with the same messages and the same input, however it is cut into reads
(`line_chunks_agree`). A stream in which a line starts with the byte `0x04` is not unambiguous
(`transmission_depends_on_chunks`).
-/

set_option autoImplicit false
set_option mvcgen.warning false

namespace Handy

namespace TcpConn

variable {υ : Type} {codec : Codec} {w₀ w w' : World υ} {stream : Bytes} {all : List Bytes}

/-- The message callback only observes. -/
def Observes (σ : UserCode υ) : Prop := ∀ msg w, (σ (.msg msg) w).1 = []

/-- A connected connection with `onMsg`, whose socket will not fail or end. -/
structure Receiving (codec : Codec) (w : World υ) : Prop where
  connected : w.con.state = .connected
  isOpen : Open w
  readcb : w.con.readcb = some .msg
  codec_eq : w.con.codec = some codec
  roomy : 0 < w.con.input.exp
  idle : ∀ id ∈ w.con.idleIds, (w.base.findIdle id).isSome = true
  reads : ∀ outcome ∈ w.net.reads, outcome ≠ .eof ∧ outcome ≠ .error

/-- Since `w₀` the connection has been receiving the stream. -/
structure Reading (codec : Codec) (stream : Bytes) (w₀ w : World υ) : Prop
    extends Receiving codec w where
  origin : w₀.net.peer = stream
  unread : w₀.con.input.contents = []
  follows : Follows codec w₀ w w.con.input.contents

section Decoding

variable (sound : codec.Sound) (accepts : codec.Accepts stream)

/-- What has arrived is not malformed. -/
theorem Reading.wellformed (accepts : codec.Accepts stream) (reading : Reading codec stream w₀ w) :
    0 ≤ (codec.tryDecode w.con.input.contents).1 := by
  obtain ⟨received, msgs, peer, -, decodes⟩ := reading.follows
  rw [reading.unread, List.nil_append] at decodes
  exact accepts (by rw [← peer, reading.origin]) decodes

/-- When everything has arrived, the stream was cut into the messages and what is left. -/
theorem Reading.complete (reading : Reading codec stream w₀ w) (arrived : w.net.peer = []) :
    ∃ msgs, messages w.seen.events = messages w₀.seen.events ++ msgs ∧
      codec.Decodes stream msgs w.con.input.contents := by
  obtain ⟨received, msgs, peer, delivered, decodes⟩ := reading.follows
  rw [reading.unread, List.nil_append] at decodes
  rw [arrived, List.append_nil, reading.origin] at peer
  exact ⟨msgs, delivered, peer ▸ decodes⟩

/-- One message is delivered and consumed. -/
theorem Reading.deliver (reading : Reading codec stream w₀ w) {size : ℕ} {view : Slice} {rest : Buffer}
    (found : codec.tryDecode w.con.input.contents = ((size : ℤ), view)) (positive : 0 < size)
    (consumed : w.con.input.consume size = some rest) (user : υ) :
    Reading codec stream w₀ { w with
      con := { w.con with input := rest }
      user := user
      seen := { w.seen with
        events := .msgCalled (view.of w.con.input.contents) :: w.seen.events } } := by
  obtain ⟨received, msgs, peer, delivered, decodes⟩ := reading.follows
  obtain ⟨fits, contents⟩ := Buffer.contents_of_consume consumed
  refine ⟨⟨reading.connected, reading.isOpen, reading.readcb, reading.codec_eq, ?_, reading.idle,
    reading.reads⟩, reading.origin, reading.unread, received,
    msgs ++ [view.of w.con.input.contents], peer, ?_, ?_⟩
  · rw [Buffer.exp_of_consume consumed]
    exact reading.roomy
  · rw [messages_msgCalled, delivered, List.append_assoc]
  · show codec.Decodes _ _ rest.contents
    rw [contents]
    exact decodes.snoc found positive (by rwa [Buffer.length_contents])

variable {σ : UserCode υ} (observes : Observes σ) (self : Act υ Unit)

include sound accepts observes

/-- **The decode loop ends**, with every message that has arrived delivered. -/
theorem decodeLoop_reading (fuel : ℕ) :
    Meets (fun w => Reading codec stream w₀ w ∧ w.con.input.size < fuel) (decodeLoop σ self fuel)
      (fun _ w => Reading codec stream w₀ w ∧ (codec.tryDecode w.con.input.contents).1 ≤ 0)
      fun _ _ => False := by
  induction fuel with
  | zero =>
      mvcgen [decodeLoop]
      case vc1 start => exact absurd start.2 (Nat.not_lt_zero _)
  | succ fuel ih =>
      refine meets_iff.mpr fun w start => ?_
      obtain ⟨reading, enough⟩ := start
      have wellformed := reading.wellformed accepts
      rcases found : codec.tryDecode w.con.input.contents with ⟨r, view⟩
      rw [found] at wellformed
      obtain ⟨size, rfl⟩ := Int.eq_ofNat_of_zero_le wellformed
      rcases Nat.eq_zero_or_pos size with rfl | positive
      · have ran : (decodeLoop σ self (fuel + 1)).run w = .ok () w := by
          simp [decodeLoop, reading.codec_eq, found]
        rw [ran]
        exact ⟨reading, by rw [found]; rfl⟩
      · have fits : size ≤ w.con.input.size := by
          have bound := sound.bounded w.con.input.contents
          simp only [found, Buffer.length_contents] at bound
          exact_mod_cast bound
        obtain ⟨rest, consumed, contents⟩ := Buffer.consume_spec fits
        have not_negative : ¬ (size : ℤ) < 0 := not_lt.mpr wellformed
        have ran : (decodeLoop σ self (fuel + 1)).run w = (decodeLoop σ self fuel).run { w with
            con := { w.con with input := rest }
            user := (σ (.msg (view.of w.con.input.contents)) { w with seen := { w.seen with
              events := .msgCalled (view.of w.con.input.contents) :: w.seen.events } }).2
            seen := { w.seen with
              events := .msgCalled (view.of w.con.input.contents) :: w.seen.events } } := by
          simp [decodeLoop, reading.codec_eq, found, positive, not_negative, record, callUser,
            observes _ _, runOps, consume, readBuffer, consumed, writeBuffer]
        rw [ran]
        refine meets_iff.mp ih _ ⟨reading.deliver found positive consumed _, ?_⟩
        have less : rest.size = w.con.input.size - size := by
          rw [← Buffer.length_contents, contents, List.length_drop, Buffer.length_contents]
        show rest.size < fuel
        omega

end Decoding

/-! ## One readable event -/

/-- Without an end or a failure the reading loop ends with `EAGAIN`, in front of the answers
that are left. -/
theorem readLoop_again (peer : Bytes) {reads : List ReadOutcome} {input : Buffer}
    (lasting : ∀ outcome ∈ reads, outcome ≠ .eof ∧ outcome ≠ .error) (roomy : 0 < input.exp) :
    (readLoop reads peer input).1 = .again ∧ (readLoop reads peer input).2.1 ⊆ reads ∧
      (readLoop reads peer input).2.2.2.exp = input.exp := by
  fun_induction readLoop reads peer input with
  | case1 peer input => exact ⟨rfl, List.Subset.refl _, Buffer.exp_makeRoom input⟩
  | case2 reads peer input room ih =>
      have same : room.exp = input.exp := Buffer.exp_makeRoom input
      obtain ⟨again, left, exp⟩ := ih (fun outcome member =>
        lasting outcome (List.mem_cons_of_mem _ member)) (by rwa [same])
      exact ⟨again, List.Subset.trans left (List.subset_cons_self _ _), exp.trans same⟩
  | case3 reads peer input room => exact ⟨rfl, List.subset_cons_self _ _, Buffer.exp_makeRoom input⟩
  | case4 reads peer input room => exact absurd rfl (lasting .eof List.mem_cons_self).1
  | case5 reads peer input room => exact absurd rfl (lasting .error List.mem_cons_self).2
  | case6 reads peer input room n full =>
      exact absurd full (Buffer.space_makeRoom_pos roomy).ne'
  | case7 reads input room n _ =>
      exact ⟨rfl, List.subset_cons_self _ _, Buffer.exp_makeRoom input⟩
  | case8 reads peer input room n _ _ rd ih =>
      have same : room.exp = input.exp := Buffer.exp_makeRoom input
      obtain ⟨again, left, exp⟩ := ih (fun outcome member =>
        lasting outcome (List.mem_cons_of_mem _ member)) (by rwa [Buffer.exp_fill, same])
      exact ⟨again, List.Subset.trans left (List.subset_cons_self _ _), exp.trans same⟩

/-- The reading loop. -/
theorem Reading.read (reading : Reading codec stream w₀ w) :
    (readLoop w.net.reads w.net.peer w.con.input).1 = .again ∧
      Reading codec stream w₀ { w with
        net := { w.net with
          reads := (readLoop w.net.reads w.net.peer w.con.input).2.1
          peer := (readLoop w.net.reads w.net.peer w.con.input).2.2.1 }
        con := { w.con with input := (readLoop w.net.reads w.net.peer w.con.input).2.2.2 } } := by
  obtain ⟨again, left, exp⟩ := readLoop_again w.net.peer reading.reads reading.roomy
  obtain ⟨new, split, contents⟩ := readLoop_spec w.net.reads w.net.peer w.con.input
  obtain ⟨received, msgs, peer, delivered, decodes⟩ := reading.follows
  refine ⟨again, ⟨reading.connected, reading.isOpen, reading.readcb, reading.codec_eq, ?_,
    reading.idle, fun outcome member => reading.reads outcome (left member)⟩, reading.origin,
    reading.unread, received ++ new, msgs, ?_, delivered, ?_⟩
  · show 0 < (readLoop w.net.reads w.net.peer w.con.input).2.2.2.exp
    rw [exp]
    exact reading.roomy
  · rw [List.append_assoc, ← split, peer]
  · show codec.Decodes _ _ (readLoop w.net.reads w.net.peer w.con.input).2.2.2.contents
    rw [contents, ← List.append_assoc]
    exact decodes.append new

theorem updateIdles_reading (ids : List IdleId) :
    Meets (fun w => Reading codec stream w₀ w ∧ ∀ id ∈ ids, id ∈ w.con.idleIds)
      (updateIdles ids : Act υ Unit) (fun _ => Reading codec stream w₀) fun _ _ => False := by
  induction ids with
  | nil =>
      mvcgen [updateIdles]
      case vc1 start => exact start.1
  | cons id rest ih =>
      mvcgen [updateIdles, handyUpdateIdle, ih]
      case vc1 w start base found _ =>
        obtain ⟨reading, members⟩ := start
        have idle : ∀ other ∈ w.con.idleIds, (base.findIdle other).isSome = true :=
          fun other member => EventBase.findIdle_updateIdle found (reading.idle other member)
        exact ⟨⟨⟨reading.connected, reading.isOpen, reading.readcb, reading.codec_eq, reading.roomy,
          idle, reading.reads⟩, reading.origin, reading.unread, reading.follows⟩,
          fun other member => members other (List.mem_cons_of_mem _ member)⟩
      case vc2 w start dangling =>
        have there := start.1.idle id (start.2 id List.mem_cons_self)
        unfold EventBase.updateIdle at dangling
        split at dangling
        case h_1 gone => rw [gone] at there; cases there
        case h_2 => cases dangling

section Events

variable (sound : codec.Sound) (accepts : codec.Accepts stream) {σ : UserCode υ}
  (observes : Observes σ) (self : Act υ Unit)

include sound accepts observes

theorem callRead_reading :
    Meets (Reading codec stream w₀) (callRead σ self)
      (fun _ w => Reading codec stream w₀ w ∧ (codec.tryDecode w.con.input.contents).1 ≤ 0)
      fun _ _ => False := by
  refine meets_iff.mpr fun w reading => ?_
  have ran : (callRead σ self).run w = (decodeLoop σ self (w.con.input.size + 1)).run w := by
    simp [callRead, reading.readcb]
  rw [ran]
  exact meets_iff.mp (decodeLoop_reading sound accepts observes self _) w
    ⟨reading, Nat.lt_succ_self _⟩

theorem readConnected_reading :
    Meets (Reading codec stream w₀) (readConnected σ self)
      (fun _ w => Reading codec stream w₀ w ∧ (codec.tryDecode w.con.input.contents).1 ≤ 0)
      fun _ _ => False := by
  have updates : ∀ ids, Meets (fun w => Reading codec stream w₀ w ∧ ∀ id ∈ ids, id ∈ w.con.idleIds)
      (updateIdles ids : Act υ Unit) (fun _ => Reading codec stream w₀) fun _ _ => False :=
    updateIdles_reading
  have reads : Meets (Reading codec stream w₀) (callRead σ self)
      (fun _ w => Reading codec stream w₀ w ∧ (codec.tryDecode w.con.input.contents).1 ≤ 0)
      fun _ _ => False := callRead_reading sound accepts observes self
  mvcgen [readConnected, getChannel, modifyCon, updates, reads]
  case vc1 w reading ch there closed _ =>
    obtain ⟨open_, same, valid⟩ := reading.isOpen
    rw [there] at same
    cases same
    exact absurd closed (not_lt.mpr valid)
  case vc2 w reading ch _ _ _ stop =>
    rw [reading.read.1] at stop
    cases stop
  case vc3 w reading ch _ _ _ _ => exact ⟨reading.read.2, fun _ member => member⟩
  case vc5 w reading nothing =>
    refine ⟨reading, ?_⟩
    have empty : w.con.input.contents = [] := by
      rw [← List.length_eq_zero_iff, Buffer.length_contents]
      exact not_not.mp nothing
    rw [empty, sound.nothing]
  case vc6 w reading absent =>
    obtain ⟨ch, there, -⟩ := reading.isOpen
    rw [absent] at there
    cases there

/-- **A readable event** on the connection delivers every message that has arrived. -/
theorem readable_reading :
    Meets (Reading codec stream w₀) (handleEvent σ .readable)
      (fun _ w => Reading codec stream w₀ w ∧ (codec.tryDecode w.con.input.contents).1 ≤ 0)
      fun _ _ => False := by
  refine meets_iff.mpr fun w reading => ?_
  obtain ⟨ch, there, valid⟩ := reading.isOpen
  have ran : (handleEvent σ .readable).run w =
      (readConnected σ (handleRead σ maxNesting)).run w := by
    simp [handleEvent, there, valid, handleRead, handleReadOnce, reading.connected]
  rw [ran]
  exact meets_iff.mp (readConnected_reading sound accepts observes _) w reading

/-- Readable events, one after the other. -/
theorem execute_reading (n : ℕ) (reading : Reading codec stream w₀ w)
    (exhausted : (codec.tryDecode w.con.input.contents).1 ≤ 0) :
    ∃ last, execute σ w (List.replicate n .readable) = ⟨last, none⟩ ∧
      Reading codec stream w₀ last ∧ (codec.tryDecode last.con.input.contents).1 ≤ 0 := by
  induction n generalizing w with
  | zero => exact ⟨w, rfl, reading, exhausted⟩
  | succ n ih =>
      have step := meets_iff.mp (readable_reading sound accepts observes) w reading
      rw [List.replicate_succ]
      unfold execute
      cases ran : (handleEvent σ .readable).run w with
      | ok _ next =>
          rw [ran] at step
          exact ih step.1 step.2
      | error fault next =>
          rw [ran] at step
          exact step.elim

/-- From the start of the stream. -/
theorem execute_receiving (receiving : Receiving codec w) (unread : w.con.input.contents = [])
    (sent : w.net.peer = stream) (n : ℕ) :
    ∃ last, execute σ w (List.replicate n .readable) = ⟨last, none⟩ ∧
      Reading codec stream w last ∧ (codec.tryDecode last.con.input.contents).1 ≤ 0 := by
  have start : Reading codec stream w w := ⟨receiving, sent, unread, [], [], rfl, by simp, by
    rw [List.append_nil]
    exact .done _⟩
  exact execute_reading sound accepts observes n start (by rw [unread, sound.nothing])

end Events

/-- **However the encodings are cut into reads, the messages come out**: for every list of
messages that the codec can carry, and for every sequence of answers of `read` to any number
of readable events, with `EINTR` and `EAGAIN` anywhere among them, the connection does not
fault, and once the last byte has been read the callback was called on exactly those
messages, in order, and `input_` is empty. -/
theorem framed_messages_delivered (carries : codec.Carries all)
    (total : (all.flatMap codec.encode).length < 2 ^ 31) {σ : UserCode υ} (observes : Observes σ)
    (receiving : Receiving codec w) (unread : w.con.input.contents = [])
    (sent : w.net.peer = all.flatMap codec.encode) (n : ℕ) :
    (execute σ w (List.replicate n .readable)).stopped = none ∧
      ((execute σ w (List.replicate n .readable)).world.net.peer = [] →
        messages (execute σ w (List.replicate n .readable)).world.seen.events =
            messages w.seen.events ++ all ∧
          (execute σ w (List.replicate n .readable)).world.con.input.contents = []) := by
  obtain ⟨last, ran, reading, exhausted⟩ := execute_receiving carries.known.sound
    (carries.accepts total) observes receiving unread sent n
  rw [ran]
  refine ⟨rfl, fun arrived => ?_⟩
  obtain ⟨msgs, delivered, decodes⟩ := reading.complete arrived
  obtain ⟨rfl, rest⟩ := decodes.all_found carries.frames total rfl exhausted
  exact ⟨delivered, rest⟩

/-- **However a stream is cut into reads, its lines come out**: for every stream of bytes in
which a line starts with `0x04` only if that is the last byte and no line has 2147483648 bytes
or more, and any two connections that receive it, with any answers of `read` to any number of readable events,
neither connection faults, and once both have read the last byte they have called their
callbacks on the same messages, and the same bytes are left in `input_`. -/
theorem line_chunks_agree (unambiguous : LineCodec.Unambiguous stream) {σ σ' : UserCode υ}
    (observes : Observes σ) (observes' : Observes σ') (receiving : Receiving lineCodec w)
    (receiving' : Receiving lineCodec w') (unread : w.con.input.contents = [])
    (unread' : w'.con.input.contents = []) (sent : w.net.peer = stream)
    (sent' : w'.net.peer = stream) (n n' : ℕ) :
    (execute σ w (List.replicate n .readable)).stopped = none ∧
      (execute σ' w' (List.replicate n' .readable)).stopped = none ∧
      ((execute σ w (List.replicate n .readable)).world.net.peer = [] →
        (execute σ' w' (List.replicate n' .readable)).world.net.peer = [] →
        ∃ msgs, messages (execute σ w (List.replicate n .readable)).world.seen.events =
              messages w.seen.events ++ msgs ∧
            messages (execute σ' w' (List.replicate n' .readable)).world.seen.events =
              messages w'.seen.events ++ msgs ∧
            (execute σ w (List.replicate n .readable)).world.con.input.contents =
              (execute σ' w' (List.replicate n' .readable)).world.con.input.contents) := by
  have accepts := lineCodec_accepts unambiguous
  obtain ⟨last, ran, reading, exhausted⟩ :=
    execute_receiving lineCodec_sound accepts observes receiving unread sent n
  obtain ⟨last', ran', reading', exhausted'⟩ :=
    execute_receiving lineCodec_sound accepts observes' receiving' unread' sent' n'
  rw [ran, ran']
  refine ⟨rfl, rfl, fun arrived arrived' => ?_⟩
  obtain ⟨msgs, delivered, decodes⟩ := reading.complete arrived
  obtain ⟨msgs', delivered', decodes'⟩ := reading'.complete arrived'
  obtain ⟨rfl, rest⟩ :=
    lineCodec_decodes_unique unambiguous decodes exhausted decodes' exhausted'
  exact ⟨msgs, delivered, delivered', rest⟩

end TcpConn

/-- A connected connection that receives two lines, cut between a carriage return and its
line feed and in the middle of a line. -/
def twoLines : World Unit :=
  (TcpConn.execute observer (TcpConn.accepted observer
    (.new (some .msg) false false (some lineCodec) (-1))
    { writes := [], reads := [.data 1, .eintr, .data 2, .eagain, .data 9], polls := [true],
      peer := [], laterPeers := [[0x61, 0x0d, 0x0a, 0x62, 0x63, 0x0d, 0x0a]], nextFd := 7 } ())
    [.writable]).world

theorem framed_messages_delivered_twoLines :
    messages (TcpConn.execute observer twoLines (List.replicate 2 .readable)).world.seen.events =
      [[0x61], [0x62, 0x63]] := by
  have receiving : TcpConn.Receiving lineCodec twoLines := by
    refine ⟨by decide +kernel, ⟨⟨1, 7, ⟨true, false⟩⟩, by decide +kernel, by decide⟩,
      by decide +kernel, ?_, by decide +kernel, ?_, ?_⟩
    · rfl
    · have none : twoLines.con.idleIds = [] := by decide +kernel
      rw [none]
      exact fun _ member => absurd member List.not_mem_nil
    · decide +kernel
  have carries : lineCodec.Carries [[0x61], [0x62, 0x63]] := .inl ⟨rfl, by decide⟩
  exact ((TcpConn.framed_messages_delivered carries (by decide +kernel)
    (fun _ _ => rfl : TcpConn.Observes observer) receiving (by decide +kernel) (by decide +kernel)
    2).2 (by decide +kernel)).1

/-- A connected connection that receives lines. -/
def lineReader (peer : Bytes) (reads : List ReadOutcome) : World Unit :=
  (TcpConn.execute observer (TcpConn.accepted observer
    (.new (some .msg) false false (some lineCodec) (-1))
    { writes := [], reads := reads, polls := [true], peer := [], laterPeers := [peer], nextFd := 7 } ())
    [.writable]).world

theorem lineReader_receiving (peer : Bytes) {reads : List ReadOutcome}
    (lasting : ∀ outcome ∈ reads, outcome ≠ .eof ∧ outcome ≠ .error) :
    TcpConn.Receiving lineCodec (lineReader peer reads) where
  connected := rfl
  isOpen := ⟨⟨1, 7, ⟨true, false⟩⟩, rfl, by decide⟩
  readcb := rfl
  codec_eq := rfl
  roomy := by
    have exp : (lineReader peer reads).con.input.exp = 512 := rfl
    omega
  idle := fun id member => absurd (show id ∈ ([] : List IdleId) from member) List.not_mem_nil
  reads := lasting

theorem line_chunks_agree_three :
    ∃ msgs, messages (TcpConn.execute observer (lineReader [0x61, 0x0a, 0x04] [.data 0, .eagain, .data 9])
        (List.replicate 2 .readable)).world.seen.events = [] ++ msgs ∧
      messages (TcpConn.execute observer (lineReader [0x61, 0x0a, 0x04] [.data 9])
        (List.replicate 1 .readable)).world.seen.events = [] ++ msgs := by
  have unambiguous : LineCodec.Unambiguous [0x61, 0x0a, 0x04] := by
    refine ⟨fun front rest split _ => ?_, fun line inside _ => ?_⟩
    · rcases front with - | ⟨byte, - | ⟨byte', - | ⟨byte'', front⟩⟩⟩
      · simp at split
      · simp at split
      · obtain ⟨-, -, rfl⟩ : 0x61 = byte ∧ 0x0a = byte' ∧ [] = rest := by simpa using split
        rfl
      · simp at split
    · have fits := inside.length_le
      rw [List.length_append, List.length_singleton] at fits
      exact lt_of_le_of_lt fits (by decide)
  have observes : TcpConn.Observes observer := fun _ _ => rfl
  have first : TcpConn.Receiving lineCodec
      (lineReader [0x61, 0x0a, 0x04] [.data 0, .eagain, .data 9]) := lineReader_receiving _ (by decide)
  have second : TcpConn.Receiving lineCodec (lineReader [0x61, 0x0a, 0x04] [.data 9]) :=
    lineReader_receiving _ (by decide)
  obtain ⟨-, -, agree⟩ := TcpConn.line_chunks_agree unambiguous observes observes first second
    rfl rfl rfl rfl 2 1
  obtain ⟨msgs, cut, whole, -⟩ := agree (by decide +kernel) (by decide +kernel)
  exact ⟨msgs, cut, whole⟩

/-- **Where an end of transmission is cut off shows**: the byte `0x04` is a message of its own
when it arrives alone, and otherwise the start of a line. -/
theorem transmission_depends_on_chunks :
    let whole := TcpConn.execute observer (lineReader [0x04, 0x61, 0x0a] [.data 9]) [.readable]
    let cut := TcpConn.execute observer (lineReader [0x04, 0x61, 0x0a] [.data 0, .eagain, .data 9])
      [.readable, .readable]
    (whole.stopped = none ∧ whole.world.net.peer = [] ∧
      messages whole.world.seen.events = [[0x04, 0x61]]) ∧
    cut.stopped = none ∧ cut.world.net.peer = [] ∧
      messages cut.world.seen.events = [[0x04], [0x61]] := by
  decide +kernel

end Handy
