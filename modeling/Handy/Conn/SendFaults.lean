import Handy.Conn.Send
import Handy.Conn.Footprint

/-!
# What can go wrong in sending

A send operation stops with a fault only when the poller does not know the descriptor, or
when `sendMsg` finds no codec; the channel it uses is there, and no more is taken out of a
buffer than the buffer holds. Apart from `send(getInput())` and `consume`, the operations
leave `input_` as it is.
-/

set_option autoImplicit false
set_option mvcgen.warning false

namespace Handy

/-- The operation leaves `input_` alone. -/
def Op.sparesInput : Op → Bool
  | .sendInput => false
  | .consumeInput _ => false
  | _ => true

/-- The faults of an operation that sends. -/
def Op.mayFault : Op → Fault → Prop
  | .consumeInput _, fault => fault = .consumeUnderflow
  | .sendMsg _, fault => fault = .epollCtlMod ∨ fault = .nullCodec
  | _, fault => fault = .epollCtlMod

namespace TcpConn

variable {υ : Type} {w₀ : World υ}

/-- The channel is there. -/
def Present (w : World υ) : Prop := w.con.channel.isSome = true

/-- The buffers and the bytes handed over are as before, the channel is there, and so many
bytes of a buffer have been accepted by the socket. -/
structure Accepted (w₀ : World υ) (bytes : Bytes) (w : World υ) : Prop where
  present : Present w
  buffers : ∀ ref, readBuffer ref w = readBuffer ref w₀
  wire : w.seen.wire = w₀.seen.wire ++ bytes
  handed : w.seen.handed = w₀.seen.handed

theorem Accepted.of_same {bytes : Bytes} {w w' : World υ} (accepted : Accepted w₀ bytes w)
    (present : Present w') (buffers : ∀ ref, readBuffer ref w' = readBuffer ref w)
    (wire : w'.seen.wire = w.seen.wire) (handed : w'.seen.handed = w.seen.handed) :
    Accepted w₀ bytes w' :=
  ⟨present, fun ref => (buffers ref).trans (accepted.buffers ref), wire.trans accepted.wire,
    handed.trans accepted.handed⟩

theorem enableWrite_accepted (w₀ : World υ) (bytes : Bytes) (enable : Bool) :
    Meets (Accepted w₀ bytes) (enableWrite enable) (fun _ => Accepted w₀ bytes)
      fun fault w => fault = .epollCtlMod ∧ Accepted w₀ bytes w := by
  mvcgen [enableWrite, getChannel, updateChannel, record, modifyCon, modifyBase]
  case vc1 w accepted _ _ _ _ _ _ _ _ =>
    exact Accepted.of_same (w := w) accepted rfl (fun ref => by cases ref <;> rfl) rfl rfl
  case vc2 w accepted _ _ _ _ _ _ =>
    exact ⟨True.intro,
      Accepted.of_same (w := w) accepted rfl (fun ref => by cases ref <;> rfl) rfl rfl⟩
  case vc3 w accepted absent =>
    have present := accepted.present
    rw [Present, absent] at present
    cases present

theorem endWrite_accepted (w₀ : World υ) (bytes : Bytes) (ch : Channel) (stop : WriteStop) :
    Meets (Accepted w₀ bytes) (endWrite ch stop) (fun _ => Accepted w₀ bytes)
      fun fault w => fault = .epollCtlMod ∧ Accepted w₀ bytes w := by
  cases stop with
  | done => mvcgen [endWrite]
  | again =>
      have enables := enableWrite_accepted w₀ bytes true
      mvcgen [endWrite, enables]
  | failed =>
      mvcgen [endWrite, record]
      case vc1 w accepted _ =>
        exact Accepted.of_same (w := w) accepted accepted.present
          (fun ref => by cases ref <;> rfl) rfl rfl

/-- **`isend` writes the front of the bytes**, and leaves the buffers alone. -/
theorem isend_accepted (w₀ : World υ) (buf : Bytes) :
    Meets (fun w => w = w₀ ∧ Present w) (isend buf)
      (fun sended w => sended ≤ buf.length ∧ Accepted w₀ (buf.take sended) w)
      fun fault w => fault = .epollCtlMod ∧ ∃ bytes, Accepted w₀ bytes w := by
  have ends := endWrite_accepted w₀ (buf.take (writeLoop w₀.net.writes buf.length).1)
  have untouched : Present w₀ → Accepted w₀ (buf.take 0) w₀ :=
    fun present => ⟨present, fun _ => rfl, by simp, rfl⟩
  mvcgen [isend, getChannel, ends]
  case vc1 w start =>
    obtain ⟨rfl, present⟩ := start
    exact ⟨Nat.zero_le _, untouched present⟩
  case vc2 w start _ _ _ =>
    obtain ⟨rfl, present⟩ := start
    exact ⟨Nat.zero_le _, untouched present⟩
  case vc3 w start _ _ _ _ =>
    obtain ⟨rfl, present⟩ := start
    exact ⟨present, fun ref => by cases ref <;> rfl, rfl, rfl⟩
  case vc4 w start _ _ _ _ _ _ accepted =>
    obtain ⟨rfl, present⟩ := start
    exact ⟨(writeLoop_spec _ _).1, accepted⟩
  case vc5 => exact fun fault accepted => ⟨fault, _, accepted⟩
  case vc6 w start absent =>
    have present := start.2
    rw [Present, absent] at present
    cases present

/-! ## Sending a buffer -/

/-- What is on the socket, in `output_` and in the buffer to be sent. -/
def load (ref : BufferRef) (w : World υ) : Bytes :=
  w.seen.wire ++ (w.con.output.contents ++ pending ref w)

/-- A call of `send(Buffer &)` on its way loses no byte and adds none. -/
structure Carries (ref : BufferRef) (w₀ w : World υ) : Prop where
  present : Present w
  input : ref ≠ .input → w.con.input = w₀.con.input
  handed : w.seen.handed = w₀.seen.handed
  load : (load ref w).Perm (load ref w₀)

/-- What is asked of a fault. -/
def Fails (ref : BufferRef) (w₀ : World υ) (fault : Fault) (w : World υ) : Prop :=
  fault = .epollCtlMod ∧ (ref ≠ .input → w.con.input = w₀.con.input)

section Buffer

variable {ref : BufferRef} {w w' : World υ}

theorem Carries.refl (present : Present w) : Carries ref w w := ⟨present, fun _ => rfl, rfl, .rfl⟩

theorem Carries.trans {w₁ w₂ : World υ} (first : Carries ref w₀ w₁) (second : Carries ref w₁ w₂) :
    Carries ref w₀ w₂ :=
  ⟨second.present, fun apart => (second.input apart).trans (first.input apart),
    second.handed.trans first.handed, second.load.trans first.load⟩

theorem absorb_input (apart : ref ≠ .input) (w : World υ) :
    (absorb ref w).con.input = w.con.input := by
  cases ref with
  | input => exact absurd rfl apart
  | arg => rfl
  | output => rfl

theorem Carries.absorb (present : Present w) : Carries ref w (absorb ref w) where
  present := by rw [Present, absorb_channel]; exact present
  input apart := absorb_input apart w
  handed := by rw [absorb_seen]
  load := by simp [TcpConn.load]

theorem Carries.of_accepted (accepted : Accepted w [] w') : Carries ref w w' where
  present := accepted.present
  input _ := accepted.buffers .input
  handed := accepted.handed
  load := by
    have output := accepted.buffers .output
    have same : pending ref w' = pending ref w := by simp only [pending, accepted.buffers ref]
    simp only [readBuffer] at output
    rw [TcpConn.load, TcpConn.load, output, same, accepted.wire, List.append_nil]

theorem sendQueued_carries (w₀ : World υ) (ref : BufferRef) :
    Meets (Carries ref w₀) (sendQueued ref) (fun _ => Carries ref w₀) (Fails ref w₀) := by
  mvcgen [sendQueued, getChannel]
  case vc1 w carries _ _ _ _ => exact carries.trans (.absorb carries.present)
  case vc3 w carries absent =>
    have present := carries.present
    rw [Present, absent] at present
    cases present

/-- The front of the buffer is on the socket, and then taken out of the buffer. -/
theorem Carries.consumed {sended : ℕ} {rest : Buffer}
    (accepted : Accepted w ((readBuffer ref w).contents.take sended) w')
    (consumed : (readBuffer ref w).consume sended = some rest) (present : Present w') :
    Carries ref w (writeBuffer ref rest w') := by
  obtain ⟨-, contents⟩ := Buffer.contents_of_consume consumed
  have output := accepted.buffers .output
  have input := accepted.buffers .input
  simp only [readBuffer] at output input
  refine ⟨?_, ?_, ?_, ?_⟩
  · rw [Present, writeBuffer_channel]
    exact present
  · intro apart
    cases ref with
    | input => exact absurd rfl apart
    | arg => exact input
    | output => exact input
  · rw [writeBuffer_seen]
    exact accepted.handed
  · refine List.perm_iff_count.mpr fun byte => ?_
    have split := congrArg (List.count byte)
      (List.take_append_drop sended (readBuffer ref w).contents)
    rw [List.count_append] at split
    cases ref with
    | output =>
        simp only [readBuffer] at split accepted contents
        simp only [TcpConn.load, pending, if_true, writeBuffer, accepted.wire, contents, List.append_nil,
          List.count_append]
        omega
    | arg =>
        simp only [readBuffer] at split accepted contents
        simp only [TcpConn.load, pending, reduceCtorEq, if_false, writeBuffer, readBuffer, accepted.wire,
          contents, output, List.count_append]
        omega
    | input =>
        simp only [readBuffer] at split accepted contents
        simp only [TcpConn.load, pending, reduceCtorEq, if_false, writeBuffer, readBuffer, accepted.wire,
          contents, output, List.count_append]
        omega

theorem sendDirect_carries (w₀ : World υ) (ref : BufferRef) :
    Meets (Carries ref w₀) (sendDirect ref) (fun _ => Carries ref w₀) (Fails ref w₀) := by
  refine meets_iff.mpr fun w carries => ?_
  by_cases nothing : (readBuffer ref w).size = 0
  · simpa [sendDirect, nothing] using carries
  · have sent := isend_accepted w (readBuffer ref w).contents
    cases ran : (isend (readBuffer ref w).contents).run w with
    | ok sended w' =>
        obtain ⟨fits, accepted⟩ := sent.ok ⟨rfl, carries.present⟩ ran
        rw [Buffer.length_contents] at fits
        obtain ⟨rest, consumed, -⟩ := Buffer.consume_spec fits
        have done : (consume ref sended).run w' = .ok () (writeBuffer ref rest w') := by
          simp [consume, accepted.buffers ref, consumed]
        have whole : (sendDirect ref).run w = .ok () (writeBuffer ref rest w') := by
          simp [sendDirect, nothing, ran, done]
        rw [whole]
        exact carries.trans (.consumed accepted consumed accepted.present)
    | error fault w' =>
        obtain ⟨rfl, bytes, accepted⟩ := sent.fault ⟨rfl, carries.present⟩ ran
        have whole : (sendDirect ref).run w = .error .epollCtlMod w' := by
          simp [sendDirect, nothing, ran]
        rw [whole]
        exact ⟨rfl, fun apart => (accepted.buffers .input).trans (carries.input apart)⟩

theorem enableWrite_carries (w₀ : World υ) (ref : BufferRef) (enable : Bool) :
    Meets (fun w => Carries ref w₀ w ∧ pending ref w = []) (enableWrite enable)
      (fun _ w => Carries ref w₀ w ∧ pending ref w = []) (Fails ref w₀) := by
  refine meets_iff.mpr fun w start => ?_
  have unsent : Accepted w [] w := ⟨start.1.present, fun _ => rfl, by simp, rfl⟩
  have spec := enableWrite_accepted w [] enable
  cases ran : (enableWrite enable).run w with
  | ok _ w' =>
      have accepted := spec.ok unsent ran
      refine ⟨start.1.trans (.of_accepted accepted), ?_⟩
      rw [← start.2, pending, pending, accepted.buffers ref]
  | error fault w' =>
      obtain ⟨rfl, accepted⟩ := spec.fault unsent ran
      exact ⟨rfl, fun apart => (accepted.buffers .input).trans (start.1.input apart)⟩

theorem sendRest_carries (w₀ : World υ) (ref : BufferRef) :
    Meets (Carries ref w₀) (sendRest ref) (fun _ w => Carries ref w₀ w ∧ pending ref w = [])
      (Fails ref w₀) := by
  have enables := enableWrite_carries w₀ ref true
  have absorbed : ∀ w, Carries ref w₀ w →
      Carries ref w₀ (absorb ref w) ∧ pending ref (absorb ref w) = [] :=
    fun w carries => ⟨carries.trans (.absorb carries.present), pending_absorb ref w⟩
  mvcgen [sendRest, getChannel, enables]
  case vc1 w carries _ _ _ _ _ => exact absorbed w carries
  case vc2 w carries _ _ _ _ _ => exact absorbed w carries
  case vc3 w carries _ t absent =>
    have present := (absorbed w carries).1.present
    rw [Present, absent] at present
    cases present
  case vc4 w carries nothing =>
    refine ⟨carries, ?_⟩
    have no_bytes : (readBuffer ref w).contents = [] := Buffer.contents_eq_nil_iff.mpr (by simpa using nothing)
    rw [pending, no_bytes, ite_self]

/-- **`send(Buffer &)` loses no byte and adds none.** -/
theorem send_carries (w₀ : World υ) (ref : BufferRef) :
    Meets (fun w => w = w₀) (send ref)
      (fun _ w => (w₀.con.channel = none ∧ w = w₀) ∨
        (Present w₀ ∧ Carries ref w₀ w ∧ pending ref w = []))
      (Fails ref w₀) := by
  have queued := sendQueued_carries w₀ ref
  have direct := sendDirect_carries w₀ ref
  have rest := sendRest_carries w₀ ref
  mvcgen [send, record, queued, direct, rest]
  case vc1 w start absent => exact .inl ⟨start ▸ absent, start⟩
  case vc2 w start _ channel _ =>
    subst start
    have present : Present w := by rw [Present, channel]; rfl
    exact ⟨present, fun _ => rfl, rfl, .rfl⟩
  case vc5 w start _ channel _ _ _ _ _ _ _ _ _ =>
    subst start
    exact fun carries sent => .inr ⟨by rw [Present, channel]; rfl, carries, sent⟩

end Buffer

/-! ## The operations -/

/-- What the socket has accepted and what is queued is, up to the order, what was handed
over for the socket. -/
def Flowing (w : World υ) : Prop :=
  Present w → (w.seen.wire ++ w.con.output.contents).Perm w.seen.handed

/-- What a send operation does for the input and the flow of output. -/
def Sent (op : Op) (w₀ w : World υ) : Prop :=
  (op.sparesInput = true → w.con.input = w₀.con.input) ∧ (Flowing w₀ → Flowing w)

/-- How a send operation stops. -/
def SendStops (op : Op) (w₀ : World υ) (fault : Fault) (w : World υ) : Prop :=
  op.mayFault fault ∧ (op.sparesInput = true → w.con.input = w₀.con.input)

@[simp] theorem handOver_arg (bytes : Bytes) (w : World υ) : (handOver bytes w).arg = w.arg := by
  unfold handOver
  split_ifs <;> rfl

@[simp] theorem handOver_wire (bytes : Bytes) (w : World υ) :
    (handOver bytes w).seen.wire = w.seen.wire := by
  unfold handOver
  split_ifs <;> rfl

theorem handOver_handed {w : World υ} (present : Present w) (bytes : Bytes) :
    (handOver bytes w).seen.handed = w.seen.handed ++ bytes := by
  unfold handOver
  rw [if_pos (show w.con.channel.isSome = true from present)]

/-- The bytes that were handed over are on the socket or in `output_`. -/
theorem flowing_of_handOver {bytes : Bytes} {w : World υ} (present : Present w₀)
    (handed : w.seen.handed = (handOver bytes w₀).seen.handed)
    (load : (w.seen.wire ++ w.con.output.contents).Perm
      (w₀.seen.wire ++ (w₀.con.output.contents ++ bytes))) (flowing : Flowing w₀) : Flowing w := by
  intro _
  rw [handed, handOver_handed present]
  refine load.trans ?_
  rw [← List.append_assoc]
  exact (flowing present).append_right bytes

theorem sendBytes_sent (w₀ : World υ) (bytes : Bytes) :
    Meets (fun w => w = handOver bytes w₀) (sendBytes bytes) (fun _ => Sent (.send bytes) w₀)
      (SendStops (.send bytes) w₀) := by
  have writes := isend_accepted (handOver bytes w₀) bytes
  mvcgen [sendBytes, sendUnqueued, modifyCon, writes]
  case vc2 w start present _ sended _ w' sent _ =>
    subst start
    rw [handOver_con] at present
    have input := sent.2.buffers .input
    have output := sent.2.buffers .output
    simp only [readBuffer, handOver_con] at input output
    have load : (w'.seen.wire ++ (w'.con.output.append (bytes.drop sended)).contents).Perm
        (w₀.seen.wire ++ (w₀.con.output.contents ++ bytes)) := by
      rw [Buffer.contents_append, sent.2.wire, handOver_wire, output]
      refine List.perm_iff_count.mpr fun byte => ?_
      have split := congrArg (List.count byte) (List.take_append_drop sended bytes)
      simp only [List.count_append] at split ⊢
      omega
    exact ⟨fun _ => input, flowing_of_handOver present sent.2.handed load⟩
  case vc3 w start present _ sended all w' sent =>
    subst start
    rw [handOver_con] at present
    have input := sent.2.buffers .input
    have output := sent.2.buffers .output
    simp only [readBuffer, handOver_con] at input output
    refine ⟨fun _ => input, flowing_of_handOver present sent.2.handed ?_⟩
    have whole : bytes.take sended = bytes := by
      refine List.take_of_length_le ?_
      rw [not_not, List.length_drop] at all
      omega
    rw [sent.2.wire, whole, handOver_wire, output, List.append_assoc]
    exact .append_left _ (List.perm_append_comm)
  case vc4 w start _ _ _ _ =>
    rintro rfl ⟨accepted, sent⟩
    have input := sent.buffers .input
    simp only [readBuffer, handOver_con] at input
    exact ⟨rfl, fun _ => input⟩
  case vc5 w start present _ _ _ =>
    subst start
    rw [handOver_con] at present
    have load : ((handOver bytes w₀).seen.wire ++
        ((handOver bytes w₀).con.output.append (bytes.drop 0)).contents).Perm
        (w₀.seen.wire ++ (w₀.con.output.contents ++ bytes)) := by simp
    have input : (handOver bytes w₀).con.input = w₀.con.input := by rw [handOver_con]
    exact ⟨fun _ => input, flowing_of_handOver present rfl load⟩
  case vc6 w start present _ none_left =>
    subst start
    rw [handOver_con] at present
    have nothing : bytes = [] := by simpa using none_left
    refine ⟨fun _ => by rw [handOver_con], flowing_of_handOver present rfl ?_⟩
    simp [nothing]
  case vc7 w start absent =>
    subst start
    refine ⟨fun _ => by rw [handOver_con], fun _ present => ?_⟩
    exact absurd present absent

/-- A call of `send(Buffer &)` after its bytes were handed over. -/
theorem send_sent (op : Op) (ref : BufferRef) (bytes : Bytes) (w₀ w₁ : World υ)
    (apart : op.sparesInput = true → ref ≠ .input) (faults : op.mayFault .epollCtlMod)
    (channel : w₁.con.channel = w₀.con.channel) (input : w₁.con.input = w₀.con.input)
    (handed : w₁.seen.handed = (handOver bytes w₀).seen.handed)
    (ready : TcpConn.load ref w₁ = w₀.seen.wire ++ (w₀.con.output.contents ++ bytes)) :
    Meets (fun w => w = w₁) (send ref) (fun _ => Sent op w₀) (SendStops op w₀) := by
  refine (send_carries w₁ ref).imp (fun _ start => start) (fun _ w sent => ?_)
    fun fault w stop => ?_
  · rcases sent with ⟨absent, rfl⟩ | ⟨present, carries, nothing⟩
    · refine ⟨fun _ => input, fun _ present => ?_⟩
      rw [Present, absent] at present
      cases present
    · refine ⟨fun spares => (carries.input (apart spares)).trans input, ?_⟩
      have load := carries.load
      rw [ready, TcpConn.load, nothing, List.append_nil] at load
      rw [Present, channel] at present
      exact flowing_of_handOver present (carries.handed.trans handed) load
  · exact ⟨stop.1 ▸ faults, fun spares => (stop.2 (apart spares)).trans input⟩

theorem sendOutput_sent (op : Op) (faults : op.mayFault .epollCtlMod) (w₀ : World υ)
    (bytes : Bytes) :
    Meets (fun w => w = handOver bytes w₀) (sendOutput bytes) (fun _ => Sent op w₀)
      (SendStops op w₀) := by
  have sends := send_sent op .output bytes w₀
    { handOver bytes w₀ with
      con := { (handOver bytes w₀).con with output := (handOver bytes w₀).con.output.append bytes } }
    (fun _ => by decide) faults (by simp) (by simp) rfl (by simp [TcpConn.load, pending])
  mvcgen [sendOutput, modifyCon, sends]
  case vc1 w start _ =>
    subst start
    rfl

theorem sendMsg_sent (msg : Bytes) (w₀ : World υ) :
    Meets (fun w => w = handOver (encoded msg w₀) w₀) (sendMsg msg)
      (fun _ => Sent (.sendMsg msg) w₀) (SendStops (.sendMsg msg) w₀) := by
  refine meets_iff.mpr ?_
  rintro w rfl
  cases coded : w₀.con.codec with
  | none =>
      rw [(sendMsg_none (by rwa [handOver_con]) msg).2]
      exact ⟨.inr rfl, fun _ => by rw [handOver_con]⟩
  | some codec =>
      rw [sendMsg_some (by rwa [handOver_con]), encoded_handOver]
      exact meets_iff.mp (sendOutput_sent (.sendMsg msg) (.inl rfl) w₀ (encoded msg w₀)) _ rfl

/-- **The send operations** leave `input_` to the others, keep the flow of output, and stop
only with the faults that they may have. -/
theorem runOp_sent (self : Act υ Unit) {op : Op} (sending : op.sends = true) (w₀ : World υ) :
    Meets (fun w => w = w₀) (runOp self op) (fun _ => Sent op w₀) (SendStops op w₀) := by
  cases op with
  | send bytes =>
      have sends := sendBytes_sent w₀ bytes
      mvcgen [runOp, sends]
      case vc1 w start _ => rw [← start]
  | sendBuffer buffer =>
      have sends := send_sent (.sendBuffer buffer) .arg buffer.contents w₀
        { handOver buffer.contents w₀ with arg := buffer } (fun _ => by decide) rfl
        (by simp) (by simp) rfl (by simp [TcpConn.load, pending, readBuffer])
      mvcgen [runOp, sends]
      case vc1 w start _ _ =>
        subst start
        rfl
  | sendInput =>
      have sends := send_sent .sendInput .input w₀.con.input.contents w₀
        (handOver w₀.con.input.contents w₀) (fun spares => by cases spares) rfl
        (by simp) (by simp) rfl (by simp [TcpConn.load, pending, readBuffer])
      mvcgen [runOp, sends]
      case vc1 w start _ =>
        subst start
        rfl
  | sendOutput bytes =>
      have sends := sendOutput_sent (.sendOutput bytes) rfl w₀ bytes
      mvcgen [runOp, sends]
      case vc1 w start _ => rw [← start]
  | sendMsg msg =>
      have sends := sendMsg_sent msg w₀
      mvcgen [runOp, sends]
      case vc1 w start _ => rw [← start]
  | consumeInput len =>
      mvcgen [runOp, consume]
      case vc1 w start rest consumed _ =>
        subst start
        exact ⟨fun spares => Bool.noConfusion spares, fun flowing => flowing⟩
      case vc2 w start _ => exact ⟨rfl, fun spares => Bool.noConfusion spares⟩
  | _ => cases sending

/-! ## Writing what was queued -/

/-- What `handleWrite` does to the buffers. -/
def Flushed (w₀ w : World υ) : Prop :=
  w.con.input = w₀.con.input ∧ (Flowing w₀ → Flowing w)

/-- How writing what was queued stops; the channel was there unless the fault says so. -/
def FlushStops (w₀ : World υ) (fault : Fault) (w : World υ) : Prop :=
  (fault = .epollCtlMod ∨ (fault = .nullChannel ∧ ¬ Present w₀)) ∧ w.con.input = w₀.con.input

theorem flushOutput_flushed (w₀ : World υ) :
    Meets (fun w => w = w₀) flushOutput (fun _ => Flushed w₀) (FlushStops w₀) := by
  refine meets_iff.mpr ?_
  rintro w rfl
  by_cases nothing : w.con.output.size = 0
  · obtain ⟨rest, consumed, contents⟩ := Buffer.consume_spec (Nat.zero_le w.con.output.size)
    have ran : (flushOutput).run w = .ok () { w with con := { w.con with output := rest } } := by
      simp [flushOutput, isend, nothing, consume, readBuffer, consumed, writeBuffer]
    rw [ran]
    refine ⟨rfl, fun flowing present => ?_⟩
    have same : rest.contents = w.con.output.contents := contents
    simpa [same] using flowing present
  by_cases present : Present w
  · have ran : (flushOutput).run w = (sendDirect .output).run w := by
      simp [flushOutput, sendDirect, readBuffer, nothing]
    rw [ran]
    have direct := sendDirect_carries w .output
    cases outcome : (sendDirect .output).run w with
    | ok _ w' =>
        have carries := direct.ok (.refl present) outcome
        refine ⟨carries.input (by decide), fun flowing _ => ?_⟩
        have load := carries.load
        simp only [TcpConn.load, pending, if_true, List.append_nil] at load
        rw [carries.handed]
        exact load.trans (flowing present)
    | error fault w' =>
        obtain ⟨rfl, input⟩ := direct.fault (.refl present) outcome
        exact ⟨.inl rfl, input (by decide)⟩
  · have absent : w.con.channel = none := by simpa [Present] using present
    have ran : (flushOutput).run w = .error .nullChannel w := by
      simp [flushOutput, isend, nothing, getChannel_absent absent]
    rw [ran]
    exact ⟨.inr ⟨rfl, present⟩, rfl⟩

theorem stopWriting_flushed (w₀ : World υ) :
    Meets (fun w => w = w₀) stopWriting (fun _ => Flushed w₀) (FlushStops w₀) := by
  have stops : Meets (fun w => w = w₀ ∧ Present w) (enableWrite false) (fun _ => Flushed w₀)
      (FlushStops w₀) := by
    refine meets_iff.mpr ?_
    rintro w ⟨rfl, present⟩
    have unsent : Accepted w [] w := ⟨present, fun _ => rfl, by simp, rfl⟩
    have spec := enableWrite_accepted w [] false
    cases ran : (enableWrite false).run w with
    | ok _ w' =>
        have accepted := spec.ok unsent ran
        have output := accepted.buffers .output
        simp only [readBuffer] at output
        refine ⟨accepted.buffers .input, fun flowing _ => ?_⟩
        rw [accepted.wire, output, accepted.handed, List.append_nil]
        exact flowing present
    | error fault w' =>
        obtain ⟨rfl, accepted⟩ := spec.fault unsent ran
        exact ⟨.inl rfl, accepted.buffers .input⟩
  mvcgen [stopWriting, getChannel, stops]
  case vc1 w start _ _ channel _ => exact ⟨start, by rw [Present, channel]; rfl⟩
  case vc2 w start _ _ _ _ => exact start ▸ ⟨rfl, id⟩
  case vc3 w start _ absent =>
    subst start
    exact ⟨.inr ⟨rfl, by simp [Present, absent]⟩, rfl⟩
  case vc4 w start _ => exact start ▸ ⟨rfl, id⟩

end TcpConn

end Handy
