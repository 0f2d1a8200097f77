import Handy.Conn.Chunks
import Handy.Http.Pipelining
import Handy.Proto

/-!
# A server that dispatches protobuf messages

The read callback of such a server tests `msgComplete`, decodes one message and gives it to the
`ProtoMsgDispatcher`, which looks for the callback of its descriptor. It does not look for a second
message, so of the messages that have arrived with one readable event all but the first wait for
the next events.

Whatever `read` answers, the messages that were dispatched after some readable events are as many as
one can serve one at a time (`ProtoMsgDispatcher.dispatched_one_at_a_time`), and nothing that has
arrived waits exactly if no number of last events has brought more messages than there are events
(`ProtoMsgDispatcher.nothing_waits_iff`).
-/

set_option autoImplicit false
set_option mvcgen.warning false

namespace Handy

open TcpConn

/-- What a callback for messages does: to its connection, and to the state of the program. -/
abbrev ProtoCallBack (Message υ : Type) := Message → υ → List Op × υ

/-- `ProtoMsgDispatcher`: the callbacks, by the name of the descriptor. -/
structure ProtoMsgDispatcher (Message υ : Type) where
  protocbs : Bytes → Option (ProtoCallBack Message υ)

namespace ProtoMsgDispatcher

variable {Message υ : Type} (pb : Protobuf Message) (dispatch : ProtoMsgDispatcher Message υ)

/-- `ProtoMsgDispatcher::onMsg` for the messages with a descriptor. -/
def onMsg (name : Bytes) (cb : ProtoCallBack Message υ) : ProtoMsgDispatcher Message υ :=
  ⟨Function.update dispatch.protocbs name (some cb)⟩

/-- `ProtoMsgDispatcher::handle`; a message of an unknown type is an error in the log. -/
def handle (user : υ) (msg : Message) : List Op × υ :=
  (dispatch.protocbs (pb.fullName msg)).elim ([], user) fun cb => cb msg user

/-- The state of the program when some messages have been handled. -/
def handleAll (user : υ) (msgs : List Message) : υ :=
  msgs.foldl (fun user msg => (dispatch.handle pb user msg).2) user

theorem handleAll_append (user : υ) (msgs : List Message) (msg : Message) :
    dispatch.handleAll pb user (msgs ++ [msg]) =
      (dispatch.handle pb (dispatch.handleAll pb user msgs) msg).2 := by
  rw [handleAll, List.foldl_append]
  rfl

/-- The callback of `onConnRead`: what it does to the connection, and the state of the program. -/
def onConnRead (w : World υ) : List Op × υ :=
  if ProtoMsgCodec.msgComplete w.con.input then
    ((ProtoMsgCodec.decode pb w.con.input).1.elim ([.close], w.user) fun msg =>
      (.consumeInput (w.con.input.size - (ProtoMsgCodec.decode pb w.con.input).2.size) ::
        (dispatch.handle pb w.user msg).1, (dispatch.handle pb w.user msg).2))
  else ([], w.user)

/-- User code with this read callback. -/
def Serves (σ : UserCode υ) : Prop := ∀ w, σ .read w = dispatch.onConnRead pb w

/-- The callbacks for the messages leave the connection alone; they may end the loop of its base. -/
def Calm (msgs : List Message) : Prop :=
  ∀ msg ∈ msgs, ∀ user, ∀ op ∈ (dispatch.handle pb user msg).1, op = .exit

/-! ## The messages of a stream -/

/-- A connected connection with `onConnRead`, whose socket will not fail or end. -/
structure Listening (w : World υ) : Prop where
  connected : w.con.state = .connected
  isOpen : Open w
  readcb : w.con.readcb = some .read
  roomy : 0 < w.con.input.exp
  idle : ∀ id ∈ w.con.idleIds, (w.base.findIdle id).isSome = true
  reads : ∀ outcome ∈ w.net.reads, outcome ≠ .eof ∧ outcome ≠ .error

/-- The frames of the messages. -/
def frames (msgs : List Message) : List Bytes := msgs.map (ProtoMsgCodec.frame pb)

/-- It has dispatched the first `k` messages, and the others are in `input_` and on the way. -/
structure Dispatched (msgs : List Message) (w₀ : World υ) (k : ℕ) (w : World υ) : Prop
    extends Listening w where
  bounded : k ≤ msgs.length
  user : w.user = dispatch.handleAll pb w₀.user (msgs.take k)
  waiting : w.con.input.contents ++ w.net.peer = ((frames pb msgs).drop k).flatten

/-- How many of the messages have arrived. -/
def arrived (msgs : List Message) (w : World υ) : ℕ :=
  completed (frames pb msgs) ((frames pb msgs).flatten.length - w.net.peer.length)

section Dispatching

variable {pb dispatch} {msgs : List Message} {w₀ w : World υ} {k : ℕ}

theorem Dispatched.le_arrived_iff (dispatched : Dispatched pb dispatch msgs w₀ k w) (i : ℕ) :
    k + i ≤ arrived pb msgs w ↔ k + i ≤ msgs.length ∧
      (((frames pb msgs).drop k).take i).flatten.length ≤ w.con.input.size := by
  have sizes := congrArg List.length dispatched.waiting
  have split := congrArg (fun pieces => (List.flatten pieces).length)
    (List.take_append_drop k (frames pb msgs))
  simp only [List.flatten_append, List.length_append, Buffer.length_contents] at sizes split
  rw [arrived, le_completed_iff, List.take_add, List.flatten_append, List.length_append, frames,
    List.length_map]
  exact and_congr_right fun _ => by rw [← frames]; omega

theorem Dispatched.le_arrived (dispatched : Dispatched pb dispatch msgs w₀ k w) :
    k ≤ arrived pb msgs w := by
  have none := (dispatched.le_arrived_iff 0).mpr ⟨dispatched.bounded, by simp⟩
  exact none

variable (serves : ∀ msg ∈ msgs, pb.Serves msg)
  (small : ∀ msg ∈ msgs, (ProtoMsgCodec.frame pb msg).length < 2 ^ 31)

include small in
/-- A message that has not arrived is not complete. -/
theorem Dispatched.incomplete (dispatched : Dispatched pb dispatch msgs w₀ k w)
    (waits : ¬ k + 1 ≤ arrived pb msgs w) : ProtoMsgCodec.msgComplete w.con.input = false := by
  have waiting := dispatched.waiting
  rw [frames, ← List.map_drop] at waiting
  have partly := (dispatched.le_arrived_iff 1).not.mp waits
  rw [frames, ← List.map_drop] at partly
  cases rest : msgs.drop k with
  | nil =>
      rw [rest] at waiting
      have empty : w.con.input.size = 0 := by
        rw [← Buffer.length_contents, (List.append_eq_nil_iff.mp waiting).1]
        rfl
      simp [ProtoMsgCodec.msgComplete, empty]
  | cons msg others =>
      have member : msg ∈ msgs := List.mem_of_mem_drop (rest ▸ List.mem_cons_self)
      have inside : k + 1 ≤ msgs.length := by
        have longer := congrArg List.length rest
        rw [List.length_drop, List.length_cons] at longer
        omega
      rw [rest, List.map_cons, List.flatten_cons] at waiting
      have short : w.con.input.contents.length < (ProtoMsgCodec.frame pb msg).length := by
        rw [rest] at partly
        simp only [inside, true_and, List.map_cons, List.take_succ_cons, List.take_zero,
          List.flatten_cons, List.flatten_nil, List.append_nil, not_le] at partly
        rwa [Buffer.length_contents]
      have front : w.con.input.contents <+: ProtoMsgCodec.frame pb msg :=
        List.prefix_of_prefix_length_le ⟨_, waiting⟩ (List.prefix_append _ _) short.le
      exact ProtoMsgCodec.msgComplete_prefix pb (small msg member) front fun whole => by
        rw [whole] at short
        exact lt_irrefl _ short

include serves small in
/-- **A message that has arrived is decoded**, consumed and dispatched. -/
theorem Dispatched.decodes (dispatched : Dispatched pb dispatch msgs w₀ k w)
    (more : k + 1 ≤ arrived pb msgs w) : ∃ msg ∈ msgs, ∃ rest len,
    dispatch.onConnRead pb w = (.consumeInput len :: (dispatch.handle pb w.user msg).1,
      (dispatch.handle pb w.user msg).2) ∧
      w.con.input.consume len = some rest ∧
      Dispatched pb dispatch msgs w₀ (k + 1) { w with
        con := { w.con with input := rest }, user := (dispatch.handle pb w.user msg).2 } := by
  obtain ⟨inside, fits⟩ := (dispatched.le_arrived_iff 1).mp more
  have waiting := dispatched.waiting
  rw [frames, ← List.map_drop] at waiting fits
  obtain ⟨msg, others, rest⟩ := List.exists_cons_of_length_pos
    (by rw [List.length_drop]; omega : 0 < (msgs.drop k).length)
  rw [rest] at waiting fits
  simp only [List.map_cons, List.take_succ_cons, List.take_zero, List.flatten_cons,
    List.flatten_nil, List.append_nil] at waiting fits
  rw [← Buffer.length_contents] at fits
  obtain ⟨tail, contents⟩ : ProtoMsgCodec.frame pb msg <+: w.con.input.contents :=
    List.prefix_of_prefix_length_le (List.prefix_append _ _) ⟨_, waiting⟩ fits
  have member : msg ∈ msgs := List.mem_of_mem_drop (rest ▸ List.mem_cons_self)
  obtain ⟨complete, after, decoded, left⟩ :=
    ProtoMsgCodec.decode_frame pb (serves msg member) (small msg member) contents.symm
  have len : w.con.input.size - after.size = (ProtoMsgCodec.frame pb msg).length := by
    rw [← Buffer.length_contents, ← Buffer.length_contents, left, ← contents, List.length_append]
    omega
  obtain ⟨buffer, consumed, unread⟩ := Buffer.consume_spec (Buffer.length_contents _ ▸ fits)
  rw [← contents, List.drop_left' rfl] at unread
  have next : msgs.take (k + 1) = msgs.take k ++ [msg] := by
    rw [List.take_add, rest]
    rfl
  refine ⟨msg, member, buffer, (ProtoMsgCodec.frame pb msg).length, ?_, consumed,
    ⟨dispatched.connected, dispatched.isOpen, dispatched.readcb, ?_, dispatched.idle,
      dispatched.reads⟩, inside, ?_, ?_⟩
  · rw [onConnRead, if_pos complete, decoded, Option.elim_some, len]
  · show 0 < buffer.exp
    rw [Buffer.exp_of_consume consumed]
    exact dispatched.roomy
  · show (dispatch.handle pb w.user msg).2 = _
    rw [next, handleAll_append, ← dispatched.user]
  · show buffer.contents ++ w.net.peer = _
    have later : (frames pb msgs).drop (k + 1) = others.map (ProtoMsgCodec.frame pb) := by
      rw [frames, ← List.map_drop, ← List.drop_drop, rest]
      rfl
    rw [← contents, List.append_assoc] at waiting
    rw [unread, later]
    exact List.append_cancel_left waiting

/-! ### One readable event -/

variable {σ : UserCode υ} (self : Act υ Unit)

theorem runOps_exits {ops : List Op} (calm : ∀ op ∈ ops, op = .exit) :
    Meets (Dispatched pb dispatch msgs w₀ k) (runOps self ops)
      (fun _ => Dispatched pb dispatch msgs w₀ k) fun _ _ => False := by
  induction ops with
  | nil => mvcgen [runOps]
  | cons op rest ih =>
      obtain rfl := calm op List.mem_cons_self
      have others := ih fun other member => calm other (List.mem_cons_of_mem _ member)
      mvcgen [runOps, runOp, modifyBase, others]
      case vc1 w dispatched _ =>
        exact ⟨⟨dispatched.connected, dispatched.isOpen, dispatched.readcb, dispatched.roomy,
          dispatched.idle, dispatched.reads⟩, dispatched.bounded, dispatched.user,
          dispatched.waiting⟩

variable (calm : dispatch.Calm pb msgs)

include serves small calm in
/-- The read callback dispatches one message, if there is one. -/
theorem callRead_dispatched (code : dispatch.Serves pb σ) :
    Meets (Dispatched pb dispatch msgs w₀ k) (callRead σ self)
      (fun _ w => Dispatched pb dispatch msgs w₀ (min (k + 1) (arrived pb msgs w)) w)
      fun _ _ => False := by
  refine meets_iff.mpr fun w dispatched => ?_
  by_cases more : k + 1 ≤ arrived pb msgs w
  · obtain ⟨msg, member, rest, len, does, consumed, after⟩ := dispatched.decodes serves small more
    have ran : (callRead σ self).run w = (runOps self (dispatch.handle pb w.user msg).1).run { w with
        con := { w.con with input := rest }, user := (dispatch.handle pb w.user msg).2 } := by
      simp [callRead, dispatched.readcb, callUser, code w, does, runOps, runOp, consume, readBuffer,
        consumed, writeBuffer]
    rw [ran]
    refine meets_iff.mp ((runOps_exits self (calm msg member w.user)).imp (fun _ => id) ?_
      fun _ _ => id) _ after
    intro _ w' dispatched'
    rwa [min_eq_left dispatched'.le_arrived]
  · have does : dispatch.onConnRead pb w = ([], w.user) := by
      simp [onConnRead, dispatched.incomplete small more]
    have ran : (callRead σ self).run w = .ok () w := by
      simp [callRead, dispatched.readcb, callUser, code w, does, runOps]
    have same := dispatched.le_arrived
    rw [ran]
    show Dispatched pb dispatch msgs w₀ (min (k + 1) (arrived pb msgs w)) w
    rwa [show min (k + 1) (arrived pb msgs w) = k by omega]

theorem updateIdles_dispatched (ids : List IdleId) :
    Meets (fun w => Dispatched pb dispatch msgs w₀ k w ∧ ∀ id ∈ ids, id ∈ w.con.idleIds)
      (updateIdles ids : Act υ Unit) (fun _ => Dispatched pb dispatch msgs w₀ k)
      fun _ _ => False := by
  induction ids with
  | nil =>
      mvcgen [updateIdles]
      case vc1 start => exact start.1
  | cons id rest ih =>
      mvcgen [updateIdles, handyUpdateIdle, ih]
      case vc1 w start base found _ =>
        obtain ⟨dispatched, members⟩ := start
        have idle : ∀ other ∈ w.con.idleIds, (base.findIdle other).isSome = true :=
          fun other member => EventBase.findIdle_updateIdle found (dispatched.idle other member)
        exact ⟨⟨⟨dispatched.connected, dispatched.isOpen, dispatched.readcb, dispatched.roomy, idle,
          dispatched.reads⟩, dispatched.bounded, dispatched.user, dispatched.waiting⟩,
          fun other member => members other (List.mem_cons_of_mem _ member)⟩
      case vc2 w start dangling =>
        have there := start.1.idle id (start.2 id List.mem_cons_self)
        unfold EventBase.updateIdle at dangling
        split at dangling
        case h_1 gone => rw [gone] at there; cases there
        case h_2 => cases dangling

/-- The reading loop. -/
theorem Dispatched.read (dispatched : Dispatched pb dispatch msgs w₀ k w) :
    (readLoop w.net.reads w.net.peer w.con.input).1 = .again ∧
      Dispatched pb dispatch msgs w₀ k { w with
        net := { w.net with
          reads := (readLoop w.net.reads w.net.peer w.con.input).2.1
          peer := (readLoop w.net.reads w.net.peer w.con.input).2.2.1 }
        con := { w.con with input := (readLoop w.net.reads w.net.peer w.con.input).2.2.2 } } := by
  obtain ⟨again, left, exp⟩ := readLoop_again w.net.peer dispatched.reads dispatched.roomy
  obtain ⟨new, split, contents⟩ := readLoop_spec w.net.reads w.net.peer w.con.input
  refine ⟨again, ⟨dispatched.connected, dispatched.isOpen, dispatched.readcb, ?_, dispatched.idle,
    fun outcome member => dispatched.reads outcome (left member)⟩, dispatched.bounded,
    dispatched.user, ?_⟩
  · show 0 < (readLoop w.net.reads w.net.peer w.con.input).2.2.2.exp
    rw [exp]
    exact dispatched.roomy
  · show (readLoop w.net.reads w.net.peer w.con.input).2.2.2.contents ++ _ = _
    rw [contents, List.append_assoc, ← split]
    exact dispatched.waiting

include serves small calm in
theorem readConnected_dispatched (code : dispatch.Serves pb σ) :
    Meets (Dispatched pb dispatch msgs w₀ k) (readConnected σ self)
      (fun _ w => Dispatched pb dispatch msgs w₀ (min (k + 1) (arrived pb msgs w)) w)
      fun _ _ => False := by
  have updates : ∀ ids, Meets (fun w => Dispatched pb dispatch msgs w₀ k w ∧
      ∀ id ∈ ids, id ∈ w.con.idleIds) (updateIdles ids : Act υ Unit) _ _ := updateIdles_dispatched
  have reads : Meets (Dispatched pb dispatch msgs w₀ k) (callRead σ self) _ _ :=
    callRead_dispatched serves small self calm code
  mvcgen [readConnected, getChannel, modifyCon, updates, reads]
  case vc1 w dispatched ch there closed _ =>
    obtain ⟨open_, same, valid⟩ := dispatched.isOpen
    rw [there] at same
    cases same
    exact absurd closed (not_lt.mpr valid)
  case vc2 w dispatched ch _ _ _ stop =>
    rw [dispatched.read.1] at stop
    cases stop
  case vc3 w dispatched ch _ _ _ _ => exact ⟨dispatched.read.2, fun _ member => member⟩
  case vc5 w dispatched nothing =>
    -- an empty buffer holds no message
    have same := dispatched.le_arrived
    have waits : ¬ k + 1 ≤ arrived pb msgs w := by
      intro more
      obtain ⟨msg, member, rest, len, does, consumed, after⟩ :=
        dispatched.decodes serves small more
      have complete : ProtoMsgCodec.msgComplete w.con.input = true := by
        by_contra incomplete
        rw [onConnRead, if_neg incomplete] at does
        cases does
      simp [ProtoMsgCodec.msgComplete, not_not.mp nothing] at complete
    rwa [show min (k + 1) (arrived pb msgs w) = k by omega]
  case vc6 w dispatched absent =>
    obtain ⟨ch, there, -⟩ := dispatched.isOpen
    rw [absent] at there
    cases there

include serves small calm in
/-- **A readable event dispatches one message at most.** -/
theorem readable_dispatched (code : dispatch.Serves pb σ) :
    Meets (Dispatched pb dispatch msgs w₀ k) (handleEvent σ .readable)
      (fun _ w => Dispatched pb dispatch msgs w₀ (min (k + 1) (arrived pb msgs w)) w)
      fun _ _ => False := by
  refine meets_iff.mpr fun w dispatched => ?_
  obtain ⟨ch, there, valid⟩ := dispatched.isOpen
  have ran : (handleEvent σ .readable).run w =
      (readConnected σ (handleRead σ maxNesting)).run w := by
    simp [handleEvent, there, valid, handleRead, handleReadOnce, dispatched.connected]
  rw [ran]
  exact meets_iff.mp (readConnected_dispatched serves small _ calm code) w dispatched

end Dispatching

/-! ## Many readable events -/

/-- The connection after some readable events. -/
def after {υ : Type} (σ : UserCode υ) (w₀ : World υ) (n : ℕ) : ConnConfig υ :=
  execute σ w₀ (List.replicate n .readable)

/-- Another event, if no fault has stopped the connection. -/
theorem after_succ {σ : UserCode υ} {w₀ w w' : World υ} {n : ℕ} (ran : after σ w₀ n = ⟨w, none⟩)
    (next : (handleEvent σ .readable).run w = .ok () w') : after σ w₀ (n + 1) = ⟨w', none⟩ := by
  induction n generalizing w₀ with
  | zero =>
      have same : w₀ = w := congrArg ConnConfig.world ran
      subst same
      simp [after, execute, next]
  | succ n ih =>
      rw [after, List.replicate_succ] at ran ⊢
      unfold execute at ran ⊢
      cases first : (handleEvent σ .readable).run w₀ with
      | error fault v =>
          rw [first] at ran
          cases congrArg ConnConfig.stopped ran
      | ok _ v =>
          rw [first] at ran
          exact ih ran

section Serving

variable {pb dispatch} {msgs : List Message} {w₀ : World υ} {σ : UserCode υ}
  (serves : ∀ msg ∈ msgs, pb.Serves msg)
  (small : ∀ msg ∈ msgs, (ProtoMsgCodec.frame pb msg).length < 2 ^ 31)
  (calm : dispatch.Calm pb msgs) (code : dispatch.Serves pb σ) (listening : Listening w₀) (unread : w₀.con.input.contents = [])
  (stream : w₀.net.peer = msgs.flatMap (ProtoMsgCodec.frame pb))

/-- How many of the messages have arrived with the first so many events. -/
def arrivedWith (pb : Protobuf Message) (σ : UserCode υ) (w₀ : World υ) (msgs : List Message)
    (j : ℕ) : ℕ := arrived pb msgs (after σ w₀ j).world

include serves small calm code listening unread stream

/-- **Some readable events**: the messages are served one at a time. -/
theorem after_dispatched (n : ℕ) : ∃ w, after σ w₀ n = ⟨w, none⟩ ∧
    Dispatched pb dispatch msgs w₀ (OneAtATime.served (arrivedWith pb σ w₀ msgs) n) w := by
  induction n with
  | zero =>
      refine ⟨w₀, rfl, listening, Nat.zero_le _, rfl, ?_⟩
      rw [unread, stream, List.nil_append, OneAtATime.served, List.drop_zero, frames, List.flatMap]
  | succ n ih =>
      obtain ⟨w, ran, dispatched⟩ := ih
      have step := meets_iff.mp (readable_dispatched serves small calm code) w dispatched
      cases next : (handleEvent σ .readable).run w with
      | error fault w' =>
          rw [next] at step
          exact step.elim
      | ok _ w' =>
          have ran' := after_succ ran next
          rw [next] at step
          have here : arrivedWith pb σ w₀ msgs (n + 1) = arrived pb msgs w' := by
            rw [arrivedWith, ran']
          refine ⟨w', ran', ?_⟩
          rw [OneAtATime.served, here]
          exact step

/-- **Messages are dispatched one at a time**: in any number of readable events, whatever `read`
answers, no fault stops the connection, and the state of the program is the one that the callbacks
make of as many messages as can be served one at a time, in order. -/
theorem dispatched_one_at_a_time (n : ℕ) : (after σ w₀ n).stopped = none ∧
    (after σ w₀ n).world.user = dispatch.handleAll pb w₀.user
      (msgs.take (OneAtATime.served (arrivedWith pb σ w₀ msgs) n)) := by
  obtain ⟨w, ran, dispatched⟩ := after_dispatched serves small calm code listening unread stream n
  rw [ran]
  exact ⟨rfl, dispatched.user⟩

/-- **Nothing that has arrived waits exactly if the messages are paced**: no number of last events
has brought more messages than there are events. -/
theorem nothing_waits_iff (n : ℕ) :
    ProtoMsgCodec.msgComplete (after σ w₀ n).world.con.input = false ↔
      ∀ j ≤ n, arrivedWith pb σ w₀ msgs n ≤ arrivedWith pb σ w₀ msgs j + (n - j) := by
  have none : arrivedWith pb σ w₀ msgs 0 = 0 := by
    have whole : (frames pb msgs).flatten.length - w₀.net.peer.length = 0 := by
      rw [stream, frames, List.flatMap, Nat.sub_self]
    have start : arrivedWith pb σ w₀ msgs 0 = completed (frames pb msgs)
      ((frames pb msgs).flatten.length - w₀.net.peer.length) := rfl
    rw [start, whole]
    refine completed_zero fun piece member => ?_
    obtain ⟨msg, -, rfl⟩ := List.mem_map.mp member
    have long := ProtoMsgCodec.length_frame pb msg
    exact List.ne_nil_of_length_pos (by omega)
  obtain ⟨w, ran, dispatched⟩ := after_dispatched serves small calm code listening unread stream n
  have least := dispatched.le_arrived
  have here : arrivedWith pb σ w₀ msgs n = arrived pb msgs w := by rw [arrivedWith, ran]
  have input : (after σ w₀ n).world.con.input = w.con.input := by rw [ran]
  rw [← OneAtATime.served_eq_iff none n, input]
  constructor
  · intro incomplete
    by_contra waits
    obtain ⟨msg, member, rest, len, does, consumed, later⟩ :=
      dispatched.decodes serves small (by omega)
    rw [onConnRead, if_neg (by rw [incomplete]; decide)] at does
    cases does
  · intro all
    exact dispatched.incomplete small (by omega)

end Serving

/-- A callback for the messages of type `Q` that adds them up and ends the loop. -/
def sums : ProtoMsgDispatcher UInt8 ℕ :=
  onMsg ⟨fun _ => none⟩ [0x51] fun msg user => ([.exit], user + msg.toNat)

def summingCode : UserCode ℕ := fun _ w => sums.onConnRead ProtoMsgCodec.byteMessages w

/-- A connection to a server with this callback, whose client has sent two messages. -/
def summing (reads : List ReadOutcome) : World ℕ :=
  (execute summingCode (accepted summingCode (.new (some .read) false false none (-1))
    { writes := [], reads := reads, polls := [true], peer := [],
      laterPeers := [[7, 8].flatMap (ProtoMsgCodec.frame ProtoMsgCodec.byteMessages)], nextFd := 7 } 0)
    [.writable]).world

theorem summing_listening {reads : List ReadOutcome}
    (lasting : ∀ outcome ∈ reads, outcome ≠ .eof ∧ outcome ≠ .error) :
    Listening (summing reads) where
  connected := rfl
  isOpen := ⟨⟨1, 7, ⟨true, false⟩⟩, rfl, by decide⟩
  readcb := rfl
  roomy := by
    have exp : (summing reads).con.input.exp = 512 := rfl
    omega
  idle := fun id member => absurd (show id ∈ ([] : List IdleId) from member) List.not_mem_nil
  reads := lasting

theorem sums_calm (msgs : List UInt8) : sums.Calm ProtoMsgCodec.byteMessages msgs := by
  intro msg _ user op member
  exact List.mem_singleton.mp member


/-- Two messages that arrive together take two events. -/
theorem dispatched_one_at_a_time_sums :
    (after summingCode (summing [.data 99]) 2).stopped = none ∧
      (after summingCode (summing [.data 99]) 2).world.user =
        sums.handleAll ProtoMsgCodec.byteMessages 0 ([7, 8].take (OneAtATime.served
          (arrivedWith ProtoMsgCodec.byteMessages summingCode (summing [.data 99]) [7, 8]) 2)) :=
  dispatched_one_at_a_time (fun _ _ => ⟨rfl, fun _ => rfl⟩) (by decide +kernel) (sums_calm _)
    (fun _ => rfl) (summing_listening (by decide)) rfl rfl 2

theorem nothing_waits_iff_sums :
    ProtoMsgCodec.msgComplete (after summingCode (summing [.data 99]) 1).world.con.input = false ↔
      ∀ j ≤ 1, arrivedWith ProtoMsgCodec.byteMessages summingCode (summing [.data 99]) [7, 8] 1 ≤
        arrivedWith ProtoMsgCodec.byteMessages summingCode (summing [.data 99]) [7, 8] j + (1 - j) :=
  nothing_waits_iff (fun _ _ => ⟨rfl, fun _ => rfl⟩) (by decide +kernel) (sums_calm _)
    (fun _ => rfl) (summing_listening (by decide)) rfl rfl 1

end ProtoMsgDispatcher

end Handy

