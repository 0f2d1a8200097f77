import Handy.Codec
import Handy.EventBase

/-!
# `TcpConn`

The connection as `conn.cc` and `event_base.cc` write it: a program over the
state of the connection, of its event base and of the kernel. A program may stop
with a fault, such as the dereference of a null pointer or a fatal check, and
keeps the state in which it stopped.

Handlers call back into user code and user code calls back into handlers:
`Channel::close` calls the channel's read handler, `handleRead` calls `cleanup`,
`cleanup` calls the read callback, and that may close the channel. The functions
below take the handler that `Channel::close` calls as the argument `self`, and
`TcpConn.handleRead` ties the knot for a given depth of nesting.

User code is a parameter. When a callback runs, it chooses its operations as a
function of the whole state, and it may keep a state of its own. What the kernel
answers to `read`, `write` and `poll` is part of the state too, as the list of the
answers still to come.
-/

set_option autoImplicit false

namespace Handy

/-! ## The kernel -/

/-- The answers of `write`; a positive count is `n + 1` or what there is to write,
whichever is less. -/
inductive WriteOutcome where
  | accept (n : ℕ)
  | eintr
  | eagain
  | error
  deriving DecidableEq, Repr

/-- The answers of `read`; a positive count is `n + 1`, or the room in the buffer or
the bytes that have arrived, whichever is less. -/
inductive ReadOutcome where
  | data (n : ℕ)
  | eintr
  | eagain
  | eof
  | error
  deriving DecidableEq, Repr

/-- The kernel's side of the connection's sockets: the answers to come, the bytes
the peer of the current socket has yet to deliver, and those of later sockets. When
answers run out, reads and writes find nothing to do and connects fail. -/
structure Net where
  writes : List WriteOutcome
  reads : List ReadOutcome
  polls : List Bool
  peer : Bytes
  laterPeers : List Bytes
  nextFd : ℕ

/-! ## The connection -/

/-- `TcpConn::State`. -/
inductive State where
  | invalid
  | handshaking
  | connected
  | closed
  | failed
  deriving DecidableEq, Repr

/-- What `readcb_` holds: a callback given to `onRead`, or the one `onMsg` makes. -/
inductive ReadCallback where
  | read
  | msg
  deriving DecidableEq, Repr

/-- `TcpConn`. -/
structure TcpConn where
  channel : Option Channel
  input : Buffer
  output : Buffer
  state : State
  readcb : Option ReadCallback
  writablecb : Bool
  statecb : Bool
  idleIds : List IdleId
  timeoutId : TimerId
  destPort : ℤ
  connectTimeout : ℤ
  reconnectInterval : ℤ
  connectedTime : ℤ
  codec : Option Codec

/-- What is recorded of a run, besides the states. -/
inductive ConnEvent where
  /-- `attach` has made a new channel. -/
  | attached
  /-- The handshake completed with so many bytes in `output_`. -/
  | handshaken (pending : ℕ)
  /-- `statecb_` is called in a state. -/
  | stateCalled (state : State)
  /-- The callback of `onMsg` is called on a message. -/
  | msgCalled (msg : Bytes)
  /-- `unregisterIdle` is called on an id. -/
  | unregistered (id : IdleId)
  /-- `reconnect` has made its timer. -/
  | reconnectScheduled
  /-- `updateChannel` is called on a channel with a descriptor, and it is live or not. -/
  | updated (fd : ℤ) (live : Bool)
  /-- `write` failed on an open descriptor. -/
  | writeFailed
  /-- `send(Buffer &)` is called on a channel, with so many bytes. -/
  | bufferSent (fd : ℤ) (writeEnabled : Bool) (size : ℕ)
  /-- `Channel::close` closes a descriptor, within the read callback of `cleanup`
  or not. -/
  | channelClosed (draining : Bool)
  /-- The event loop exits and the connection is waiting for its reconnect. -/
  | exitedWaiting
  deriving DecidableEq, Repr

/-- Observations of a run: the events, newest first, whether `cleanup` is in the
middle of its call of the read callback, and for the current socket the bytes that
were accepted by it and the bytes that were handed to the connection for it. -/
structure Record where
  events : List ConnEvent
  draining : Bool
  wire : Bytes
  handed : Bytes

/-- The state of a connection with its surroundings; `arg` is the caller's buffer in
a call of `send(Buffer &)`, and `user` the state of user code. -/
structure World (υ : Type) where
  con : TcpConn
  base : EventBase
  net : Net
  arg : Buffer
  user : υ
  seen : Record

/-- What stops a program. -/
inductive Fault where
  | nullChannel
  | nullCodec
  | epollCtlAdd
  | epollCtlMod
  | badState
  | danglingIdle
  | timer (fault : TimerFault)
  | consumeUnderflow
  /-- User code threw an exception. -/
  | raised
  /-- The model's bound on nested calls of a handler was reached. -/
  | nesting
  /-- The model's bound on the iterations of the decode loop was reached. -/
  | outOfFuel
  deriving DecidableEq, Repr

/-- A program over the state. -/
abbrev Act (υ : Type) := EStateM Fault (World υ)

/-! ## User code -/

/-- A call of user code. -/
inductive Callback where
  | read
  | msg (msg : Bytes)
  | writable
  | state

/-- An operation of user code on the connection. -/
inductive Op where
  /-- `send(const char *, size_t)`. -/
  | send (bytes : Bytes)
  /-- `send(Buffer &)` of a buffer of the caller. -/
  | sendBuffer (buffer : Buffer)
  /-- `send(getInput())`. -/
  | sendInput
  /-- Bytes appended to `getOutput()`, then `sendOutput()`. -/
  | sendOutput (bytes : Bytes)
  /-- `sendMsg`. -/
  | sendMsg (msg : Bytes)
  /-- `getInput().consume(len)`. -/
  | consumeInput (len : ℕ)
  | close
  | closeNow
  | addIdleCB (idle : ℤ)
  | setReconnectInterval (milli : ℤ)
  /-- `getBase()->exit()`. -/
  | exit
  /-- An exception that leaves the callback. -/
  | raise

/-- User code: what a callback does, and its own state after the call. -/
abbrev UserCode (υ : Type) := Callback → World υ → List Op × υ

namespace TcpConn

variable {υ : Type}

/-! ## Reading and writing the state -/

def modifyCon (f : TcpConn → TcpConn) : Act υ Unit := modify fun w => { w with con := f w.con }

def modifyBase (f : EventBase → EventBase) : Act υ Unit :=
  modify fun w => { w with base := f w.base }

def record (event : ConnEvent) : Act υ Unit :=
  modify fun w => { w with seen := { w.seen with events := event :: w.seen.events } }

/-- `channel_`, dereferenced. -/
def getChannel : Act υ Channel := do
  match (← get).con.channel with
  | some ch => return ch
  | none => throw .nullChannel

/-! ## `Channel` -/

/-- `PollerBase::updateChannel` on the connection's channel. -/
def updateChannel (ch : Channel) : Act υ Unit := do
  let w ← get
  record (.updated ch.fd (decide (ch.id ∈ w.base.poller.liveChannels)))
  match w.base.poller.updateChannel ch with
  | some poller => modifyBase fun base => { base with poller := poller }
  | none => throw .epollCtlMod

/-- `Channel::enableReadWrite`. -/
def enableReadWrite (readable writable : Bool) : Act υ Unit := do
  let ch ← getChannel
  let ch := { ch with events := ⟨readable, writable⟩ }
  modifyCon fun con => { con with channel := some ch }
  updateChannel ch

/-- `Channel::enableWrite`. -/
def enableWrite (enable : Bool) : Act υ Unit := do
  let ch ← getChannel
  let ch := { ch with events := { ch.events with write := enable } }
  modifyCon fun con => { con with channel := some ch }
  updateChannel ch

/-- The part of `Channel::close` before the descriptor is set to `-1`. -/
def closeFd (ch : Channel) : Act υ Unit := do
  record (.channelClosed (← get).seen.draining)
  modifyBase fun base => { base with poller := (base.poller.removeChannel ch).closeFd ch.fd }

/-- `Channel::close` on `channel_`; `self` is the channel's read handler. -/
def closeChannel (self : Act υ Unit) : Act υ Unit := do
  let ch ← getChannel
  if 0 ≤ ch.fd then
    closeFd ch
    modifyCon fun con => { con with channel := some { ch with fd := -1 } }
    self

/-- `delete channel_; channel_ = NULL`. -/
def deleteChannel (self : Act υ Unit) : Act υ Unit := do
  if (← get).con.channel.isSome then
    closeChannel self
    modifyCon fun con => { con with channel := none }

/-- `Channel *ch = channel_; channel_ = NULL; delete ch`. -/
def detachChannel (self : Act υ Unit) : Act υ Unit := do
  let channel := (← get).con.channel
  modifyCon fun con => { con with channel := none }
  match channel with
  | none => return ()
  | some ch =>
      if 0 ≤ ch.fd then
        closeFd ch
        self

/-! ## Sending -/

/-- Why the loop of `isend` ends. -/
inductive WriteStop where
  | done
  | again
  | failed
  deriving DecidableEq, Repr

/-- The loop of `TcpConn::isend` on an open descriptor: how many of `len` bytes are
accepted, why it ends, and the answers that are left. -/
def writeLoop : List WriteOutcome → ℕ → ℕ × WriteStop × List WriteOutcome
  | writes, 0 => (0, .done, writes)
  | [], _ + 1 => (0, .again, [])
  | .accept n :: writes, len + 1 =>
      let wd := min (n + 1) (len + 1)
      let (sended, stop, left) := writeLoop writes (len + 1 - wd)
      (wd + sended, stop, left)
  | .eintr :: writes, len + 1 => writeLoop writes (len + 1)
  | .eagain :: writes, _ + 1 => (0, .again, writes)
  | .error :: writes, _ + 1 => (0, .failed, writes)

/-- How `isend` leaves its loop. -/
def endWrite (ch : Channel) : WriteStop → Act υ Unit
  | .done => return ()
  | .again => do
      if ch.writeEnabled = false then
        enableWrite true
  | .failed => record .writeFailed

/-- `TcpConn::isend`. A `write` on a closed descriptor fails. -/
def isend (buf : Bytes) : Act υ ℕ := do
  if buf.length = 0 then
    return 0
  let ch ← getChannel
  if ch.fd < 0 then
    return 0
  let (sended, stop, writes) := writeLoop (← get).net.writes buf.length
  modify fun w => { w with
    net := { w.net with writes := writes }
    seen := { w.seen with wire := w.seen.wire ++ buf.take sended } }
  endWrite ch stop
  return sended

/-- The buffers that `send(Buffer &)` is called on. -/
inductive BufferRef where
  | arg
  | input
  | output
  deriving DecidableEq, Repr

def readBuffer (ref : BufferRef) (w : World υ) : Buffer :=
  match ref with
  | .arg => w.arg
  | .input => w.con.input
  | .output => w.con.output

def writeBuffer (ref : BufferRef) (buffer : Buffer) (w : World υ) : World υ :=
  match ref with
  | .arg => { w with arg := buffer }
  | .input => { w with con := { w.con with input := buffer } }
  | .output => { w with con := { w.con with output := buffer } }

/-- `output_.absorb(buf)`, which does nothing when `buf` is `output_`. -/
def absorb (ref : BufferRef) (w : World υ) : World υ :=
  if ref = .output then w
  else
    let (output, rest) := w.con.output.absorb (readBuffer ref w)
    writeBuffer ref rest { w with con := { w.con with output := output } }

/-- `buf.consume(len)`. -/
def consume (ref : BufferRef) (len : ℕ) : Act υ Unit := do
  match (readBuffer ref (← get)).consume len with
  | some rest => modify (writeBuffer ref rest)
  | none => throw .consumeUnderflow

/-- The first test of `send(Buffer &)`: the bytes join a queue that is being written. -/
def sendQueued (ref : BufferRef) : Act υ Unit := do
  if (← getChannel).writeEnabled then
    modify (absorb ref)

/-- The second test of `send(Buffer &)`: the bytes are written directly. -/
def sendDirect (ref : BufferRef) : Act υ Unit := do
  let buf := readBuffer ref (← get)
  if buf.size ≠ 0 then
    let sended ← isend buf.contents
    consume ref sended

/-- The third test of `send(Buffer &)`: the bytes that are left are queued. -/
def sendRest (ref : BufferRef) : Act υ Unit := do
  if (readBuffer ref (← get)).size ≠ 0 then
    modify (absorb ref)
    if (← getChannel).writeEnabled = false then
      enableWrite true

/-- `TcpConn::send(Buffer &)`. -/
def send (ref : BufferRef) : Act υ Unit := do
  let w ← get
  match w.con.channel with
  | none => return ()
  | some ch =>
      record (.bufferSent ch.fd ch.writeEnabled (readBuffer ref w).size)
      sendQueued ref
      sendDirect ref
      sendRest ref

/-- The first test of `send(const char *, size_t)`. -/
def sendUnqueued (buf : Bytes) : Act υ ℕ := do
  if (← get).con.output.empty then
    isend buf
  else
    return 0

/-- `TcpConn::send(const char *, size_t)`. -/
def sendBytes (buf : Bytes) : Act υ Unit := do
  if (← get).con.channel.isSome then
    let sended ← sendUnqueued buf
    if (buf.drop sended).length ≠ 0 then
      modifyCon fun con => { con with output := con.output.append (buf.drop sended) }

/-- Bytes are handed to the connection to be sent on the current socket. -/
def handOver (bytes : Bytes) (w : World υ) : World υ :=
  if w.con.channel.isSome then { w with seen := { w.seen with handed := w.seen.handed ++ bytes } }
  else w

/-- Bytes appended to `getOutput()`, then `sendOutput()`. -/
def sendOutput (bytes : Bytes) : Act υ Unit := do
  modifyCon fun con => { con with output := con.output.append bytes }
  send .output

/-- `TcpConn::sendMsg`. -/
def sendMsg (msg : Bytes) : Act υ Unit := do
  match (← get).con.codec with
  | some codec => sendOutput (codec.encode msg)
  | none => throw .nullCodec

/-- What the codec makes of a message, if there is one. -/
def encoded (msg : Bytes) (w : World υ) : Bytes :=
  match w.con.codec with
  | some codec => codec.encode msg
  | none => []

/-! ## User code -/

/-- One operation of user code. -/
def runOp (self : Act υ Unit) : Op → Act υ Unit
  | .send bytes => do
      modify (handOver bytes)
      sendBytes bytes
  | .sendBuffer buffer => do
      modify (handOver buffer.contents)
      modify fun w => { w with arg := buffer }
      send .arg
  | .sendInput => do
      modify (handOver (← get).con.input.contents)
      send .input
  | .sendOutput bytes => do
      modify (handOver bytes)
      sendOutput bytes
  | .sendMsg msg => do
      modify (handOver (encoded msg (← get)))
      sendMsg msg
  | .consumeInput len => consume .input len
  | .close => do
      if (← get).con.channel.isSome then
        modifyBase fun base => base.safeCall .closeChannel
  | .closeNow => do
      if (← get).con.channel.isSome then
        closeChannel self
  | .addIdleCB idle => do
      if (← get).con.channel.isSome then
        let (id, base) := (← get).base.registerIdle idle
        modify fun w => { w with base := base }
        modifyCon fun con => { con with idleIds := con.idleIds ++ [id] }
  | .setReconnectInterval milli => modifyCon fun con => { con with reconnectInterval := milli }
  | .exit => modifyBase EventBase.exit
  | .raise => throw .raised

def runOps (self : Act υ Unit) : List Op → Act υ Unit
  | [] => return ()
  | op :: rest => do
      runOp self op
      runOps self rest

/-- User code is called. -/
def callUser (σ : UserCode υ) (self : Act υ Unit) (callback : Callback) : Act υ Unit := do
  let (ops, user) := σ callback (← get)
  modify fun w => { w with user := user }
  runOps self ops

/-- The callback that `TcpConn::onMsg` installs, for at most `fuel` iterations. -/
def decodeLoop (σ : UserCode υ) (self : Act υ Unit) : ℕ → Act υ Unit
  | 0 => throw .outOfFuel
  | fuel + 1 => do
      match (← get).con.codec with
      | none => throw .nullCodec
      | some codec =>
          let data := (← get).con.input.contents
          let (r, view) := codec.tryDecode data
          if r < 0 then
            closeChannel self
          else if 0 < r then
            record (.msgCalled (view.of data))
            callUser σ self (.msg (view.of data))
            consume .input r.toNat
            decodeLoop σ self fuel

/-- A call of `readcb_`, which is set. Every iteration of the decode loop consumes
input. -/
def callRead (σ : UserCode υ) (self : Act υ Unit) : Act υ Unit := do
  match (← get).con.readcb with
  | none => return ()
  | some .read => callUser σ self .read
  | some .msg => decodeLoop σ self ((← get).con.input.size + 1)

/-- `if (statecb_) statecb_(con)`. -/
def callState (σ : UserCode υ) (self : Act υ Unit) : Act υ Unit := do
  if (← get).con.statecb then
    record (.stateCalled (← get).con.state)
    callUser σ self .state

/-! ## Connecting and closing -/

/-- `TcpConn::attach`. -/
def attach (self : Act υ Unit) (fd : ℤ) : Act υ Unit := do
  let con := (← get).con
  if (con.destPort ≤ 0 ∧ con.state ≠ .invalid) ∨ (0 ≤ con.destPort ∧ con.state ≠ .handshaking) then
    throw .badState
  modifyCon fun con => { con with state := .handshaking }
  deleteChannel self
  let ch : Channel := ⟨(← get).base.channelSeq + 1, fd, ⟨true, true⟩⟩
  match (← get).base.poller.addChannel ch with
  | none => throw .epollCtlAdd
  | some poller =>
      modify fun w => { w with
        con := { w.con with channel := some ch }
        base := { w.base with poller := poller, channelSeq := w.base.channelSeq + 1 }
        net := { w.net with
          peer := w.net.laterPeers.headD []
          laterPeers := w.net.laterPeers.tail }
        seen := { w.seen with wire := [], handed := w.con.output.contents } }
      record .attached

/-- `TcpConn::connect`. What `::connect` answers shows only in the handshake. -/
def connect (self : Act υ Unit) (port timeout : ℤ) : Act υ Unit := do
  let state := (← get).con.state
  if state ≠ .invalid ∧ state ≠ .closed ∧ state ≠ .failed then
    throw .badState
  let fd := (← get).net.nextFd
  modify fun w => { w with
    con := { w.con with
      destPort := port
      connectTimeout := timeout
      connectedTime := w.base.timers.clock
      state := .handshaking }
    net := { w.net with nextFd := fd + 1 } }
  attach self fd
  if timeout ≠ 0 then
    let (timerid, base) := (← get).base.runAfter timeout .connectTimeout 0
    modify fun w => { w with base := base, con := { w.con with timeoutId := timerid } }

/-- `TcpConn::reconnect`. -/
def reconnect (self : Act υ Unit) : Act υ Unit := do
  let w ← get
  let interval := w.con.reconnectInterval - (w.base.timers.clock - w.con.connectedTime)
  let (_, base) := { w.base with reconnectConns := true }.runAfter (max interval 0) .reconnect 0
  modify fun w => { w with base := base }
  record .reconnectScheduled
  deleteChannel self

/-- `handyUnregisterIdle`. -/
def handyUnregisterIdle (id : IdleId) : Act υ Unit := do
  record (.unregistered id)
  match (← get).base.unregisterIdle id with
  | some base => modify fun w => { w with base := base }
  | none => throw .danglingIdle

/-- The loop of `cleanup` over `idleIds_`. -/
def unregisterIdles : List IdleId → Act υ Unit
  | [] => return ()
  | id :: rest => do
      handyUnregisterIdle id
      unregisterIdles rest

/-- `EventBase::cancel` of `timeoutId_`. -/
def cancelTimeout : Act υ Unit := do
  let w ← get
  match w.base.timers.cancel w.con.timeoutId with
  | .ok (_, timers) => modifyBase fun base => { base with timers := timers }
  | .error fault => throw (.timer fault)

def setDraining (draining : Bool) : Act υ Unit :=
  modify fun w => { w with seen := { w.seen with draining := draining } }

/-- The first statement of `cleanup`: the read callback sees the bytes left. -/
def drainInput (σ : UserCode υ) (self : Act υ Unit) : Act υ Unit := do
  let w ← get
  if w.con.readcb.isSome ∧ w.con.input.size ≠ 0 then
    setDraining true
    callRead σ self
    setDraining w.seen.draining

/-- `TcpConn::cleanup`. -/
def cleanup (σ : UserCode υ) (self : Act υ Unit) : Act υ Unit := do
  drainInput σ self
  modifyCon fun con =>
    { con with state := if con.state = .handshaking then .failed else .closed }
  cancelTimeout
  callState σ self
  let w ← get
  if 0 ≤ w.con.reconnectInterval ∧ w.base.exited = false then
    reconnect self
  else
    unregisterIdles w.con.idleIds
    modifyCon fun con => { con with readcb := none, writablecb := false, statecb := false }
    detachChannel self

/-- What `poll` answers for a descriptor: that it is writable and nothing else. A
negative descriptor is ignored. -/
def poll (fd : ℤ) : Act υ Bool := do
  if fd < 0 then
    return false
  match (← get).net.polls with
  | [] => return false
  | answer :: polls =>
      modify fun w => { w with net := { w.net with polls := polls } }
      return answer

/-- The handshake has completed: the interest mask is reset. -/
def completeHandshake : Act υ Unit := do
  record (.handshaken (← get).con.output.size)
  enableReadWrite true false
  modify fun w => { w with
    con := { w.con with state := .connected, connectedTime := w.base.timers.clock } }

/-- `TcpConn::handleHandshake`, with the answer whether it returned zero. -/
def handleHandshake (σ : UserCode υ) (self : Act υ Unit) : Act υ Bool := do
  if (← get).con.state ≠ .handshaking then
    throw .badState
  let ch ← getChannel
  if ← poll ch.fd then
    completeHandshake
    callState σ self
    return true
  else
    cleanup σ self
    return false

/-! ## Reading -/

/-- Why the loop of `handleRead` ends. -/
inductive ReadStop where
  | again
  | closed
  deriving DecidableEq, Repr

/-- The loop of `TcpConn::handleRead` on an open descriptor, up to the answer that
ends it: why it ends, and the answers, the peer's bytes and the input buffer that are
left. A `read` of length zero returns zero, which stands for the end of the stream. -/
def readLoop : List ReadOutcome → Bytes → Buffer → ReadStop × List ReadOutcome × Bytes × Buffer
  | [], peer, input => (.again, [], peer, input.makeRoom)
  | outcome :: reads, peer, input =>
      let input := input.makeRoom
      match outcome with
      | .eintr => readLoop reads peer input
      | .eagain => (.again, reads, peer, input)
      | .eof => (.closed, reads, peer, input)
      | .error => (.closed, reads, peer, input)
      | .data n =>
          if input.space = 0 then (.closed, reads, peer, input)
          else if peer = [] then (.again, reads, peer, input)
          else
            let rd := min (n + 1) input.space
            readLoop reads (peer.drop rd) (input.fill (peer.take rd) (by
              rw [List.length_take]
              omega))

/-- `handyUpdateIdle`. -/
def handyUpdateIdle (id : IdleId) : Act υ Unit := do
  match (← get).base.updateIdle id with
  | some base => modify fun w => { w with base := base }
  | none => throw .danglingIdle

/-- The loop of `handleRead` over `idleIds_`. -/
def updateIdles : List IdleId → Act υ Unit
  | [] => return ()
  | id :: rest => do
      handyUpdateIdle id
      updateIdles rest

/-- The loop of `TcpConn::handleRead` in state `Connected`. -/
def readConnected (σ : UserCode υ) (self : Act υ Unit) : Act υ Unit := do
  let ch ← getChannel
  if ch.fd < 0 then
    modifyCon fun con => { con with input := con.input.makeRoom }
    cleanup σ self
  else
    let w ← get
    let (stop, reads, peer, input) := readLoop w.net.reads w.net.peer w.con.input
    modify fun w => { w with
      net := { w.net with reads := reads, peer := peer }
      con := { w.con with input := input } }
    match stop with
    | .closed => cleanup σ self
    | .again =>
        updateIdles (← get).con.idleIds
        if (← get).con.input.size ≠ 0 then
          callRead σ self

/-- `TcpConn::handleRead`, with the handler that nested calls of `Channel::close`
call. -/
def handleReadOnce (σ : UserCode υ) (self : Act υ Unit) : Act υ Unit := do
  if (← get).con.state = .handshaking then
    unless ← handleHandshake σ self do
      return ()
  if (← get).con.state = .connected then
    readConnected σ self

/-- `TcpConn::handleRead`, nested at most `depth` times. -/
def handleRead (σ : UserCode υ) : ℕ → Act υ Unit
  | 0 => throw .nesting
  | depth + 1 => handleReadOnce σ (handleRead σ depth)

/-- The first two statements of `handleWrite` in state `Connected`. -/
def flushOutput : Act υ Unit := do
  let sended ← isend (← get).con.output.contents
  consume .output sended

/-- The last test of `handleWrite`. -/
def stopWriting : Act υ Unit := do
  if (← get).con.output.empty then
    if (← getChannel).writeEnabled then
      enableWrite false

/-- `TcpConn::handleWrite`. -/
def handleWrite (σ : UserCode υ) (self : Act υ Unit) : Act υ Unit := do
  match (← get).con.state with
  | .handshaking =>
      let _ ← handleHandshake σ self
  | .connected =>
      flushOutput
      let con := (← get).con
      if con.output.empty ∧ con.writablecb then
        callUser σ self .writable
      stopWriting
  | _ => return ()

end TcpConn

/-! ## The event loop -/

/-- What may happen to a connection between two looks at the poller. -/
inductive Event where
  /-- The poller reports the channel readable. -/
  | readable
  /-- The poller reports the channel writable. -/
  | writable
  /-- The first timer that is due runs. -/
  | timer
  /-- The wakeup handler runs the first task of the queue. -/
  | task
  /-- User code runs from elsewhere: a task, a timer or another connection. -/
  | call (op : Op)
  /-- Time passes. -/
  | elapse (milli : ℕ)
  /-- `EventsImp::loop` after its while loop. -/
  | loopExit
  /-- The destructor of the poller closes the live channels. -/
  | destroyPoller

namespace TcpConn

variable {υ : Type}

/-- The calls of a handler that can be nested in an event: a handler closes the
channel, and the handler of the closed channel cannot close it again. -/
def maxNesting : ℕ := 2

/-- The read handler of the channel, called by `Channel::close`. -/
def onClose (σ : UserCode υ) : Act υ Unit := handleRead σ maxNesting

/-- A closure of the event base is called. The callbacks that `callIdles` runs are user
code and have events of their own. -/
def runTask (σ : UserCode υ) : BaseTask → Act υ Unit
  | .closeChannel => do
      if (← get).con.channel.isSome then
        closeChannel (onClose σ)
  | .connectTimeout => do
      if (← get).con.state = .handshaking then
        closeChannel (onClose σ)
  | .reconnect => do
      modifyBase fun base => { base with reconnectConns := false }
      let con := (← get).con
      connect (onClose σ) con.destPort con.connectTimeout
  | .callIdles => return ()

/-- One event. The poller reports open channels only. -/
def handleEvent (σ : UserCode υ) : Event → Act υ Unit
  | .readable => do
      if (← get).con.channel.any fun ch => 0 ≤ ch.fd then
        handleRead σ (maxNesting + 1)
  | .writable => do
      if (← get).con.channel.any fun ch => 0 ≤ ch.fd then
        handleWrite σ (onClose σ)
  | .timer => do
      let timers := (← get).base.timers
      match timers.due timers.clock with
      | none => return ()
      | some (key, action) =>
          match timers.fire key action with
          | .error fault => throw (.timer fault)
          | .ok (fired, timers) =>
              modifyBase fun base => { base with timers := timers }
              runTask σ fired.task
  | .task => do
      match (← get).base.tasks with
      | [] => return ()
      | task :: tasks =>
          modifyBase fun base => { base with tasks := tasks }
          runTask σ task
  | .call op => runOp (onClose σ) op
  | .elapse milli =>
      modifyBase fun base =>
        { base with timers := { base.timers with clock := base.timers.clock + milli } }
  | .loopExit => do
      if (← get).base.exited then
        modifyBase fun base => { base with timers := base.timers.clear, idleConns := .empty }
        if (← get).base.reconnectConns then
          record .exitedWaiting
          cleanup σ (onClose σ)
  | .destroyPoller => do
      if (← get).con.channel.any fun ch => 0 ≤ ch.fd then
        closeChannel (onClose σ)

end TcpConn

/-- A connection in a run: its state, and the fault that stopped it, if any. -/
structure ConnConfig (υ : Type) where
  world : World υ
  stopped : Option Fault

/-- The steps of a connection, until a fault stops it. -/
inductive ConnStep {υ : Type} (σ : UserCode υ) :
    ConnConfig υ → Event → ConnConfig υ → Prop where
  | done {w w' : World υ} {event : Event}
      (ran : (TcpConn.handleEvent σ event).run w = .ok () w') :
      ConnStep σ ⟨w, none⟩ event ⟨w', none⟩
  | fault {w w' : World υ} {event : Event} {fault : Fault}
      (ran : (TcpConn.handleEvent σ event).run w = .error fault w') :
      ConnStep σ ⟨w, none⟩ event ⟨w', some fault⟩

end Handy
