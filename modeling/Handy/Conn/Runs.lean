import Handy.Conn.Steady
import Handy.Lib.LabelledRun

/-!
# Runs of a connection

A run starts with a new `TcpConn` that is connected or attached, and goes on with events
in any order, until a fault stops it. What every event keeps holds in every state that is
reached (`ConnReachable.invariant`); between events the connection is steady and its
channel is open or gone (`ConnReachable.steady`).

`execute` computes the state at the end of a list of events.
-/

set_option autoImplicit false

namespace Handy

namespace TcpConn

variable {υ : Type}

/-- The constructor of `TcpConn`, with what its owner sets before the first event. -/
def new (readcb : Option ReadCallback) (writablecb statecb : Bool) (codec : Option Codec)
    (reconnectInterval : ℤ) : TcpConn :=
  { channel := none, input := .new, output := .new, state := .invalid, readcb := readcb,
    writablecb := writablecb, statecb := statecb, idleIds := [], timeoutId := ⟨0, 0⟩,
    destPort := -1, connectTimeout := 0, reconnectInterval := reconnectInterval,
    connectedTime := -1, codec := codec }

/-- A new connection, of which the event base does not know yet. -/
structure New (w : World υ) : Prop where
  con : w.con = new w.con.readcb w.con.writablecb w.con.statecb w.con.codec w.con.reconnectInterval
  timers : w.base.timers.timers = .empty
  timerReps : w.base.timers.timerReps = .empty
  tasks : w.base.tasks = []
  idleConns : w.base.idleConns = .empty
  reconnectConns : w.base.reconnectConns = false
  seen : w.seen = ⟨[], false, [], []⟩

/-- A new connection on a new event base, with what the kernel will answer. -/
def newWorld (con : TcpConn) (net : Net) (user : υ) : World υ :=
  ⟨con, .init 0, net, .new, user, ⟨[], false, [], []⟩⟩

theorem newWorld_new (readcb : Option ReadCallback) (writablecb statecb : Bool)
    (codec : Option Codec) (interval : ℤ) (net : Net) (user : υ) :
    New (newWorld (new readcb writablecb statecb codec interval) net user) :=
  ⟨rfl, rfl, rfl, rfl, rfl, rfl, rfl⟩

/-- The states after `connect`, for a client, or after `attach`, for a server. -/
inductive Opened (σ : UserCode υ) : World υ → Prop where
  | connect {w w' : World υ} (port timeout : ℤ) (start : New w)
      (ran : (connect (onClose σ) port timeout).run w = .ok () w') : Opened σ w'
  | attach {w w' : World υ} (fd : ℕ) (start : New w)
      (ran : (attach (onClose σ) fd).run w = .ok () w') : Opened σ w'

end TcpConn

/-- The configurations that a run of a connection reaches. -/
def ConnReachable {υ : Type} (σ : UserCode υ) (c : ConnConfig υ) : Prop :=
  ∃ w events, TcpConn.Opened σ w ∧ LabelledRun (ConnStep σ) ⟨w, none⟩ events c

/-- One property while the connection runs, and another when a fault has stopped it. -/
def ConnConfig.Holds {υ : Type} (c : ConnConfig υ) (running : World υ → Prop)
    (halted : Fault → World υ → Prop) : Prop :=
  match c.stopped with
  | none => running c.world
  | some fault => halted fault c.world

section

variable {υ : Type} {σ : UserCode υ} {c c' : ConnConfig υ} {events : List Event}
  {running : World υ → Prop} {halted : Fault → World υ → Prop}

/-- **What every allowed event keeps is kept by every run of such events.** -/
theorem ConnConfig.Holds.of_run {allowed : Event → Prop} (start : c.Holds running halted)
    (keeps : ∀ event, allowed event →
      Meets running (TcpConn.handleEvent σ event) (fun _ => running) halted)
    (run : LabelledRun (ConnStep σ) c events c') (permitted : ∀ event ∈ events, allowed event) :
    c'.Holds running halted := by
  refine run.invariant_of_allowed (fun c => c.Holds running halted) allowed ?_ permitted start
  rintro before event after allow holds (⟨ran⟩ | ⟨ran⟩)
  · exact (keeps event allow).ok holds ran
  · exact (keeps event allow).fault holds ran

theorem ConnReachable.invariant (opened : ∀ w, TcpConn.Opened σ w → running w)
    (keeps : ∀ event, Meets running (TcpConn.handleEvent σ event) (fun _ => running) halted)
    (reachable : ConnReachable σ c) : c.Holds running halted := by
  obtain ⟨w, events, start, run⟩ := reachable
  have holds : ConnConfig.Holds ⟨w, none⟩ running halted := opened w start
  exact holds.of_run (fun event _ => keeps event) run (fun _ _ => trivial)

end

/-! ## Executing events -/

namespace TcpConn

variable {υ : Type}

/-- The state after a list of events, or at the fault that stops it. -/
def execute (σ : UserCode υ) (w : World υ) : List Event → ConnConfig υ
  | [] => ⟨w, none⟩
  | event :: rest =>
      match (handleEvent σ event).run w with
      | .ok _ w' => execute σ w' rest
      | .error fault w' => ⟨w', some fault⟩

theorem execute_run (σ : UserCode υ) (w : World υ) (events : List Event) :
    ∃ done, done <+: events ∧ LabelledRun (ConnStep σ) ⟨w, none⟩ done (execute σ w events) := by
  induction events generalizing w with
  | nil => exact ⟨[], List.prefix_rfl, .refl _⟩
  | cons event rest ih =>
      unfold execute
      cases ran : (handleEvent σ event).run w with
      | ok _ w' =>
          obtain ⟨done, front, run⟩ := ih w'
          exact ⟨event :: done, List.cons_prefix_cons.mpr ⟨rfl, front⟩, .cons (.done ran) run⟩
      | error fault w' =>
          exact ⟨[event], List.cons_prefix_cons.mpr ⟨rfl, List.nil_prefix⟩, .single (.fault ran)⟩

/-- Events that no fault stops are a run. -/
theorem execute_completes {σ : UserCode υ} {w : World υ} {events : List Event}
    (ended : (execute σ w events).stopped = none) :
    LabelledRun (ConnStep σ) ⟨w, none⟩ events ⟨(execute σ w events).world, none⟩ := by
  induction events generalizing w with
  | nil => exact .refl _
  | cons event rest ih =>
      unfold execute at ended ⊢
      cases ran : (handleEvent σ event).run w with
      | ok _ w' =>
          rw [ran] at ended
          exact .cons (.done ran) (ih ended)
      | error fault w' =>
          rw [ran] at ended
          cases ended

theorem execute_reachable {σ : UserCode υ} {w : World υ} (opened : Opened σ w)
    (events : List Event) : ConnReachable σ (execute σ w events) := by
  obtain ⟨done, -, run⟩ := execute_run σ w events
  exact ⟨w, done, opened, run⟩

/-- A server's connection, just attached to a descriptor. -/
def accepted (σ : UserCode υ) (con : TcpConn) (net : Net) (user : υ) : World υ :=
  match (attach (onClose σ) net.nextFd).run (newWorld con net user) with
  | .ok _ w => w
  | .error _ w => w

theorem accepted_ran (σ : UserCode υ) (readcb : Option ReadCallback)
    (writablecb statecb : Bool) (codec : Option Codec) (interval : ℤ) (net : Net) (user : υ) :
    (attach (onClose σ) net.nextFd).run
        (newWorld (new readcb writablecb statecb codec interval) net user) =
      .ok () (accepted σ (new readcb writablecb statecb codec interval) net user) := by
  have valid : ¬ (net.nextFd : ℤ) < 0 := by omega
  simp [accepted, attach, newWorld, new, modifyCon, record, deleteChannel, Poller.addChannel,
    EventBase.init, Poller.init, valid]

theorem accepted_opened (σ : UserCode υ) (readcb : Option ReadCallback)
    (writablecb statecb : Bool) (codec : Option Codec) (interval : ℤ) (net : Net) (user : υ) :
    Opened σ (accepted σ (new readcb writablecb statecb codec interval) net user) :=
  .attach net.nextFd (newWorld_new readcb writablecb statecb codec interval net user)
    (accepted_ran σ readcb writablecb statecb codec interval net user)

/-- A client's connection, just connecting. -/
def dialled (σ : UserCode υ) (con : TcpConn) (port timeout : ℤ) (net : Net) (user : υ) : World υ :=
  match (connect (onClose σ) port timeout).run (newWorld con net user) with
  | .ok _ w => w
  | .error _ w => w

theorem dialled_ran (σ : UserCode υ) (readcb : Option ReadCallback)
    (writablecb statecb : Bool) (codec : Option Codec) (interval : ℤ) {port : ℤ} (timeout : ℤ)
    (net : Net) (user : υ) (client : 0 < port) :
    (connect (onClose σ) port timeout).run
        (newWorld (new readcb writablecb statecb codec interval) net user) =
      .ok () (dialled σ (new readcb writablecb statecb codec interval) port timeout net user) := by
  have valid : ¬ (net.nextFd : ℤ) < 0 := by omega
  have positive : ¬ port ≤ 0 := by omega
  by_cases untimed : timeout = 0
  · simp [dialled, connect, attach, newWorld, new, modifyCon, record, deleteChannel,
      Poller.addChannel, EventBase.init, Poller.init, valid, positive, untimed]
  · simp [dialled, connect, attach, newWorld, new, modifyCon, record, deleteChannel,
      Poller.addChannel, EventBase.init, Poller.init, valid, positive, untimed]

theorem dialled_opened (σ : UserCode υ) (readcb : Option ReadCallback)
    (writablecb statecb : Bool) (codec : Option Codec) (interval : ℤ) {port : ℤ} (timeout : ℤ)
    (net : Net) (user : υ) (client : 0 < port) : Opened σ
      (dialled σ (new readcb writablecb statecb codec interval) port timeout net user) :=
  .connect port timeout (newWorld_new readcb writablecb statecb codec interval net user)
    (dialled_ran σ readcb writablecb statecb codec interval timeout net user client)

/-! ## Reachable connections are steady -/

theorem New.steady {w : World υ} (start : New w) : Steady (maxNesting + 1) w := by
  have absent : w.con.channel = none := by rw [start.con]; rfl
  refine ⟨?_, ⟨by decide, ?_⟩, ?_, ?_, ?_⟩
  · simp [Known, absent]
  · simp [absent]
  · simp [start.seen]
  · simp [absent]
  · simp [Interested, absent]

theorem New.gone {w : World υ} (start : New w) : Gone w := by
  rw [Gone, Final, start.con]
  exact ⟨rfl, State.noConfusion, State.noConfusion⟩

theorem Opened.steady {σ : UserCode υ} {w : World υ} (opened : Opened σ w) :
    Steady (maxNesting + 1) w ∧ Settled w := by
  have nested : Keeps maxNesting (onClose σ) := handleRead_keeps σ maxNesting
  cases opened with
  | connect port timeout start ran =>
      exact ⟨(connect_keeps nested (by decide) port timeout).ok start.steady ran,
        (connect_settled _ port timeout).ok (Gone.settled start.gone) ran⟩
  | attach fd start ran =>
      exact ⟨(attach_keeps nested (by decide) fd).ok start.steady ran,
        (attach_settled _ (Int.natCast_nonneg fd)).ok start.gone.1 ran⟩

end TcpConn

/-- **In every run the connection is steady.** -/
theorem ConnReachable.steady {υ : Type} {σ : UserCode υ} {c : ConnConfig υ}
    (reachable : ConnReachable σ c) :
    c.Holds (fun w => TcpConn.Steady (TcpConn.maxNesting + 1) w ∧ TcpConn.Settled w)
      (TcpConn.Halted (TcpConn.maxNesting + 1)) := by
  refine reachable.invariant (fun w opened => opened.steady) fun event => ?_
  have both := (TcpConn.handleEvent_keeps σ event).and (TcpConn.handleEvent_settled σ event)
  exact both.imp (fun w start => ⟨start, start.2⟩) (fun _ _ done => done) fun _ _ stop => stop.1

end Handy
