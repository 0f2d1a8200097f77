import Handy.Conn.Runs

/-!
# The output queue

The bytes that the socket has accepted, followed by `output_`, are the bytes handed to
the send operations, in order, and while there are bytes in `output_` the channel waits to
write them. This holds of a connected `TcpConn` for every interleaving of sends and
`handleWrite` (`sends_reach_socket_in_order`).

It does not hold from the start of a connection. Bytes that were queued during the
handshake are stranded when it completes, since `handleHandshake` resets the interest mask
without a look at `output_` (`early_send_is_stranded`). If `output_` is empty whenever a
handshake completes, all is well in every run (`connected_output_is_waited_for`).
-/

set_option autoImplicit false
set_option mvcgen.warning false

namespace Handy

namespace TcpConn

variable {υ : Type} {w : World υ}

theorem undisturbed_iff :
    Undisturbed w ↔ .writeFailed ∉ w.seen.events ∧
      ∀ pending, .handshaken pending ∈ w.seen.events → pending = 0 := by
  rw [Undisturbed, List.any_eq_false]
  refine ⟨fun none_disturbs => ⟨fun failed => ?_, fun pending shaken => ?_⟩, fun calm event member => ?_⟩
  · exact absurd rfl (none_disturbs _ failed)
  · simpa [ConnEvent.disturbs] using none_disturbs _ shaken
  · cases event with
    | writeFailed => exact absurd member calm.1
    | handshaken pending => simp [ConnEvent.disturbs, calm.2 pending member]
    | _ => simp [ConnEvent.disturbs]

/-- **Output is waited for in state `Connected`**: in every run in which no `write` fails
and `output_` is empty whenever a handshake completes, the socket has accepted what was
handed over except for `output_`, and if that is not empty then the channel is open and
waits to write. -/
theorem connected_output_is_waited_for {σ : UserCode υ} (reachable : ConnReachable σ ⟨w, none⟩)
    (no_failure : .writeFailed ∉ w.seen.events)
    (no_early_output : ∀ pending, .handshaken pending ∈ w.seen.events → pending = 0)
    (connected : w.con.state = .connected) :
    w.seen.wire ++ w.con.output.contents = w.seen.handed ∧
      (w.con.output.contents ≠ [] →
        ∃ ch, w.con.channel = some ch ∧ 0 ≤ ch.fd ∧ ch.writeEnabled = true) := by
  obtain ⟨steady, settled⟩ : Steady (maxNesting + 1) w ∧ Settled w := reachable.steady
  have undisturbed := undisturbed_iff.mpr ⟨no_failure, no_early_output⟩
  obtain ⟨⟨ch, channel, opened⟩, -⟩ := settled.live fun final => final.2 connected
  refine ⟨steady.flow undisturbed (by simp [channel]), fun waiting => ?_⟩
  exact ⟨ch, channel, opened, steady.interested undisturbed ch channel opened waiting⟩

end TcpConn

/-- User code that leaves everything to the caller. -/
def noCallbacks : UserCode Unit := fun _ _ => ([], ())

/-- A connection whose first write finds the socket full. -/
def congested : World Unit :=
  TcpConn.accepted noCallbacks (.new none false false none (-1))
    { writes := [.eagain], reads := [], polls := [true], peer := [], laterPeers := [], nextFd := 7 } ()

theorem congested_opened : TcpConn.Opened noCallbacks congested :=
  TcpConn.accepted_opened noCallbacks none false false none (-1) _ ()

theorem connected_output_is_waited_for_congested :
    let w := (TcpConn.execute noCallbacks congested [.writable, .call (.send [1, 2])]).world
    w.con.output.contents = [1, 2] ∧
      ∃ ch, w.con.channel = some ch ∧ 0 ≤ ch.fd ∧ ch.writeEnabled = true := by
  have calm := TcpConn.undisturbed_iff.mp (show TcpConn.Undisturbed
    (TcpConn.execute noCallbacks congested [.writable, .call (.send [1, 2])]).world from rfl)
  exact ⟨by decide, (TcpConn.connected_output_is_waited_for
    (TcpConn.execute_reachable congested_opened _) calm.1 calm.2 (by decide)).2 (by decide)⟩

/-- **A send during the handshake is stranded**: the handshake completes, nothing failed,
and `output_` is not waited for. -/
theorem early_send_is_stranded : ∃ w : World Unit, ConnReachable noCallbacks ⟨w, none⟩ ∧
    .writeFailed ∉ w.seen.events ∧ w.con.state = .connected ∧ w.con.output.contents = [1, 2] ∧
      ∀ ch, w.con.channel = some ch → ch.writeEnabled = false := by
  refine ⟨(TcpConn.execute noCallbacks congested [.call (.send [1, 2]), .writable]).world,
    TcpConn.execute_reachable congested_opened _, by decide, by decide, by decide, ?_⟩
  rintro ch ⟨⟩
  rfl

/-! ## A connected connection -/

/-- The events that send, or write what was queued. -/
def Event.sends : Event → Bool
  | .writable => true
  | .call op => op.sends
  | _ => false

namespace TcpConn

variable {υ : Type} {w w₀ : World υ} {σ : UserCode υ}

/-- A connected connection with nothing to write, of which nothing has been recorded. -/
structure Quiet (w : World υ) : Prop where
  connected : w.con.state = .connected
  channel : ∃ ch, w.con.channel = some ch ∧ 0 ≤ ch.fd ∧ ch.writeEnabled = false ∧
    w.base.poller.Knows ch
  output : w.con.output.contents = []
  seen : w.seen = ⟨[], false, [], []⟩

/-- Runs lead to quiet connections. -/
theorem quiet_of_reachable (reachable : ConnReachable σ ⟨w, none⟩)
    (connected : w.con.state = .connected) (output : w.con.output.contents = [])
    (no_interest : ∀ ch, w.con.channel = some ch → ch.writeEnabled = false) :
    Quiet { w with seen := ⟨[], false, [], []⟩ } := by
  obtain ⟨steady, settled⟩ : Steady (maxNesting + 1) w ∧ Settled w := reachable.steady
  obtain ⟨⟨ch, channel, opened⟩, -⟩ := settled.live fun final => final.2 connected
  exact ⟨connected, ⟨ch, channel, opened, no_interest ch channel, steady.known ch channel opened⟩,
    output, rfl⟩

theorem Quiet.steady (quiet : Quiet w) : Steady (maxNesting + 1) w ∧ Settled w := by
  obtain ⟨ch, channel, opened, -, knows⟩ := quiet.channel
  refine ⟨⟨?_, ⟨by decide, fun _ _ _ => by decide⟩, ?_, ?_, ?_⟩, .inl ⟨⟨ch, channel, opened⟩, ?_⟩⟩
  · intro ch' channel' _
    rw [channel] at channel'
    cases channel'
    exact knows
  · simp [quiet.seen]
  · simp [quiet.seen, quiet.output]
  · exact fun _ _ _ _ waiting => absurd quiet.output waiting
  · exact fun final => final.2 quiet.connected

theorem runOps_sends (self : Act υ Unit) {ops : List Op}
    (sending : ∀ op ∈ ops, op.sends = true ∨ op = .raise) : Moves Sends (runOps self ops) := by
  intro w₀
  induction ops with
  | nil => mvcgen [runOps]
  | cons op rest ih =>
      have later := ih fun op member => sending op (List.mem_cons_of_mem _ member)
      rcases sending op List.mem_cons_self with sends | rfl
      · have first : Meets _ (runOp self op) _ _ := runOp_sends self sends w₀
        mvcgen [runOps, first, later]
      · mvcgen [runOps, runOp]

/-- While the connection is connected, sending and writing change only what sending
changes. -/
theorem handleEvent_sends (connected : w₀.con.state = .connected)
    (callback : ∀ w, ∀ op ∈ (σ .writable w).1, op.sends = true ∨ op = .raise) {event : Event}
    (sending : event.sends = true) :
    Meets (Sends w₀) (handleEvent σ event) (fun _ => Sends w₀) fun _ => Sends w₀ := by
  cases event with
  | call op => exact runOp_sends (onClose σ) sending w₀
  | writable =>
      have shakes : Meets (fun _ => False) (handleHandshake σ (onClose σ)) (fun _ _ => False)
          fun _ _ => False := meets_iff.mpr fun _ impossible => impossible.elim
      have flushes : Meets _ (flushOutput : Act υ Unit) _ _ := flushOutput_sends w₀
      have performs : ∀ w, Meets (Sends w₀) (runOps (onClose σ) (σ .writable w).1) _ _ :=
        fun w => runOps_sends (onClose σ) (callback w) w₀
      have stops : Meets _ (stopWriting : Act υ Unit) _ _ := stopWriting_sends w₀
      mvcgen [handleEvent, handleWrite, callUser, shakes, flushes, performs, stops]
      case vc1 w sends _ shaking => rw [sends.state, connected] at shaking; cases shaking
      case vc4 sends _ _ _ _ => exact sends.trans (.silent rfl rfl rfl rfl rfl rfl)
  | _ => cases sending

theorem Sends.undisturbed (sends : Sends w₀ w) (start : w₀.seen.events = [])
    (no_failure : .writeFailed ∉ w.seen.events) : Undisturbed w := by
  obtain ⟨events, ofSend, same⟩ := sends.events
  rw [start, List.append_nil] at same
  refine undisturbed_iff.mpr ⟨no_failure, fun pending member => ?_⟩
  rw [same] at member
  cases ofSend _ member

/-- **What is sent reaches the socket in order**: from a connected connection with an empty
queue, for every interleaving of the send operations and `handleWrite`, whose callback may
send too, and every sequence of answers of `write` without a failure, what the socket has
accepted followed by `output_` is what was handed over, and a queue that is not empty is
waited for. A callback that raises shows that this holds between its operations. -/
theorem sends_reach_socket_in_order {c : ConnConfig υ} {events : List Event} (quiet : Quiet w₀)
    (callback : ∀ w, ∀ op ∈ (σ .writable w).1, op.sends = true ∨ op = .raise)
    (run : LabelledRun (ConnStep σ) ⟨w₀, none⟩ events c)
    (sending : ∀ event ∈ events, event.sends = true)
    (no_failure : .writeFailed ∉ c.world.seen.events) :
    c.world.seen.wire ++ c.world.con.output.contents = c.world.seen.handed ∧
      (c.world.con.output.contents ≠ [] →
        ∃ ch, c.world.con.channel = some ch ∧ 0 ≤ ch.fd ∧ ch.writeEnabled = true) := by
  have start : ConnConfig.Holds ⟨w₀, none⟩
      (fun w => (Steady (maxNesting + 1) w ∧ Settled w) ∧ Sends w₀ w)
      fun _ w => Steady (maxNesting + 1) w ∧ Sends w₀ w := ⟨quiet.steady, .refl w₀⟩
  have final := start.of_run (fun event (sends : event.sends = true) =>
    (((handleEvent_keeps σ event).and (handleEvent_settled σ event)).and
      (handleEvent_sends quiet.connected callback sends)).imp
        (fun w before => ⟨⟨before.1, before.1.2⟩, before.2⟩) (fun _ _ done => done)
        fun _ _ stop => ⟨stop.1.1.toSteady, stop.2⟩) run sending
  obtain ⟨steady, sends⟩ : Steady (maxNesting + 1) c.world ∧ Sends w₀ c.world := by
    obtain ⟨w, stopped⟩ := c
    cases stopped with
    | none => exact ⟨final.1.1, final.2⟩
    | some fault => exact final
  have undisturbed := sends.undisturbed (by rw [quiet.seen]) no_failure
  obtain ⟨ch₀, channel₀, opened, -⟩ := quiet.channel
  obtain ⟨channel, input, output, fd, con⟩ := sends.con
  rw [channel₀, Option.map_some] at fd
  obtain ⟨ch, found, same⟩ := Option.map_eq_some_iff.mp fd
  have current : c.world.con.channel = some ch := by rw [con]; exact found
  have still : 0 ≤ ch.fd := same ▸ opened
  refine ⟨steady.flow undisturbed (by simp [current]), fun waiting => ⟨ch, current, still, ?_⟩⟩
  exact steady.interested undisturbed ch current still waiting

end TcpConn

/-- A connection with a socket that accepts little. -/
def narrow : World Unit :=
  TcpConn.accepted noCallbacks (.new none false false none (-1))
    { writes := [.accept 0, .eintr, .eagain, .accept 1], reads := [], polls := [true],
      peer := [], laterPeers := [], nextFd := 7 } ()

/-- The same connection after its handshake. -/
def narrowConnected : World Unit :=
  { (TcpConn.execute noCallbacks narrow [.writable]).world with seen := ⟨[], false, [], []⟩ }

theorem narrowConnected_quiet : TcpConn.Quiet narrowConnected := by
  have reachable : ConnReachable noCallbacks (TcpConn.execute noCallbacks narrow [.writable]) :=
    TcpConn.execute_reachable (TcpConn.accepted_opened noCallbacks none false false none (-1) _ ()) _
  exact TcpConn.quiet_of_reachable reachable rfl rfl (by rintro ch ⟨⟩; rfl)

theorem sends_reach_socket_in_order_narrow :
    let c := TcpConn.execute noCallbacks narrowConnected
      [.call (.send [1, 2, 3]), .call (.sendOutput [4]), .writable]
    c.world.seen.wire = [1, 2, 3] ∧ c.world.con.output.contents = [4] ∧
      c.world.seen.wire ++ c.world.con.output.contents = c.world.seen.handed := by
  obtain ⟨done, front, run⟩ := TcpConn.execute_run noCallbacks narrowConnected
    [.call (.send [1, 2, 3]), .call (.sendOutput [4]), .writable]
  refine ⟨by decide +kernel, by decide +kernel, (TcpConn.sends_reach_socket_in_order
    narrowConnected_quiet (fun _ _ member => by cases member) run (fun event member => ?_)
    (by decide +kernel)).1⟩
  have listed := front.subset member
  revert listed
  simp only [List.mem_cons, List.not_mem_nil, or_false]
  rintro (rfl | rfl | rfl) <;> rfl

end Handy
