import Handy.Conn.Runs

/-!
# What the poller is asked to modify

`PollerEpoll::updateChannel` is fatal when `epoll_ctl` does not know the descriptor. The
calls made by the handlers are about open channels. The one exception is
`send(Buffer &)`: on a closed channel that is not waiting to write, it writes nothing,
queues the bytes and turns write interest on. This is exactly what a run must avoid for
every call to be about a live channel (`updates_live_iff_no_send_on_closed`).

A state callback that says goodbye is enough to be killed by it
(`goodbye_on_close_is_fatal`): `Channel::close` sets the descriptor to `-1` before the
handlers run.
-/

set_option autoImplicit false

namespace Handy

variable {υ : Type}

/-- Every call of `updateChannel` so far was on an open channel in `liveChannels_`. -/
def UpdatesLive (events : List ConnEvent) : Prop :=
  ∀ fd live, .updated fd live ∈ events → 0 ≤ fd ∧ live = true

/-- No call of `send(Buffer &)` so far had something to send on a closed descriptor that
was not waiting to write. -/
def NoSendOnClosed (events : List ConnEvent) : Prop :=
  ∀ fd enabled size, .bufferSent fd enabled size ∈ events → 0 ≤ fd ∨ enabled = true ∨ size = 0

theorem updatesLive_iff (events : List ConnEvent) :
    UpdatesLive events ↔ events.any ConnEvent.updatesDead = false := by
  rw [List.any_eq_false]
  refine ⟨fun live event member => ?_, fun none_dead fd live member => ?_⟩
  · cases event with
    | updated fd alive =>
        obtain ⟨opened, rfl⟩ := live fd alive member
        simp [opened]
    | _ => simp [ConnEvent.updatesDead]
  · simpa using none_dead _ member

theorem noSendOnClosed_iff (events : List ConnEvent) :
    NoSendOnClosed events ↔ events.any ConnEvent.sendsOnClosed = false := by
  rw [List.any_eq_false]
  refine ⟨fun quiet event member => ?_, fun none_sent fd enabled size member => ?_⟩
  · cases event with
    | bufferSent fd enabled size =>
        rcases quiet fd enabled size member with opened | rfl | rfl
        · simp [not_lt.mpr opened]
        · simp
        · simp
    | _ => simp [ConnEvent.sendsOnClosed]
  · have := none_sent _ member
    simp only [ConnEvent.sendsOnClosed_bufferSent, Bool.and_eq_true, decide_eq_true_eq,
      Bool.not_eq_true', bne_iff_ne, ne_eq] at this
    by_contra bad
    push Not at bad
    exact this ⟨⟨by omega, by simpa using bad.2.1⟩, bad.2.2⟩

/-- **The poller is asked about live channels exactly when nothing is sent on a closed
channel**: in every run, each call of `updateChannel` is on an open channel in
`liveChannels_` and the fatal check is not reached, if and only if `send(Buffer &)` is
never called with something to send on a closed descriptor without write interest. -/
theorem updates_live_iff_no_send_on_closed {σ : UserCode υ} {c : ConnConfig υ}
    (reachable : ConnReachable σ c) :
    (UpdatesLive c.world.seen.events ∧ c.stopped ≠ some .epollCtlMod) ↔
      NoSendOnClosed c.world.seen.events := by
  obtain ⟨updates, modifies⟩ : c.world.seen.events.any ConnEvent.sendsOnClosed =
        c.world.seen.events.any ConnEvent.updatesDead ∧
      (c.stopped = some .epollCtlMod → c.world.seen.events.any ConnEvent.updatesDead = true) := by
    obtain ⟨w, stopped⟩ := c
    cases stopped with
    | none => exact ⟨reachable.steady.1.updates, by simp⟩
    | some fault =>
        have halted : TcpConn.Halted _ fault w := reachable.steady
        refine ⟨halted.updates, fun stop => halted.modifies ?_⟩
        simpa using stop
  rw [updatesLive_iff, noSendOnClosed_iff, updates]
  refine ⟨fun safe => safe.1, fun quiet => ⟨quiet, fun stop => ?_⟩⟩
  rw [modifies stop] at quiet
  cases quiet

/-- A state callback that sends a last message when the connection is closed. -/
def goodbye : UserCode Unit := fun callback w =>
  match callback, w.con.state with
  | .state, .closed => ([.sendBuffer (Buffer.new.append [0x62, 0x79, 0x65])], ())
  | _, _ => ([], ())

/-- A connection whose handshake will complete. -/
def greeted : World Unit :=
  TcpConn.accepted goodbye (.new none false true none (-1))
    { writes := [], reads := [], polls := [true], peer := [], laterPeers := [], nextFd := 7 } ()

theorem greeted_opened : TcpConn.Opened goodbye greeted :=
  TcpConn.accepted_opened goodbye none false true none (-1) _ ()

theorem updates_live_iff_no_send_on_closed_greeted :
    let c := TcpConn.execute goodbye greeted [.writable, .call (.sendOutput [1])]
    UpdatesLive c.world.seen.events ∧ c.stopped ≠ some .epollCtlMod :=
  (updates_live_iff_no_send_on_closed (TcpConn.execute_reachable greeted_opened _)).mpr
    ((noSendOnClosed_iff _).mpr (by decide +kernel))

/-- **The last message is fatal**: on `closeNow` the callback sends on a closed channel. -/
theorem goodbye_on_close_is_fatal : ∃ c : ConnConfig Unit, ConnReachable goodbye c ∧
    c.stopped = some .epollCtlMod ∧ ¬ UpdatesLive c.world.seen.events := by
  refine ⟨TcpConn.execute goodbye greeted [.writable, .call .closeNow],
    TcpConn.execute_reachable greeted_opened _, by decide, ?_⟩
  rw [updatesLive_iff]
  decide

end Handy
