import Handy.Conn.Messages

/-!
# Every message is delivered once

In every run of a connection with `onMsg`, whose user code leaves `input_` to the decode
loop and whose message callback does not call `closeNow` on the open connection, the
messages delivered since any moment are found one behind the other in the stream, nothing
is left that could be decoded, and `consume` is never asked for more than `input_` holds
(`messages_delivered_once_in_order`).

The condition is needed: `closeNow` runs `cleanup` inside the callback, and that decodes
the message again, which is still in the buffer (`hasty_callback_underflows`).
-/

set_option autoImplicit false

namespace Handy

namespace TcpConn

variable {υ : Type} {codec : Codec} {σ : UserCode υ} {w w₀ w₁ : World υ} {c : ConnConfig υ}

/-- From a state in which nothing is left to decode, the account can be started anew. -/
theorem Current.restart (current : Current codec w₀ w) : Current codec w w :=
  ⟨⟨current.1.codec_eq, current.1.readcb, le_rfl, fun _ => ⟨[], [], rfl, by simp, by
    rw [List.append_nil]
    exact .done _⟩⟩, current.2⟩

theorem New.current (sound : codec.Sound) (start : New w) (set : w.con.codec = some codec)
    (readcb : w.con.readcb ≠ some .read) : Current codec w w := by
  have empty : w.con.input.contents = [] := by rw [start.con]; rfl
  refine ⟨⟨set, readcb, le_rfl, fun _ => ⟨[], [], rfl, by simp, ?_⟩⟩, fun _ => ?_⟩
  · rw [List.append_nil]
    exact .done _
  · rw [empty, sound.nothing]

/-- A connection of which `onMsg` was called before it was opened. -/
inductive OpenedMsg (σ : UserCode υ) (codec : Codec) : World υ → Prop where
  | connect {w w' : World υ} (port timeout : ℤ) (start : New w)
      (readcb : w.con.readcb = some .msg) (set : w.con.codec = some codec)
      (ran : (connect (onClose σ) port timeout).run w = .ok () w') : OpenedMsg σ codec w'
  | attach {w w' : World υ} (fd : ℕ) (start : New w)
      (readcb : w.con.readcb = some .msg) (set : w.con.codec = some codec)
      (ran : (attach (onClose σ) fd).run w = .ok () w') : OpenedMsg σ codec w'

theorem OpenedMsg.opened (opened : OpenedMsg σ codec w) : Opened σ w := by
  cases opened with
  | connect port timeout start _ _ ran => exact .connect port timeout start ran
  | attach fd start _ _ ran => exact .attach fd start ran

theorem OpenedMsg.current (mannerly : Mannerly σ) (sound : codec.Sound)
    (opened : OpenedMsg σ codec w) : Current codec w w := by
  have keeping : ∀ w₀ : World υ, Keeping codec w₀ (onClose σ) :=
    fun w₀ => handleRead_current mannerly sound maxNesting
  cases opened with
  | connect port timeout start readcb set ran =>
      exact ((connect_current (keeping _) port timeout).ok
        (start.current sound set (by rw [readcb]; decide)) ran).restart
  | attach fd start readcb set ran =>
      exact ((attach_current (keeping _) fd).ok
        (start.current sound set (by rw [readcb]; decide)) ran).restart

/-- A run keeps the account of the messages. -/
theorem Current.of_run (mannerly : Mannerly σ) (sound : codec.Sound) {events : List Event}
    (current : Current codec w₀ w) (run : LabelledRun (ConnStep σ) ⟨w, none⟩ events c)
    (spares : ∀ event ∈ events, Spares event) : c.Holds (Current codec w₀) (Cut codec w₀) := by
  have start : ConnConfig.Holds ⟨w, none⟩ (Current codec w₀) (Cut codec w₀) := current
  exact start.of_run (fun event allowed => handleEvent_current mannerly sound allowed) run spares

/-- **Every message is delivered once and in order**: in every run, and for every state `w₀`
of it, the messages delivered since `w₀`, up to the next `attach`, are found one behind the
other in the stream of the bytes that were in `input_` and those read since; while the
connection runs, `input_` is the rest of that stream and holds no further message; and
`consume` was not called with more bytes than `input_` holds. -/
theorem messages_delivered_once_in_order (mannerly : Mannerly σ) (known : codec.Known)
    {before after : List Event} (opened : OpenedMsg σ codec w)
    (first : LabelledRun (ConnStep σ) ⟨w, none⟩ before ⟨w₀, none⟩)
    (second : LabelledRun (ConnStep σ) ⟨w₀, none⟩ after c)
    (spares : ∀ event ∈ before ++ after, Spares event) :
    c.stopped ≠ some .consumeUnderflow ∧
      (attempts c.world.seen.events = attempts w₀.seen.events →
        ∃ received msgs rest, w₀.net.peer = received ++ c.world.net.peer ∧
          messages c.world.seen.events = messages w₀.seen.events ++ msgs ∧
          codec.Decodes (w₀.con.input.contents ++ received) msgs rest ∧
          (c.stopped = none → rest = c.world.con.input.contents ∧
            (c.world.con.readcb = some .msg → (codec.tryDecode rest).1 ≤ 0))) := by
  have sound := known.sound
  have there : Current codec w w₀ := (opened.current mannerly sound).of_run mannerly sound first
    fun event member => spares event (List.mem_append_left _ member)
  have final := there.restart.of_run mannerly sound second
    fun event member => spares event (List.mem_append_right _ member)
  obtain ⟨world, stopped⟩ := c
  cases stopped with
  | none =>
      have current : Current codec w₀ world := final
      refine ⟨nofun, fun same => ?_⟩
      obtain ⟨received, msgs, peer, delivered, decodes⟩ := current.1.follows same
      exact ⟨received, msgs, _, peer, delivered, decodes, fun _ => ⟨rfl, current.2⟩⟩
  | some fault =>
      have cut : Cut codec w₀ fault world := final
      refine ⟨fun stop => cut.1 (Option.some.inj stop), fun same => ?_⟩
      obtain ⟨rest, received, msgs, peer, delivered, decodes⟩ := cut.2 same
      exact ⟨received, msgs, rest, peer, delivered, decodes, nofun⟩

theorem accepted_openedMsg (σ : UserCode υ) (writablecb statecb : Bool) (codec : Codec)
    (interval : ℤ) (net : Net) (user : υ) : OpenedMsg σ codec
      (accepted σ (new (some .msg) writablecb statecb (some codec) interval) net user) :=
  .attach net.nextFd (newWorld_new (some .msg) writablecb statecb (some codec) interval net user)
    rfl rfl (accepted_ran σ (some .msg) writablecb statecb (some codec) interval net user)

end TcpConn

/-- User code that observes and does nothing. -/
def observer : UserCode Unit := fun _ _ => ([], ())

theorem observer_mannerly : TcpConn.Mannerly observer where
  spares _ _ _ member := absurd member List.not_mem_nil
  patient _ _ _ _ member := absurd member List.not_mem_nil

/-- A connection that receives the line `a` and the start of another one. -/
def oneLine (σ : UserCode Unit) : World Unit :=
  TcpConn.accepted σ (.new (some .msg) false false (some lineCodec) (-1))
    { writes := [], reads := [.data 2, .eagain], polls := [true], peer := [],
      laterPeers := [[0x61, 0x0a, 0x62]], nextFd := 7 } ()

theorem messages_delivered_once_in_order_oneLine :
    let c := TcpConn.execute observer (oneLine observer) [.writable, .readable]
    messages c.world.seen.events = [[0x61]] ∧ c.world.con.input.contents = [0x62] ∧
      c.stopped ≠ some .consumeUnderflow := by
  obtain ⟨done, front, run⟩ := TcpConn.execute_run observer (oneLine observer) [.writable, .readable]
  refine ⟨by decide +kernel, by decide +kernel,
    (TcpConn.messages_delivered_once_in_order observer_mannerly (.inl rfl)
      (TcpConn.accepted_openedMsg observer false false lineCodec (-1) _ ()) (.refl _) run
      fun event member => ?_).1⟩
  rintro op rfl
  have listed := front.subset member
  simp at listed

/-- A message callback that closes the connection at once. -/
def hasty : UserCode Unit := fun callback _ =>
  match callback with
  | .msg _ => ([.closeNow], ())
  | _ => ([], ())

/-- **A callback that closes gets its message twice**, and `consume` is called with more
bytes than `input_` holds. -/
theorem hasty_callback_underflows : ∃ c : ConnConfig Unit, ConnReachable hasty c ∧
    c.stopped = some .consumeUnderflow ∧ messages c.world.seen.events = [[0x61], [0x61]] :=
  ⟨TcpConn.execute hasty (oneLine hasty) [.writable, .readable],
    TcpConn.execute_reachable (TcpConn.accepted_opened hasty (some .msg) false false
      (some lineCodec) (-1) _ ()) _, by decide +kernel, by decide +kernel⟩

end Handy
