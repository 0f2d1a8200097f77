import Handy.Conn.Attempt
import Handy.Conn.Delivery

/-!
# Attempts do not mix

A client that reconnects uses its buffers again as they are. If `input_` and `output_` are
empty when a socket is attached, then the messages delivered until the next socket is attached
are the decoding of the bytes read from this one, and this one gets the bytes that were handed
over for it (`attempts_do_not_mix`). If they are not, the bytes left over from the socket
before become part of the stream of the next one (`partial_line_crosses_sockets`).
-/

set_option autoImplicit false

namespace Handy

namespace TcpConn

variable {υ : Type} {codec : Codec} {σ : UserCode υ} {w w₀ w₁ : World υ} {c : ConnConfig υ}

/-! ## The flow of output in a run -/

theorem Renewed.flowing {port : ℤ} (renewed : Renewed port w₀ w) : Flowing w := by
  intro _
  rw [renewed.wire, renewed.handed, renewed.output]
  exact .rfl

/-- **Every event keeps the flow of output.** -/
theorem handleEvent_flowing (event : Event) :
    Meets (fun w => Flowing w ∧ Settled w) (handleEvent σ event) (fun _ w => Flowing w ∧ Settled w)
      fun _ _ => True := by
  refine meets_iff.mpr fun w start => ?_
  have settles := handleEvent_settled σ event
  cases ran : (handleEvent σ event).run w with
  | error => trivial
  | ok _ w' =>
      refine ⟨?_, settles.ok start.2 ran⟩
      by_cases looping : event = .loopExit
      · subst looping
        rcases (loopExit_stays σ w).ok rfl ran with attempt | attempt
        · exact attempt.2 start.1
        · exact attempt.2 start.1
      · rcases (handleEvent_proceeds σ w looping).ok ⟨rfl, start.2⟩ ran with attempt | renewed
        · exact attempt.2 start.1
        · exact renewed.2.flowing

/-- A run keeps the flow of output. -/
theorem flowing_of_run {events : List Event} (flowing : Flowing w) (settled : Settled w)
    (run : LabelledRun (ConnStep σ) ⟨w, none⟩ events ⟨w₁, none⟩) : Flowing w₁ := by
  have start : ConnConfig.Holds ⟨w, none⟩ (fun w => Flowing w ∧ Settled w) fun _ _ => True :=
    ⟨flowing, settled⟩
  have final := start.of_run (fun event _ => handleEvent_flowing event) run fun _ _ => trivial
  exact final.1

/-! ## The start of an attempt -/

/-- In the last state a socket has just been attached: the first one by `connect`, or a later
one by an event that found `input_` and `output_` empty. -/
inductive Attached (σ : UserCode υ) (codec : Codec) : World υ → Prop where
  | first {w w₀ : World υ} (port timeout : ℤ) (start : New w)
      (readcb : w.con.readcb = some .msg) (set : w.con.codec = some codec)
      (ran : (connect (onClose σ) port timeout).run w = .ok () w₀) : Attached σ codec w₀
  | later {w w₁ w₀ : World υ} {events : List Event} {event : Event} (opened : OpenedMsg σ codec w)
      (run : LabelledRun (ConnStep σ) ⟨w, none⟩ events ⟨w₁, none⟩)
      (spares : ∀ event ∈ events, Spares event) (spared : Spares event)
      (step : ConnStep σ ⟨w₁, none⟩ event ⟨w₀, none⟩)
      (attaches : attempts w₀.seen.events = attempts w₁.seen.events + 1)
      (no_input : w₁.con.input.contents = []) (no_output : w₁.con.output.contents = []) :
      Attached σ codec w₀

/-- Nothing is left over from another socket. -/
structure Fresh (w : World υ) : Prop where
  input : w.con.input.contents = []
  wire : w.seen.wire = []
  handed : w.seen.handed = []

theorem Renewed.fresh {port : ℤ} (renewed : Renewed port w₁ w₀)
    (no_input : w₁.con.input.contents = []) (no_output : w₁.con.output.contents = []) : Fresh w₀ :=
  ⟨by rw [renewed.input, no_input], renewed.wire, by rw [renewed.handed, no_output]⟩

/-- **At the start of an attempt nothing is left over.** -/
theorem Attached.fresh (mannerly : Mannerly σ) (sound : codec.Sound)
    (attached : Attached σ codec w₀) :
    Fresh w₀ ∧ Current codec w₀ w₀ ∧ Flowing w₀ ∧ Settled w₀ := by
  cases attached with
  | first port timeout start readcb set ran =>
      have opened : OpenedMsg σ codec w₀ := .connect port timeout start readcb set ran
      have renewed := (connect_renews (onClose σ) port _ timeout).ok ⟨rfl, .inr start.gone⟩ ran
      exact ⟨renewed.fresh (by rw [start.con]; rfl) (by rw [start.con]; rfl),
        opened.current mannerly sound, renewed.flowing, opened.opened.steady.2⟩
  | @later w w₁ _ events event opened run spares spared step attaches no_input no_output =>
      have whole := run.append (.single step)
      have before : Settled w₁ := (ConnReachable.steady ⟨w, events, opened.opened, run⟩).2
      have after : Settled w₀ := (ConnReachable.steady ⟨w, _, opened.opened, whole⟩).2
      have current : Current codec w w₀ := by
        refine (opened.current mannerly sound).of_run mannerly sound whole fun other member => ?_
        rcases List.mem_append.mp member with earlier | last
        · exact spares other earlier
        · rw [List.mem_singleton.mp last]
          exact spared
      have renewed : Renewed w₁.con.destPort w₁ w₀ := by
        obtain ⟨ran⟩ := step
        have unchanged : Within w₁ w₀ → False := fun within => by
          have same := within.attempts_eq
          omega
        by_cases looping : event = .loopExit
        · subst looping
          rcases (loopExit_stays σ w₁).ok rfl ran with attempt | attempt
          · exact (unchanged attempt.1).elim
          · have same := attempt.1.attempts_eq
            have exits : attempts (exiting w₁).seen.events = attempts w₁.seen.events := rfl
            omega
        · rcases (handleEvent_proceeds σ w₁ looping).ok ⟨rfl, before⟩ ran with attempt | renewed
          · exact (unchanged attempt.1).elim
          · exact renewed.2
      exact ⟨renewed.fresh no_input no_output, current.restart, renewed.flowing, after⟩

/-- **Attempts do not mix**: when a socket is attached to empty buffers, the messages
delivered until the next `attach` are found one behind the other in the bytes read from that
socket, nothing that could be decoded is left, and the bytes that it has accepted and those in
`output_` are the bytes that were handed over since. -/
theorem attempts_do_not_mix (mannerly : Mannerly σ) (known : codec.Known)
    (attached : Attached σ codec w₀) {events : List Event}
    (run : LabelledRun (ConnStep σ) ⟨w₀, none⟩ events c) (spares : ∀ event ∈ events, Spares event)
    (same : attempts c.world.seen.events = attempts w₀.seen.events) :
    (w₀.seen.wire = [] ∧ w₀.seen.handed = []) ∧
      ∃ received msgs rest, w₀.net.peer = received ++ c.world.net.peer ∧
        messages c.world.seen.events = messages w₀.seen.events ++ msgs ∧
        codec.Decodes received msgs rest ∧
        (c.stopped = none → rest = c.world.con.input.contents ∧
          (c.world.con.readcb = some .msg → (codec.tryDecode rest).1 ≤ 0) ∧
          (Present c.world →
            (c.world.seen.wire ++ c.world.con.output.contents).Perm c.world.seen.handed)) := by
  have sound := known.sound
  obtain ⟨fresh, start, flowing, settled⟩ := attached.fresh mannerly sound
  have final := start.of_run mannerly sound run spares
  refine ⟨⟨fresh.wire, fresh.handed⟩, ?_⟩
  obtain ⟨world, stopped⟩ := c
  cases stopped with
  | none =>
      have current : Current codec w₀ world := final
      obtain ⟨received, msgs, peer, delivered, decodes⟩ := current.1.follows same
      rw [fresh.input, List.nil_append] at decodes
      exact ⟨received, msgs, _, peer, delivered, decodes,
        fun _ => ⟨rfl, current.2, flowing_of_run flowing settled run⟩⟩
  | some fault =>
      have cut : Cut codec w₀ fault world := final
      obtain ⟨rest, received, msgs, peer, delivered, decodes⟩ := cut.2 same
      rw [fresh.input, List.nil_append] at decodes
      exact ⟨received, msgs, rest, peer, delivered, decodes, nofun⟩

end TcpConn

/-- A client that reconnects at once, and what its first two sockets receive. -/
def twoSockets (first second : Bytes) : World Unit :=
  TcpConn.dialled observer (.new (some .msg) false false (some lineCodec) 0) 80 0
    { writes := [], reads := [.data 9, .eof, .data 9], polls := [true, true], peer := [],
      laterPeers := [first, second], nextFd := 7 } ()

/-- The first socket is connected and read to its end. -/
def firstSocket : List Event := [.writable, .readable]

theorem attempts_do_not_mix_wholeLines :
    let w₁ := (TcpConn.execute observer (twoSockets [0x61, 0x0a] [0x63, 0x0a]) firstSocket).world
    let w₀ := (TcpConn.execute observer w₁ [.timer]).world
    let c := TcpConn.execute observer w₀ [.writable, .readable]
    messages c.world.seen.events = [[0x61], [0x63]] ∧
      ∃ received msgs rest, w₀.net.peer = received ++ c.world.net.peer ∧
        messages c.world.seen.events = [[0x61]] ++ msgs ∧ lineCodec.Decodes received msgs rest := by
  intro w₁ w₀ c
  have opened : TcpConn.OpenedMsg observer lineCodec (twoSockets [0x61, 0x0a] [0x63, 0x0a]) :=
    .connect 80 0 (TcpConn.newWorld_new (some .msg) false false (some lineCodec) 0 _ ()) rfl rfl
      (TcpConn.dialled_ran observer (some .msg) false false (some lineCodec) 0 0 _ () (by decide))
  have first : LabelledRun (ConnStep observer) _ firstSocket ⟨w₁, none⟩ :=
    TcpConn.execute_completes (by decide +kernel)
  have redial : LabelledRun (ConnStep observer) ⟨w₁, none⟩ [.timer] ⟨w₀, none⟩ :=
    TcpConn.execute_completes (by decide +kernel)
  have second : LabelledRun (ConnStep observer) ⟨w₀, none⟩ [.writable, .readable] ⟨c.world, none⟩ :=
    TcpConn.execute_completes (by decide +kernel)
  have spares : ∀ event ∈ [Event.writable, .readable], TcpConn.Spares event := by
    simp [TcpConn.Spares]
  have attached : TcpConn.Attached observer lineCodec w₀ :=
    .later opened first spares (by simp [TcpConn.Spares]) redial.step_of_single (by decide +kernel)
      (by decide +kernel) (by decide +kernel)
  have same : attempts c.world.seen.events = attempts w₀.seen.events := by decide +kernel
  have before : messages w₀.seen.events = [[0x61]] := by decide +kernel
  have after : messages c.world.seen.events = [[0x61], [0x63]] := by decide +kernel
  clear_value c w₀ w₁
  obtain ⟨-, received, msgs, rest, peer, delivered, decodes, -⟩ :=
    TcpConn.attempts_do_not_mix observer_mannerly (.inl rfl) attached second spares same
  rw [before] at delivered
  exact ⟨after, received, msgs, rest, peer, delivered, decodes⟩

/-- **A part of a line crosses over**: the first socket ends in the middle of a line, and the
message delivered from the second one starts with what was left of the first. -/
theorem partial_line_crosses_sockets : ∃ c : ConnConfig Unit, ConnReachable observer c ∧
    (TcpConn.execute observer (twoSockets [0x61, 0x62] [0x63, 0x0a])
      (firstSocket ++ [.timer])).world.net.peer = [0x63, 0x0a] ∧
    c.stopped = none ∧ attempts c.world.seen.events = 2 ∧
    messages c.world.seen.events = [[0x61, 0x62, 0x63]] :=
  ⟨TcpConn.execute observer (twoSockets [0x61, 0x62] [0x63, 0x0a])
      (firstSocket ++ [.timer, .writable, .readable]),
    TcpConn.execute_reachable (TcpConn.dialled_opened observer (some .msg) false false
      (some lineCodec) 0 0 _ () (by decide)) _, by decide +kernel, by decide +kernel,
    by decide +kernel, by decide +kernel⟩

end Handy
