import Handy.Conn.Isolation
import Handy.Conn.Progress

/-!
# Two connections and the bytes between them

A link joins two connections: the bytes that the socket of one end accepts are carried to the
other end, in order and after any time. The steps of a link are the events of its ends, in any
interleaving, and the moves of the bytes in flight.

What one end hands over as encoded messages, the callback of the other end gets: at any time the
beginning of these messages, in order and without a gap, and all of them when every byte has been
accepted, carried and read (`messages_cross_link`).
-/

set_option autoImplicit false
set_option mvcgen.warning false

namespace Handy

/-! ## Connections at the ends -/

theorem ConnConfig.Holds.imp {υ : Type} {c : ConnConfig υ} {running : World υ → Prop}
    {halted : Fault → World υ → Prop} {p : World υ → Prop} (holds : c.Holds running halted)
    (runs : ∀ w, running w → p w) (halts : ∀ fault w, halted fault w → p w) : p c.world := by
  obtain ⟨w, stopped⟩ := c
  cases stopped with
  | none => exact runs w holds
  | some fault => exact halts fault w holds

namespace TcpConn

variable {υ : Type} {codec : Codec} {σ : UserCode υ} {w w₀ : World υ} {c : ConnConfig υ} {depth : ℕ}

/-- What the account of a connection is about, when the peer has sent these bytes. -/
def fed (w : World υ) (stream : Bytes) : World υ := { w with net := { w.net with peer := stream } }

theorem fed_self {stream : Bytes} (peer : w.net.peer = stream) : fed w stream = w := by
  rw [fed, ← peer]

theorem Follows.fed {stream data : Bytes} (follows : Follows codec (fed w₀ stream) w data)
    (more : Bytes) :
    Follows codec (TcpConn.fed w₀ (stream ++ more)) (TcpConn.fed w (w.net.peer ++ more)) data := by
  obtain ⟨received, msgs, peer, delivered, decodes⟩ := follows
  have streamed : stream = received ++ w.net.peer := peer
  refine ⟨received, msgs, ?_, delivered, decodes⟩
  show stream ++ more = received ++ (w.net.peer ++ more)
  rw [streamed, List.append_assoc]

/-- Bytes that arrive join the stream. -/
theorem Current.fed {stream : Bytes} (current : Current codec (fed w₀ stream) w) (more : Bytes) :
    Current codec (TcpConn.fed w₀ (stream ++ more)) (TcpConn.fed w (w.net.peer ++ more)) :=
  ⟨⟨current.1.codec_eq, current.1.readcb, current.1.later, fun same =>
    (current.1.follows same).fed more⟩, current.2⟩

theorem Cut.fed {stream : Bytes} {fault : Fault} (cut : Cut codec (fed w₀ stream) fault w)
    (more : Bytes) :
    Cut codec (TcpConn.fed w₀ (stream ++ more)) fault (TcpConn.fed w (w.net.peer ++ more)) := by
  refine ⟨cut.1, fun same => ?_⟩
  obtain ⟨rest, follows⟩ := cut.2 same
  exact ⟨rest, follows.fed more⟩

theorem Progress.restart (progress : Progress w₀ w) : Progress w w :=
  ⟨progress.ordered, le_rfl, fun _ => List.prefix_rfl⟩

/-- An event lets the socket accept more. -/
theorem Progress.step {c c' : ConnConfig υ} (holds : c.Holds
      (fun w => Advancing (maxNesting + 1) w₀ w ∧ Settled w) fun _ => Progress w₀) {event : Event}
    (step : ConnStep σ c event c') : Progress c.world c'.world := by
  have advances : ∀ w, Meets (fun v => Advancing (maxNesting + 1) w v ∧ Settled v)
    (handleEvent σ event) _ _ := fun w => handleEvent_advances σ event
  cases step with
  | done ran =>
      obtain ⟨advancing, settled⟩ := holds
      exact ((advances _).ok ⟨⟨advancing.toSteady, advancing.toProgress.restart⟩, settled⟩ ran).toProgress
  | fault ran =>
      obtain ⟨advancing, settled⟩ := holds
      exact (advances _).fault ⟨⟨advancing.toSteady, advancing.toProgress.restart⟩, settled⟩ ran

/-- A new connection to which a server has attached a socket. -/
theorem New.attach_fresh (self : Act υ Unit) (fd : ℤ) (start : New w) :
    Meets (fun w' => w' = w) (attach self fd) (fun _ => Fresh) fun _ _ => True := by
  have unused : w.con.channel = none ∧ w.con.input.contents = [] ∧ w.con.output.contents = [] := by
    rw [start.con]
    exact ⟨rfl, rfl, rfl⟩
  have deletes : Meets (fun w' : World υ => w'.con.channel = none ∧ w'.con.input.contents = [] ∧
        w'.con.output.contents = []) (deleteChannel self)
      (fun _ w' => w'.con.channel = none ∧ w'.con.input.contents = [] ∧ w'.con.output.contents = [])
      fun _ _ => True := by
    refine meets_iff.mpr fun w' idle => ?_
    rw [deleteChannel_absent idle.1]
    exact idle
  mvcgen [attach, modifyCon, record, deletes]
  case vc2 w' same _ _ _ _ =>
    subst same
    exact unused
  case vc4 w' idle _ _ _ _ _ => exact ⟨idle.2.1, rfl, idle.2.2⟩

end TcpConn

/-- The ends of a link. -/
inductive Side where
  | left
  | right
  deriving DecidableEq, Repr

/-- The other end. -/
def Side.other : Side → Side
  | .left => .right
  | .right => .left

@[simp] theorem Side.other_other (side : Side) : side.other.other = side := by cases side <;> rfl

/-- Two connections, and how many of the bytes that the socket of an end has accepted were carried
to the other end. -/
structure Link (υ : Side → Type) where
  ends : (side : Side) → ConnConfig (υ side)
  carried : Side → ℕ

/-- A step of a link. -/
inductive LinkEvent where
  /-- An event of the connection at one end. -/
  | event (side : Side) (event : Event)
  /-- The next bytes from one end arrive at the other. -/
  | carry (side : Side) (count : ℕ)

namespace Link

variable {υ : Side → Type}

/-- The connection of one end has moved on. -/
def put (link : Link υ) (side : Side) (c : ConnConfig (υ side)) : Link υ :=
  { link with ends := Function.update link.ends side c }

/-- Bytes arrive at the socket of a connection. -/
def arrive {υ : Type} (bytes : Bytes) (c : ConnConfig υ) : ConnConfig υ :=
  { c with world := TcpConn.fed c.world (c.world.net.peer ++ bytes) }

/-- The next bytes in flight from this end. -/
def flight (link : Link υ) (side : Side) (count : ℕ) : Bytes :=
  ((link.ends side).world.seen.wire.drop (link.carried side)).take count

/-- The next bytes from this end are carried to the other one. -/
def haul (link : Link υ) (side : Side) (count : ℕ) : Link υ where
  ends := Function.update link.ends side.other
    (arrive (link.flight side count) (link.ends side.other))
  carried := Function.update link.carried side (link.carried side + count)

/-- The steps of a link, while its ends keep their sockets. -/
inductive Step (σ : (side : Side) → UserCode (υ side)) : Link υ → LinkEvent → Link υ → Prop where
  | event {link : Link υ} {side : Side} {event : Event} {c : ConnConfig (υ side)}
      (step : ConnStep (σ side) (link.ends side) event c)
      (same : attempts c.world.seen.events = attempts (link.ends side).world.seen.events) :
      Step σ link (.event side event) (link.put side c)
  | carry {link : Link υ} {side : Side} {count : ℕ}
      (accepted : link.carried side + count ≤ (link.ends side).world.seen.wire.length) :
      Step σ link (.carry side count) (link.haul side count)

/-! ### Executing steps -/

section Execution

variable (σ : (side : Side) → UserCode (υ side))

/-- The link after a step. -/
def next (link : Link υ) : LinkEvent → Link υ
  | .event side event => link.put side (TcpConn.execute (σ side) (link.ends side).world [event])
  | .carry side count => link.haul side count

/-- The link can take the step. -/
def permits (link : Link υ) : LinkEvent → Bool
  | .event side event => (link.ends side).stopped.isNone &&
      attempts (TcpConn.execute (σ side) (link.ends side).world [event]).world.seen.events ==
        attempts (link.ends side).world.seen.events
  | .carry side count =>
      decide (link.carried side + count ≤ (link.ends side).world.seen.wire.length)

/-- The link can take the steps one after the other. -/
def permitsAll : Link υ → List LinkEvent → Bool
  | _, [] => true
  | link, event :: rest => link.permits σ event && permitsAll (link.next σ event) rest

variable {σ}

theorem step_next {link : Link υ} {event : LinkEvent} (permitted : link.permits σ event = true) :
    Step σ link event (link.next σ event) := by
  cases event with
  | event side event =>
      simp only [permits, Bool.and_eq_true, Option.isNone_iff_eq_none, beq_iff_eq] at permitted
      refine .event ?_ permitted.2
      have running := permitted.1
      generalize link.ends side = c at running
      obtain ⟨w, stopped⟩ := c
      cases running
      unfold TcpConn.execute
      cases ran : (TcpConn.handleEvent (σ side) event).run w with
      | ok _ w' => exact .done ran
      | error fault w' => exact .fault ran
  | carry side count => exact .carry (of_decide_eq_true permitted)

theorem run_next {link : Link υ} {events : List LinkEvent}
    (permitted : link.permitsAll σ events = true) :
    LabelledRun (Step σ) link events (events.foldl (next σ) link) := by
  induction events generalizing link with
  | nil => exact .refl _
  | cons event rest ih =>
      rw [permitsAll, Bool.and_eq_true] at permitted
      exact .cons (step_next permitted.1) (ih permitted.2)

end Execution

/-! ## What holds of a link -/

/-- The bytes from this end that have arrived at the other. -/
def arrived (link : Link υ) (side : Side) : Bytes :=
  (link.ends side).world.seen.wire.take (link.carried side)

open TcpConn in
/-- At both ends the socket accepts the beginning of what was handed over, and delivered are the
messages found in what has arrived. -/
structure Sound (codec : Codec) (w₀ : (side : Side) → World (υ side)) (link : Link υ) : Prop where
  advancing : ∀ side, (link.ends side).Holds
    (fun w => Advancing (maxNesting + 1) (w₀ side) w ∧ Settled w) fun _ => Progress (w₀ side)
  once : ∀ side, attempts (link.ends side).world.seen.events = attempts (w₀ side).seen.events
  bounded : ∀ side, link.carried side ≤ (link.ends side).world.seen.wire.length
  current : ∀ side, (link.ends side).Holds
    (Current codec (fed (w₀ side) (link.arrived side.other)))
    (Cut codec (fed (w₀ side) (link.arrived side.other)))

section Steps

variable {σ : (side : Side) → UserCode (υ side)} {codec : Codec}
  {w₀ : (side : Side) → World (υ side)} {link : Link υ} {side : Side}

@[simp] theorem put_self (c : ConnConfig (υ side)) : (link.put side c).ends side = c :=
  Function.update_self ..

theorem put_of_ne {other : Side} (c : ConnConfig (υ side)) (ne : other ≠ side) :
    (link.put side c).ends other = link.ends other :=
  Function.update_of_ne ne ..

/-- What has arrived stays, as the socket only accepts more. -/
theorem arrived_put {c : ConnConfig (υ side)}
    (grows : (link.ends side).world.seen.wire <+: c.world.seen.wire)
    (bounded : link.carried side ≤ (link.ends side).world.seen.wire.length) (other : Side) :
    (link.put side c).arrived other = link.arrived other := by
  by_cases same : other = side
  · subst same
    obtain ⟨more, wire⟩ := grows
    show ((link.put other c).ends other).world.seen.wire.take (link.carried other) = _
    rw [put_self, ← wire, List.take_append_of_le_length bounded, arrived]
  · show ((link.put side c).ends other).world.seen.wire.take (link.carried other) = _
    rw [put_of_ne c same, arrived]

open TcpConn in
/-- **An event of one end keeps the link sound.** -/
theorem Sound.put (sound : Sound codec w₀ link) (mannerly : Mannerly (σ side))
    (decodes : codec.Sound) {event : Event} (spares : Spares event)
    {c : ConnConfig (υ side)} (step : ConnStep (σ side) (link.ends side) event c)
    (same : attempts c.world.seen.events = attempts (link.ends side).world.seen.events) :
    Sound codec w₀ (link.put side c) := by
  have run : LabelledRun (ConnStep (σ side)) (link.ends side) [event] c := .single step
  have only : ∀ other ∈ [event], other = event := fun _ member => List.mem_singleton.mp member
  have grows := (Progress.step (sound.advancing side) step).grows same
  have arrived := arrived_put grows (sound.bounded side)
  refine ⟨fun other => ?_, fun other => ?_, fun other => ?_, fun other => ?_⟩
  · by_cases here : other = side
    · subst here
      rw [put_self]
      refine (sound.advancing other).of_run (fun event _ => ?_) run fun _ _ => trivial
      exact ((handleEvent_advances (σ other) event).and (handleEvent_settled (σ other) event)).imp
        (fun _ start => ⟨start, start.2⟩) (fun _ _ done => done) fun _ _ stop => stop.1
    · rw [put_of_ne c here]
      exact sound.advancing other
  · by_cases here : other = side
    · subst here
      rw [put_self, same, sound.once other]
    · rw [put_of_ne c here, sound.once other]
  · by_cases here : other = side
    · subst here
      rw [put_self]
      exact (sound.bounded other).trans grows.length_le
    · rw [put_of_ne c here]
      exact sound.bounded other
  · rw [arrived other.other]
    by_cases here : other = side
    · subst here
      rw [put_self]
      refine (sound.current other).of_run (fun event same => ?_) run only
      rw [same]
      exact handleEvent_current mannerly decodes spares
    · rw [put_of_ne c here]
      exact sound.current other

theorem haul_of_ne {count : ℕ} {other : Side} (ne : other ≠ side.other) :
    (link.haul side count).ends other = link.ends other :=
  Function.update_of_ne ne ..

theorem haul_other {count : ℕ} :
    (link.haul side count).ends side.other =
      arrive (link.flight side count) (link.ends side.other) :=
  Function.update_self ..

/-- The connections themselves do not change. -/
theorem haul_seen {count : ℕ} (other : Side) :
    ((link.haul side count).ends other).world.seen = (link.ends other).world.seen := by
  by_cases here : other = side.other
  · subst here
    rw [haul_other]
    rfl
  · rw [haul_of_ne here]

theorem arrive_holds {υ : Type} {bytes : Bytes} {c : ConnConfig υ} {running running' : World υ → Prop}
    {halted halted' : Fault → World υ → Prop} (holds : c.Holds running halted)
    (runs : ∀ w, running w → running' (TcpConn.fed w (w.net.peer ++ bytes)))
    (halts : ∀ fault w, halted fault w → halted' fault (TcpConn.fed w (w.net.peer ++ bytes))) :
    (arrive bytes c).Holds running' halted' := by
  obtain ⟨w, stopped⟩ := c
  cases stopped with
  | none => exact runs w holds
  | some fault => exact halts fault w holds

/-- What has arrived from this end is longer, and what has arrived from the other is the same. -/
theorem arrived_haul {count : ℕ} :
    (link.haul side count).arrived side = link.arrived side ++ link.flight side count := by
  rw [arrived, haul_seen, arrived, flight]
  show List.take (Function.update link.carried side (link.carried side + count) side) _ = _
  rw [Function.update_self, List.take_add]

theorem arrived_haul_of_ne {count : ℕ} {other : Side} (ne : other ≠ side) :
    (link.haul side count).arrived other = link.arrived other := by
  rw [arrived, haul_seen, arrived]
  show List.take (Function.update link.carried side (link.carried side + count) other) _ = _
  rw [Function.update_of_ne ne]

open TcpConn in
/-- **So do the bytes that arrive.** -/
theorem Sound.haul (sound : Sound codec w₀ link) {count : ℕ}
    (accepted : link.carried side + count ≤ (link.ends side).world.seen.wire.length) :
    Sound codec w₀ (link.haul side count) := by
  refine ⟨fun other => ?_, fun other => ?_, fun other => ?_, fun other => ?_⟩
  · by_cases here : other = side.other
    · subst here
      rw [haul_other]
      refine arrive_holds (sound.advancing side.other) (fun w start => ?_) fun fault w stop => ?_
      · exact ⟨start.1.of_same rfl rfl rfl rfl rfl rfl, start.2⟩
      · exact stop.of_same rfl rfl rfl
    · rw [haul_of_ne here]
      exact sound.advancing other
  · rw [haul_seen, sound.once]
  · rw [haul_seen]
    show Function.update link.carried side (link.carried side + count) other ≤ _
    by_cases here : other = side
    · subst here
      rw [Function.update_self]
      exact accepted
    · rw [Function.update_of_ne here]
      exact sound.bounded other
  · by_cases here : other = side.other
    · subst here
      rw [haul_other, Side.other_other, arrived_haul]
      refine arrive_holds (sound.current side.other) (fun w current => ?_) fun fault w cut => ?_
      · rw [Side.other_other] at current
        exact current.fed _
      · rw [Side.other_other] at cut
        exact cut.fed _
    · have there : other.other ≠ side := fun same => here (by rw [← same, Side.other_other])
      rw [haul_of_ne here, arrived_haul_of_ne there]
      exact sound.current other

end Steps

/-! ## Runs -/

section Runs

variable {σ : (side : Side) → UserCode (υ side)} {codec : Codec} {first last : Link υ}
  {events : List LinkEvent}

open TcpConn in
/-- Both ends have just got their sockets, and nothing is left over from others. -/
structure Started (σ : (side : Side) → UserCode (υ side)) (codec : Codec) (link : Link υ) : Prop where
  joined : ∀ side, OpenedMsg (σ side) codec (link.ends side).world ∨
    Attached (σ side) codec (link.ends side).world
  running : ∀ side, (link.ends side).stopped = none
  silent : ∀ side, (link.ends side).world.net.peer = []
  carried : ∀ side, link.carried side = 0

theorem Started.end_eq (started : Started σ codec first) (side : Side) :
    first.ends side = ⟨(first.ends side).world, none⟩ := by
  rw [← started.running side]

open TcpConn in
/-- An end that has just got its socket. -/
theorem Started.fresh (mannerly : ∀ side, Mannerly (σ side)) (decodes : codec.Sound)
    (started : Started σ codec first) (side : Side) :
    Fresh (first.ends side).world ∧
      Current codec (first.ends side).world (first.ends side).world ∧
      Steady (maxNesting + 1) (first.ends side).world ∧ Settled (first.ends side).world := by
  rcases started.joined side with opened | attached
  · refine ⟨?_, opened.current (mannerly side) decodes, opened.opened.steady⟩
    cases opened with
    | connect port timeout start readcb set ran =>
        exact ((Attached.first port timeout start readcb set ran).fresh (mannerly side) decodes).1
    | attach fd start _ _ ran => exact (start.attach_fresh _ fd).ok rfl ran
  · obtain ⟨fresh, current, -, -⟩ := attached.fresh (mannerly side) decodes
    refine ⟨fresh, current, ?_⟩
    generalize (first.ends side).world = w at attached
    cases attached with
    | first port timeout start readcb set ran => exact (Opened.connect port timeout start ran).steady
    | later opened run _ _ step _ _ _ =>
        exact ConnReachable.steady ⟨_, _, opened.opened, run.append (.single step)⟩

open TcpConn in
theorem Started.sound (mannerly : ∀ side, Mannerly (σ side)) (decodes : codec.Sound)
    (started : Started σ codec first) : Sound codec (fun side => (first.ends side).world) first := by
  refine ⟨fun side => ?_, fun side => rfl, fun side => ?_, fun side => ?_⟩
  · obtain ⟨fresh, -, steady, settled⟩ := started.fresh mannerly decodes side
    rw [started.end_eq side]
    exact ⟨⟨steady, fun _ => by rw [fresh.wire]; exact List.nil_prefix, le_rfl,
      fun _ => List.prefix_rfl⟩, settled⟩
  · rw [started.carried side]
    exact Nat.zero_le _
  · obtain ⟨-, current, -, -⟩ := started.fresh mannerly decodes side
    have silent : fed (first.ends side).world (first.arrived side.other) = (first.ends side).world := by
      rw [arrived, started.carried, List.take_zero, fed_self (started.silent side)]
    rw [silent, started.end_eq side]
    exact current

/-- **Every run keeps the link sound.** -/
theorem Sound.of_run (mannerly : ∀ side, TcpConn.Mannerly (σ side)) (decodes : codec.Sound)
    {w₀ : (side : Side) → World (υ side)} (sound : Sound codec w₀ first)
    (run : LabelledRun (Step σ) first events last)
    (spares : ∀ side event, .event side event ∈ events → TcpConn.Spares event) :
    Sound codec w₀ last := by
  refine run.invariant_of_allowed (Sound codec w₀)
    (fun label => ∀ side event, label = .event side event → TcpConn.Spares event) ?_ ?_ sound
  · rintro before label after spares sound (⟨step, same⟩ | ⟨accepted⟩)
    · exact sound.put (mannerly _) decodes (spares _ _ rfl) step same
    · exact sound.haul accepted
  · rintro label member side event rfl
    exact spares side event member

open TcpConn in
/-- What an end has delivered, of what has arrived. -/
theorem Sound.follows {w₀ : (side : Side) → World (υ side)} {link : Link υ}
    (sound : Sound codec w₀ link) (side : Side) : ∃ rest,
      Follows codec (fed (w₀ side) (link.arrived side.other)) (link.ends side).world rest ∧
      ((link.ends side).stopped = none → (link.ends side).world.con.readcb = some .msg →
        (codec.tryDecode rest).1 ≤ 0) := by
  have holds := sound.current side
  have once := sound.once side
  generalize link.ends side = c at holds once
  obtain ⟨w, stopped⟩ := c
  cases stopped with
  | none =>
      have current : Current codec _ w := holds
      exact ⟨_, current.1.follows once, fun _ readcb => current.2 readcb⟩
  | some fault =>
      have cut : Cut codec _ fault w := holds
      obtain ⟨rest, follows⟩ := cut.2 once
      exact ⟨rest, follows, nofun⟩

/-- Every byte from this end was accepted by the socket, carried over and read, and messages are
still wanted. -/
def Drained (link : Link υ) (side : Side) : Prop :=
  (link.ends side).world.seen.wire = (link.ends side).world.seen.handed ∧
    link.carried side = (link.ends side).world.seen.wire.length ∧
    (link.ends side.other).world.net.peer = [] ∧
    (link.ends side.other).world.con.readcb = some .msg ∧ (link.ends side.other).stopped = none

open TcpConn in
/-- **Messages cross a link**: in every interleaving of the events of both connections and the
moves of the bytes between them, until one of them attaches another socket, if the bytes handed
over at one end are the encodings of some messages, then the messages delivered at the other end are
the first of these, in order and without a gap; and all of them when every byte was accepted,
carried and read. -/
theorem messages_cross_link (mannerly : ∀ side, Mannerly (σ side))
    (started : Started σ codec first) (run : LabelledRun (Step σ) first events last)
    (spares : ∀ side event, .event side event ∈ events → Spares event) {side : Side}
    {sent : List Bytes} (carries : codec.Carries sent)
    (total : (sent.flatMap codec.encode).length < 2 ^ 31)
    (undisturbed : Undisturbed (last.ends side).world)
    (handed : (last.ends side).world.seen.handed = sent.flatMap codec.encode) :
    ∃ msgs, messages (last.ends side.other).world.seen.events =
        messages (first.ends side.other).world.seen.events ++ msgs ∧ msgs <+: sent ∧
      (last.Drained side → msgs = sent) := by
  have decodes := carries.known.sound
  have sound := (started.sound mannerly decodes).of_run mannerly decodes run spares
  have ordered : Undisturbed (last.ends side).world →
      (last.ends side).world.seen.wire <+: (last.ends side).world.seen.handed :=
    (sound.advancing side).imp (fun w start => start.1.ordered) fun _ w progress => progress.ordered
  obtain ⟨rest, ⟨received, msgs, peer, delivered, found⟩, exhausted⟩ := sound.follows side.other
  have arrived : last.arrived side = received ++ (last.ends side.other).world.net.peer := by
    rw [Side.other_other] at peer
    exact peer
  have unread : (first.ends side.other).world.con.input.contents = [] :=
    (started.fresh mannerly decodes side.other).1.input
  have stream : codec.Decodes received msgs rest := by
    have whole : codec.Decodes ((first.ends side.other).world.con.input.contents ++ received) msgs rest := found
    rwa [unread, List.nil_append] at whole
  refine ⟨msgs, delivered, ?_, fun drained => ?_⟩
  · have front : received <+: sent.flatMap codec.encode := calc
      received <+: last.arrived side := ⟨_, arrived.symm⟩
      _ <+: (last.ends side).world.seen.wire := List.take_prefix ..
      _ <+: (last.ends side).world.seen.handed := ordered undisturbed
      _ = sent.flatMap codec.encode := handed
    obtain ⟨more, whole⟩ := front
    obtain ⟨left, split, -⟩ := stream.of_frames carries.frames total whole
    exact ⟨left, split.symm⟩
  · obtain ⟨accepted, carried, read, readcb, running⟩ := drained
    have all : received = sent.flatMap codec.encode := by
      rw [← handed, ← accepted, ← List.append_nil received, ← read, ← arrived, Link.arrived, carried,
        List.take_length]
    exact (stream.all_found carries.frames total all (exhausted running readcb)).1

end Runs

end Link

/-- A client and a server that speak in lines. -/
def lineLink : Link fun _ => Unit where
  ends
    | .left => ⟨TcpConn.dialled observer (.new (some .msg) false false (some lineCodec) (-1)) 80 0
        { writes := [.accept 1, .eagain, .accept 9], reads := [], polls := [true], peer := [],
          laterPeers := [], nextFd := 7 } (), none⟩
    | .right => ⟨TcpConn.accepted observer (.new (some .msg) false false (some lineCodec) (-1))
        { writes := [], reads := [.data 0, .eagain, .data 9], polls := [true], peer := [],
          laterPeers := [], nextFd := 9 } (), none⟩
  carried _ := 0

/-- The client sends two lines, of which the socket first accepts a part only. -/
def twoLinesCross : List LinkEvent :=
  [.event .left .writable, .event .left (.call (.sendMsg [0x61])), .carry .left 2,
    .event .right .writable, .event .right .readable, .event .left (.call (.sendMsg [0x62])),
    .event .left .writable, .carry .left 4, .event .right .readable]

theorem messages_cross_link_twoLines :
    let last := twoLinesCross.foldl (Link.next fun _ => observer) lineLink
    last.Drained .left ∧ messages (last.ends .right).world.seen.events = [] ++ [[0x61], [0x62]] := by
  intro last
  have started : Link.Started (fun _ => observer) lineCodec lineLink := by
    refine ⟨?_, ?_, ?_, fun _ => rfl⟩
    · rintro (_ | _)
      · exact .inl (.connect 80 0 (TcpConn.newWorld_new (some .msg) false false (some lineCodec) (-1) _ ())
          rfl rfl (TcpConn.dialled_ran observer (some .msg) false false (some lineCodec) (-1) 0 _ ()
            (by decide)))
      · exact .inl (TcpConn.accepted_openedMsg observer false false lineCodec (-1) _ ())
    · rintro (_ | _) <;> rfl
    · rintro (_ | _) <;> decide +kernel
  have run : LabelledRun (Link.Step fun _ => observer) lineLink twoLinesCross last :=
    Link.run_next (by decide +kernel)
  have drained : last.Drained .left := by
    refine ⟨by decide +kernel, by decide +kernel, by decide +kernel, by decide +kernel, by decide +kernel⟩
  have carries : lineCodec.Carries [[0x61], [0x62]] := .inl ⟨rfl, by decide⟩
  have spares : ∀ side event, .event side event ∈ twoLinesCross → TcpConn.Spares event := by
    rintro side event member op rfl
    obtain ⟨-, rfl⟩ | ⟨-, rfl⟩ : side = .left ∧ op = .sendMsg [0x61] ∨
      side = .left ∧ op = .sendMsg [0x62] := by simpa [twoLinesCross] using member
    · rfl
    · rfl
  have undisturbed : (last.ends .left).world.seen.events.any ConnEvent.disturbs = false := by
    decide +kernel
  have handed : (last.ends .left).world.seen.handed = [[0x61], [0x62]].flatMap lineCodec.encode := by
    decide +kernel
  clear_value last
  obtain ⟨msgs, delivered, -, all⟩ := Link.messages_cross_link (fun _ => observer_mannerly) started
    run spares carries (by decide +kernel) undisturbed handed
  have crossed : messages (last.ends .right).world.seen.events =
      messages (lineLink.ends .right).world.seen.events ++ msgs := delivered
  have before : messages (lineLink.ends .right).world.seen.events = [] := by decide +kernel
  rw [before, all drained] at crossed
  exact ⟨drained, crossed⟩

end Handy
