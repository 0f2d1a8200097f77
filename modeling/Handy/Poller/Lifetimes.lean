import Handy.Poller.Registry
import Handy.Lib.LabelledRun

/-!
# The lifetimes of channels

Channels are constructed, enabled, closed and destroyed on one poller, in any order, and the poller
is destroyed at some time. `Channel::close` calls the channel's read callback, and so does the
destructor of a channel that is open: a callback may close and delete channels, its own among
them, so that calls of `close` are nested. The calls that are running their callback are kept on a
stack.

`channels_sound` says that the live channels are the open ones at any time, with their events
registered, that each descriptor is closed once, and that the loop of `~PollerEpoll` ends.
-/

set_option autoImplicit false

namespace Handy

/-! ## Runs -/

/-- Who calls `Channel::close`. -/
inductive Caller where
  | code
  /-- `~Channel`. -/
  | destructor
  /-- The loop of `~PollerEpoll`. -/
  | poller
  deriving DecidableEq, Repr

/-- A call of `Channel::close` that is running the read callback. -/
structure Closing where
  id : ℕ
  caller : Caller
  deriving DecidableEq, Repr

/-- The life of the poller: its destructor is running when so many calls of `close` were running
at its start, and an exception that leaves a destructor terminates the process. -/
inductive Phase where
  | alive
  | closing (depth : ℕ)
  | destroyed
  | terminated
  deriving DecidableEq, Repr

/-- The channels of a poller, and the calls of `close` that are running, innermost first. -/
structure Lifetimes extends Registry where
  running : List Closing
  phase : Phase

/-- What happens next. -/
inductive ChannelEvent where
  | construct (fd : ℤ) (events : BitVec 32)
  | enableRead (id : ℕ) (enable : Bool)
  | enableWrite (id : ℕ) (enable : Bool)
  | enableReadWrite (id : ℕ) (readable writable : Bool)
  | close (id : ℕ)
  /-- `delete` of a channel. -/
  | destroy (id : ℕ)
  /-- The poller waits for events, or is at another one of them. -/
  | polled (activeEvs : List (Option ℕ)) (lastActive : ℤ)
  /-- The read callback of the innermost `close` returns. -/
  | returns
  /-- An exception leaves it, as one does at once when there is no callback. -/
  | throws
  /-- The destructor of the poller begins. -/
  | destroyPoller
  /-- Its loop closes a channel. -/
  | closeNext (id : ℕ)
  /-- Its loop ends. -/
  | endPoller
  deriving DecidableEq, Repr

namespace Lifetimes

def init : Lifetimes where
  poller := .init
  channels := fun _ => none
  lastId := 0
  history := []
  running := []
  phase := .alive

/-- The destructor of the poller looks for a live channel. -/
def AtLoopHead (state : Lifetimes) : Prop := state.phase = .closing state.running.length

instance (state : Lifetimes) : Decidable state.AtLoopHead :=
  inferInstanceAs (Decidable (state.phase = _))

/-- Code outside of the destructor of the poller is running. -/
def CodeRuns (state : Lifetimes) : Prop := state.phase ≠ .terminated ∧ ¬state.AtLoopHead

instance (state : Lifetimes) : Decidable state.CodeRuns := inferInstanceAs (Decidable (_ ∧ _))

/-- What follows on a call of `close` that has returned. -/
def afterClose (state : Lifetimes) (closing : Closing) : Lifetimes :=
  if closing.caller = .destructor then
    { state with toRegistry := state.toRegistry.release closing.id }
  else state

/-- `Channel::close`, up to the call of the read callback if there is one. -/
def closeChannel (state : Lifetimes) (ch : ChannelObject) (caller : Caller) : Lifetimes :=
  if 0 ≤ ch.fd then
    { state with
      toRegistry := state.toRegistry.shut ch
      running := ⟨ch.id, caller⟩ :: state.running }
  else state.afterClose ⟨ch.id, caller⟩

/-- The functions that set the events of an open channel. -/
def enable (state : Lifetimes) (id : ℕ) (f : ChannelObject → ChannelObject) : Option Lifetimes := do
  let ch ← state.channels id
  if state.CodeRuns ∧ 0 ≤ ch.fd then
    let registry ← state.toRegistry.enable (f ch)
    return { state with toRegistry := registry }
  else none

/-- One event; `none` when it is not possible or fatal. -/
def perform (state : Lifetimes) : ChannelEvent → Option Lifetimes
  | .construct fd events => do
      if state.CodeRuns ∧ state.phase ≠ .destroyed then
        let registry ← state.toRegistry.construct fd events
        return { state with toRegistry := registry }
      else none
  | .enableRead id enable => state.enable id (.enableRead enable)
  | .enableWrite id enable => state.enable id (.enableWrite enable)
  | .enableReadWrite id readable writable =>
      state.enable id (.enableReadWrite readable writable)
  | .close id => do
      let ch ← state.channels id
      if state.CodeRuns then return state.closeChannel ch .code else none
  | .destroy id => do
      let ch ← state.channels id
      if state.CodeRuns ∧ ⟨id, .destructor⟩ ∉ state.running then
        return state.closeChannel ch .destructor
      else none
  | .polled activeEvs lastActive =>
      if state.phase = .alive then
        some { state with
          poller := { state.poller with activeEvs := activeEvs, lastActive := lastActive } }
      else none
  | .returns =>
      match state.running with
      | [] => none
      | closing :: rest =>
          if state.CodeRuns then some (afterClose { state with running := rest } closing) else none
  | .throws =>
      match state.running with
      | [] => none
      | closing :: rest =>
          if state.CodeRuns then
            if closing.caller = .code then some { state with running := rest }
            else some { state with phase := .terminated }
          else none
  | .destroyPoller =>
      if state.phase = .alive then some { state with phase := .closing state.running.length }
      else none
  | .closeNext id => do
      let ch ← state.channels id
      if state.AtLoopHead ∧ id ∈ state.poller.liveChannels then return state.closeChannel ch .poller
      else none
  | .endPoller =>
      if state.AtLoopHead ∧ state.poller.liveChannels = ∅ then some { state with phase := .destroyed }
      else none

end Lifetimes

/-! ## What holds of a run -/

/-- A constructor is called. -/
def ChannelEvent.constructs : ChannelEvent → Bool
  | .construct _ _ => true
  | _ => false

namespace Lifetimes

variable {state after : Lifetimes} {event : ChannelEvent} {ch : ChannelObject}

/-- What an event does to the calls that are running and to the life of the poller. -/
inductive Control (state after : Lifetimes) : Prop where
  | same (running : after.running = state.running) (phase : after.phase = state.phase)
  | called (id : ℕ) (caller : Caller) (running : after.running = ⟨id, caller⟩ :: state.running)
      (phase : after.phase = state.phase) (shut : after.toRegistry.Shut id)
  | returned (closing : Closing) (running : state.running = closing :: after.running)
      (phase : after.phase = state.phase) (inside : ¬state.AtLoopHead)
  | terminated (running : after.running = state.running) (phase : after.phase = .terminated)
  | began (running : after.running = state.running)
      (phase : after.phase = .closing state.running.length)
  | ended (running : after.running = state.running) (phase : after.phase = .destroyed)
      (empty : after.poller.liveChannels = ∅)

/-- The registry is sound, a channel whose destructor is running is closed, the destructor of the
poller is below the calls that it has made, and there is no live channel after it. -/
structure Sound (state : Lifetimes) : Prop where
  registry : state.toRegistry.Sound
  ledger : state.toRegistry.Ledger
  doomed : ∀ ⦃id⦄, ⟨id, .destructor⟩ ∈ state.running → state.toRegistry.Shut id
  depth : ∀ ⦃depth⦄, state.phase = .closing depth → depth ≤ state.running.length
  emptied : state.phase = .destroyed → state.poller.liveChannels = ∅

theorem init_sound : init.Sound where
  registry := by
    constructor
    · intro id ch impossible
      cases impossible
    · intro id
      constructor
      · intro member
        exact absurd member (Finset.notMem_empty id)
      · rintro ⟨ch, impossible, -⟩
        cases impossible
    · intro id ch impossible
      cases impossible
    · intro fd mask id impossible
      cases impossible
  ledger := by
    constructor
    · intro id fd member
      cases member
    · intro id fd member
      cases member
    · intro id ch impossible
      cases impossible
    · intro id fd member
      cases member
    · intro fd
      rfl
  doomed := fun _ member => by cases member
  depth := fun _ impossible => by cases impossible
  emptied := fun impossible => by cases impossible

/-- What is done is sound. -/
theorem Sound.step {constructs : Bool} (sound : state.Sound)
    (effect : Registry.Effect state.toRegistry constructs after.toRegistry)
    (control : Control state after)
    (alive : constructs = true → state.phase ≠ .destroyed) : after.Sound where
  registry := effect.sound sound.registry
  ledger := effect.ledger sound.registry sound.ledger
  doomed := by
    intro id member
    cases control with
    | same running | terminated running | began running | ended running =>
        rw [running] at member
        exact effect.shut_stays (sound.doomed member)
    | called other caller running phase shut =>
        rw [running] at member
        rcases List.mem_cons.mp member with new | earlier
        · cases new
          exact shut
        · exact effect.shut_stays (sound.doomed earlier)
    | returned closing running =>
        refine effect.shut_stays (sound.doomed ?_)
        rw [running]
        exact List.mem_cons_of_mem _ member
  depth := by
    intro depth closing
    cases control with
    | same running phase =>
        rw [running]
        exact sound.depth (phase.symm.trans closing)
    | called other caller running phase =>
        rw [running]
        exact (sound.depth (phase.symm.trans closing)).trans (Nat.le_succ _)
    | returned call running phase inside =>
        have before := phase.symm.trans closing
        have bound := sound.depth before
        have different : depth ≠ state.running.length := by
          rintro rfl
          exact inside before
        have length := congrArg List.length running
        rw [List.length_cons] at length
        omega
    | terminated running phase | ended running phase =>
        rw [phase] at closing
        cases closing
    | began running phase =>
        rw [phase] at closing
        cases closing
        exact running ▸ le_rfl
  emptied := by
    intro destroyed
    have kept : state.phase = .destroyed → after.poller.liveChannels = ∅ := by
      intro before
      cases constructs with
      | true => exact absurd before (alive rfl)
      | false => exact Finset.subset_empty.mp (sound.emptied before ▸ effect.live_subset)
    cases control with
    | same running phase => exact kept (phase.symm.trans destroyed)
    | called other caller running phase => exact kept (phase.symm.trans destroyed)
    | returned call running phase => exact kept (phase.symm.trans destroyed)
    | terminated running phase | began running phase =>
        rw [phase] at destroyed
        cases destroyed
    | ended running phase empty => exact empty

/-- What follows on a call of `close`. -/
theorem afterClose_does (state : Lifetimes) (closing : Closing)
    (shut : closing.caller = .destructor → state.toRegistry.Shut closing.id) :
    Registry.Effect state.toRegistry false (state.afterClose closing).toRegistry ∧
      (state.afterClose closing).running = state.running ∧
      (state.afterClose closing).phase = state.phase := by
  unfold afterClose
  split_ifs with destructor
  · exact ⟨.released closing.id (shut destructor).2, rfl, rfl⟩
  · exact ⟨.same, rfl, rfl⟩

/-- A call of `close`. -/
theorem closeChannel_does (there : state.channels ch.id = some ch)
    (known : ch.id ≤ state.lastId) (caller : Caller) :
    Registry.Effect state.toRegistry false (state.closeChannel ch caller).toRegistry ∧
      Control state (state.closeChannel ch caller) := by
  unfold closeChannel
  split_ifs with valid
  · refine ⟨.shut ch there valid, .called ch.id caller rfl rfl ⟨known, ?_⟩⟩
    intro other here
    rw [Registry.channels_shut, Function.update_self] at here
    cases here
    exact show (-1 : ℤ) < 0 by decide
  · have shut : state.toRegistry.Shut ch.id := by
      refine ⟨known, ?_⟩
      intro other here
      rw [there] at here
      cases here
      exact not_le.mp valid
    obtain ⟨effect, running, phase⟩ := state.afterClose_does ⟨ch.id, caller⟩ fun _ => shut
    exact ⟨effect, .same running phase⟩

/-- A function that sets the events of a channel. -/
theorem enable_does {id : ℕ} {f : ChannelObject → ChannelObject} (sound : state.Sound)
    (done : state.enable id f = some after) (same_id : ∀ ch, (f ch).id = ch.id)
    (same_fd : ∀ ch, (f ch).fd = ch.fd) :
    Registry.Effect state.toRegistry false after.toRegistry ∧ Control state after := by
  obtain ⟨ch, there, done⟩ := Option.bind_eq_some_iff.mp done
  split_ifs at done with possible
  obtain ⟨registry, enabled, same⟩ := Option.bind_eq_some_iff.mp done
  cases same
  have id_eq : (f ch).id = id := (same_id ch).trans (sound.registry.known there).1
  refine ⟨.enabled ch (f ch) (id_eq ▸ there) (same_fd ch) ?_ (Registry.enabled_of_enable enabled),
    .same rfl rfl⟩
  rw [same_fd]
  exact possible.2

/-- The events that call `close`. -/
theorem close_does {id : ℕ} {caller : Caller} {possible : Prop} [Decidable possible]
    (sound : state.Sound) (done : ((state.channels id).bind fun ch =>
      if possible then some (state.closeChannel ch caller) else none) = some after) :
    Registry.Effect state.toRegistry false after.toRegistry ∧ Control state after := by
  obtain ⟨ch, there, done⟩ := Option.bind_eq_some_iff.mp done
  split_ifs at done
  cases done
  obtain ⟨rfl, known⟩ := sound.registry.known there
  exact closeChannel_does there known caller

/-- **What an event does.** -/
theorem perform_does (sound : state.Sound) (done : state.perform event = some after) :
    Registry.Effect state.toRegistry event.constructs after.toRegistry ∧ Control state after := by
  cases event with
  | construct fd events =>
      simp only [perform] at done
      split_ifs at done
      obtain ⟨registry, constructed, same⟩ := Option.bind_eq_some_iff.mp done
      cases same
      obtain ⟨ch, step⟩ := Registry.constructed_of_construct constructed
      exact ⟨.constructed ch step, .same rfl rfl⟩
  | enableRead id enable => exact enable_does sound done (fun _ => rfl) fun _ => rfl
  | enableWrite id enable => exact enable_does sound done (fun _ => rfl) fun _ => rfl
  | enableReadWrite id readable writable =>
      exact enable_does sound done (fun _ => rfl) fun _ => rfl
  | close id => exact close_does sound done
  | destroy id => exact close_does sound done
  | polled activeEvs lastActive =>
      simp only [perform] at done
      split_ifs at done
      cases done
      exact ⟨.polled activeEvs lastActive, .same rfl rfl⟩
  | returns =>
      simp only [perform] at done
      split at done
      case h_1 => cases done
      case h_2 closing rest running =>
        split_ifs at done with runs
        cases done
        have shut : closing.caller = .destructor → state.toRegistry.Shut closing.id := by
          intro destructor
          refine sound.doomed ?_
          rw [running, ← destructor]
          exact List.mem_cons_self
        obtain ⟨effect, same, phase⟩ :=
          afterClose_does { state with running := rest } closing shut
        refine ⟨effect, .returned closing ?_ phase runs.2⟩
        rw [same, running]
  | throws =>
      simp only [perform] at done
      split at done
      case h_1 => cases done
      case h_2 closing rest running =>
        split_ifs at done with runs code
        · cases done
          exact ⟨.same, .returned closing running rfl runs.2⟩
        · cases done
          exact ⟨.same, .terminated rfl rfl⟩
  | destroyPoller =>
      simp only [perform] at done
      split_ifs at done
      cases done
      exact ⟨.same, .began rfl rfl⟩
  | closeNext id => exact close_does sound done
  | endPoller =>
      simp only [perform] at done
      split_ifs at done with possible
      cases done
      exact ⟨.same, .ended rfl rfl possible.2⟩

/-- A constructor is called by code outside of the destructor of the poller, and before its end. -/
theorem runs_of_constructs (done : state.perform event = some after)
    (constructs : event.constructs = true) : state.CodeRuns ∧ state.phase ≠ .destroyed := by
  cases event with
  | construct fd events =>
      simp only [perform] at done
      split_ifs at done with possible
      exact possible
  | _ => cases constructs

/-! ## Every run -/

def Step (before : Lifetimes) (event : ChannelEvent) (after : Lifetimes) : Prop :=
  before.perform event = some after

/-- A step in which no callback of `close` constructs a channel. -/
def QuietStep (before : Lifetimes) (event : ChannelEvent) (after : Lifetimes) : Prop :=
  before.perform event = some after ∧ (event.constructs = true → before.running = [])

theorem Sound.perform (sound : state.Sound) (done : state.perform event = some after) :
    after.Sound := by
  obtain ⟨effect, control⟩ := perform_does sound done
  exact sound.step effect control fun constructs => (runs_of_constructs done constructs).2

/-- **Every state of every run is sound**, whatever callbacks do. -/
theorem run_sound {events : List ChannelEvent} (run : LabelledRun Step init events state) :
    state.Sound :=
  run.invariant Sound (fun _ _ _ before done => before.perform done) init_sound

/-- An open channel can be updated. -/
theorem Sound.updateChannel (sound : state.Sound) {id : ℕ} {other : ChannelObject}
    (there : state.channels id = some ch) (valid : 0 ≤ ch.fd) (same_fd : other.fd = ch.fd) :
    ∃ poller, state.poller.updateChannel other = some poller := by
  refine ⟨_, if_pos ?_⟩
  rw [same_fd, sound.registry.registered there valid, Option.isSome_some]

/-- The loop of `~PollerEpoll` closes a live channel. -/
theorem Sound.closeNext (sound : state.Sound) (head : state.AtLoopHead) {id : ℕ}
    (live : id ∈ state.poller.liveChannels) :
    ∃ after, state.perform (.closeNext id) = some after ∧
      after.poller.liveChannels = state.poller.liveChannels.erase id := by
  obtain ⟨ch, there, valid⟩ := (sound.registry.live_iff id).mp live
  refine ⟨state.closeChannel ch .poller, ?_, ?_⟩
  · rw [Lifetimes.perform, there, Option.bind_eq_bind, Option.bind_some, if_pos ⟨head, live⟩]
    rfl
  · rw [closeChannel, if_pos valid, Registry.live_shut, (sound.registry.known there).1]

/-- The iterations of the loop of `~PollerEpoll`. -/
def closesNext : ChannelEvent → Bool
  | .closeNext _ => true
  | _ => false

/-- While the poller is being destroyed and afterwards, no channel is constructed. -/
theorem Sound.not_constructs (sound : state.Sound) (ending : state.phase ≠ .alive)
    (step : QuietStep state event after) : event.constructs = false := by
  by_contra constructs
  rw [Bool.not_eq_false] at constructs
  obtain ⟨⟨running, inside⟩, undestroyed⟩ := runs_of_constructs step.1 constructs
  have nothing := step.2 constructs
  cases phase : state.phase with
  | alive => exact ending phase
  | closing depth =>
      have bound := sound.depth phase
      rw [nothing] at bound
      have head : state.AtLoopHead := by
        rw [AtLoopHead, phase, nothing, Nat.le_zero.mp bound]
        rfl
      exact inside head
  | destroyed => exact undestroyed phase
  | terminated => exact running phase

/-- Once the destructor of the poller has begun, each of its iterations leaves one live channel
less, and nothing leaves more. -/
theorem Sound.card_le (sound : state.Sound) (ending : state.phase ≠ .alive)
    (step : QuietStep state event after) :
    (if closesNext event then 1 else 0) + after.poller.liveChannels.card ≤
      state.poller.liveChannels.card := by
  have quiet := sound.not_constructs ending step
  obtain ⟨effect, -⟩ := perform_does sound step.1
  rw [quiet] at effect
  by_cases next : ∃ id, event = .closeNext id
  · obtain ⟨id, rfl⟩ := next
    obtain ⟨ch, there, done⟩ := Option.bind_eq_some_iff.mp step.1
    split_ifs at done with possible
    obtain ⟨after', again, erased⟩ := sound.closeNext possible.1 possible.2
    obtain rfl : after' = after := Option.some.inj (again.symm.trans step.1)
    have smaller := Finset.card_erase_lt_of_mem possible.2
    rw [erased]
    simp only [closesNext, if_true]
    omega
  · have other : closesNext event = false := by
      cases event with
      | closeNext id => exact absurd ⟨id, rfl⟩ next
      | _ => rfl
    rw [other]
    simpa using Finset.card_le_card effect.live_subset

theorem ending_stays (sound : state.Sound) (ending : state.phase ≠ .alive)
    (done : state.perform event = some after) : after.phase ≠ .alive := by
  obtain ⟨-, control⟩ := perform_does sound done
  cases control with
  | same _ phase | called _ _ _ phase | returned _ _ phase => exact phase ▸ ending
  | terminated _ phase | began _ phase | ended _ phase => simp [phase]

/-- **The loop of `~PollerEpoll` closes no more channels than there are.** -/
theorem Sound.count_closesNext {events : List ChannelEvent} (sound : state.Sound)
    (ending : state.phase ≠ .alive) (run : LabelledRun QuietStep state events after) :
    events.countP closesNext + after.poller.liveChannels.card ≤
      state.poller.liveChannels.card := by
  induction run with
  | refl => simp
  | cons head tail ih =>
      have first := sound.card_le ending head
      have rest := ih (sound.perform head.1) (ending_stays sound ending head.1)
      rw [List.countP_cons]
      omega

/-- **Channels and their poller**: in every state that constructions, enablings, closes and
destructions lead to, with callbacks that do any of these, the live channels are exactly the open
ones, each of them is registered with its events and can be updated, each channel has closed its
descriptor once if it is not live and not at all if it is, and no descriptor is closed more often
than it was opened. The loop of `~PollerEpoll` can go on from any live channel and closes it, and
ends only without one; as long as callbacks construct no channels, it closes no more channels than
there were when it began. -/
theorem channels_sound {events : List ChannelEvent} (run : LabelledRun Step init events state) :
    (∀ id, id ∈ state.poller.liveChannels ↔ ∃ ch, state.channels id = some ch ∧ 0 ≤ ch.fd) ∧
    (∀ id ch, state.channels id = some ch → 0 ≤ ch.fd →
      state.poller.interest.find? ch.fd = some (ch.mask, id) ∧
      ∀ other : ChannelObject, other.fd = ch.fd →
        ∃ poller, state.poller.updateChannel other = some poller) ∧
    (∀ id fd, .opened id fd ∈ state.history →
      state.history.count (.closed id fd) = if id ∈ state.poller.liveChannels then 0 else 1) ∧
    (∀ id fd, .closed id fd ∈ state.history → .opened id fd ∈ state.history) ∧
    (∀ fd, state.history.countP (FdEvent.opens fd) = state.history.countP (FdEvent.closes fd) +
      if (state.poller.interest.find? fd).isSome then 1 else 0) ∧
    (state.AtLoopHead →
      (∀ id ∈ state.poller.liveChannels, ∃ after, state.perform (.closeNext id) = some after ∧
        after.poller.liveChannels = state.poller.liveChannels.erase id) ∧
      ((∃ after, state.perform .endPoller = some after) ↔ state.poller.liveChannels = ∅)) ∧
    (state.phase = .destroyed → state.poller.liveChannels = ∅) ∧
    (state.phase ≠ .alive → ∀ (more : List ChannelEvent) (last : Lifetimes),
      LabelledRun QuietStep state more last →
        more.countP closesNext + last.poller.liveChannels.card ≤
          state.poller.liveChannels.card) := by
  have sound := run_sound run
  refine ⟨sound.registry.live_iff, ?_, sound.ledger.count_closed, sound.ledger.opened_of_closed,
    sound.ledger.balance, ?_, sound.emptied, fun ending _ _ => sound.count_closesNext ending⟩
  · intro id ch there valid
    exact ⟨sound.registry.registered there valid, fun _ => sound.updateChannel there valid⟩
  · intro head
    refine ⟨fun id live => sound.closeNext head live, ?_⟩
    constructor
    · rintro ⟨after, done⟩
      simp only [Lifetimes.perform] at done
      split_ifs at done with possible
      exact possible.2
    · intro nothing
      exact ⟨_, if_pos ⟨head, nothing⟩⟩

/-- Events, one after the other. -/
def run (state : Lifetimes) : List ChannelEvent → Option Lifetimes
  | [] => some state
  | event :: rest => (state.perform event).bind fun state => run state rest

theorem labelledRun_of_run {events : List ChannelEvent} (ran : state.run events = some after) :
    LabelledRun Step state events after := by
  induction events generalizing state with
  | nil =>
      cases ran
      exact .refl _
  | cons event rest ih =>
      obtain ⟨middle, done, others⟩ := Option.bind_eq_some_iff.mp ran
      exact .cons done (ih others)

/-- A channel is deleted, and its callback closes another one; their descriptors are used again,
and the destructor of the poller begins. -/
def nested : List ChannelEvent :=
  [.construct 3 1, .construct 5 1, .enableWrite 1 true, .destroy 1, .close 2, .returns, .returns,
    .construct 3 5, .construct 5 4, .destroyPoller]

theorem channels_sound_nested : ∃ state, init.run nested = some state ∧
    state.history.count (.closed 1 3) = 1 ∧ state.history.count (.closed 3 3) = 0 ∧
    ∃ after, state.perform (.closeNext 3) = some after ∧
      after.poller.liveChannels = state.poller.liveChannels.erase 3 := by
  have looked : (init.run nested).map (fun state => (state.history, state.poller.liveChannels,
      decide state.AtLoopHead)) = some ([.opened 4 5, .opened 3 3, .closed 2 5, .closed 1 3,
        .opened 2 5, .opened 1 3], {3, 4}, true) := by decide +kernel
  obtain ⟨state, ran, seen⟩ := Option.map_eq_some_iff.mp looked
  obtain ⟨history, live, head⟩ : state.history = _ ∧ state.poller.liveChannels = _ ∧
      decide state.AtLoopHead = true := by simpa only [Prod.mk.injEq] using seen
  obtain ⟨-, -, closed, -, -, loop, -⟩ := channels_sound (labelledRun_of_run ran)
  refine ⟨state, ran, ?_, ?_, ?_⟩
  · rw [closed 1 3 (by rw [history]; decide), live]
    decide
  · rw [closed 3 3 (by rw [history]; decide), live]
    decide
  · exact (loop (of_decide_eq_true head)).1 3 (by rw [live]; decide)

end Lifetimes

end Handy
