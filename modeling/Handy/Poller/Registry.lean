import Handy.Poller

/-!
# Channels and the registry of their poller

The channels that exist, with their descriptors and events, beside what the poller and `epoll` know
of them. There are four steps: a channel is constructed, the events of an open one are set, an open
one is closed, and the memory of one that is not open is released. They keep two invariants: the
live channels are the open ones, each of them registered with its events (`Registry.Sound`), and each
channel has closed its descriptor once or is live (`Registry.Ledger`).

Here the events of a channel are the mask that `epoll` sees; `PollerEpoll.Simulates` connects them
with the two events of `Poller`.
-/

set_option autoImplicit false

namespace Handy

/-! ## Channels -/

def kReadEvent : BitVec 16 := 0x001

def kWriteEvent : BitVec 16 := 0x004

/-- `events_ |= event` or `events_ &= ~event`. -/
def setEvent (events event : BitVec 16) (enable : Bool) : BitVec 16 :=
  if enable then events ||| event else events &&& ~~~event

/-- `Channel`; `events_` is a `short`. -/
structure ChannelObject where
  id : ℕ
  fd : ℤ
  events : BitVec 16
  deriving DecidableEq, Repr

namespace ChannelObject

/-- `ev.events = ch->events()`. -/
def mask (ch : ChannelObject) : BitVec 32 := ch.events.signExtend 32

def enableRead (enable : Bool) (ch : ChannelObject) : ChannelObject :=
  { ch with events := setEvent ch.events kReadEvent enable }

def enableWrite (enable : Bool) (ch : ChannelObject) : ChannelObject :=
  { ch with events := setEvent ch.events kWriteEvent enable }

def enableReadWrite (readable writable : Bool) (ch : ChannelObject) : ChannelObject :=
  { ch with events := setEvent (setEvent ch.events kReadEvent readable) kWriteEvent writable }

end ChannelObject

/-! ## The poller -/

/-- `PollerEpoll`; `interest` is the interest list of `epoll`, with the mask and the channel of each
descriptor. -/
structure PollerEpoll where
  liveChannels : Finset ℕ
  interest : OrderedMap ℤ (BitVec 32 × ℕ)
  activeEvs : List (Option ℕ)
  lastActive : ℤ

namespace PollerEpoll

def init : PollerEpoll := ⟨∅, .empty, [], -1⟩

/-- `addChannel`; `none` when the call of `epoll_ctl` fails. -/
def addChannel (poller : PollerEpoll) (ch : ChannelObject) : Option PollerEpoll :=
  if ch.fd < 0 ∨ (poller.interest.find? ch.fd).isSome then none
  else some { poller with
    interest := poller.interest.set ch.fd (ch.mask, ch.id)
    liveChannels := insert ch.id poller.liveChannels }

/-- `updateChannel`; `none` when the call of `epoll_ctl` fails. -/
def updateChannel (poller : PollerEpoll) (ch : ChannelObject) : Option PollerEpoll :=
  if (poller.interest.find? ch.fd).isSome then
    some { poller with interest := poller.interest.set ch.fd (ch.mask, ch.id) }
  else none

/-- `removeChannel`. -/
def removeChannel (poller : PollerEpoll) (ch : ChannelObject) : PollerEpoll :=
  { poller with
    liveChannels := poller.liveChannels.erase ch.id
    activeEvs := Poller.forget ch.id (poller.lastActive + 1).toNat poller.activeEvs }

/-- The system call `close`. -/
def closeFd (poller : PollerEpoll) (fd : ℤ) : PollerEpoll :=
  { poller with interest := poller.interest.erase fd }

end PollerEpoll

/-! ## The two events of `Poller` -/

/-- What a mask says about reading and writing. -/
def eventsOf (mask : BitVec 32) : Events := ⟨mask.getLsbD 0, mask.getLsbD 2⟩

namespace ChannelObject

/-- The channel with its two events. -/
def channel (ch : ChannelObject) : Channel := ⟨ch.id, ch.fd, eventsOf ch.mask⟩

theorem eventsOf_mask (ch : ChannelObject) :
    eventsOf ch.mask = ⟨ch.events.getLsbD 0, ch.events.getLsbD 2⟩ := by
  simp only [eventsOf, mask, BitVec.getLsbD_signExtend]
  rfl

theorem getLsbD_setEvent (events event : BitVec 16) (enable : Bool) {i : ℕ} (small : i < 16) :
    (setEvent events event enable).getLsbD i =
      if event.getLsbD i then enable else events.getLsbD i := by
  cases enable with
  | true =>
      rw [setEvent, if_pos rfl, BitVec.getLsbD_or]
      cases event.getLsbD i with
      | true => simp
      | false => simp
  | false =>
      rw [setEvent, if_neg Bool.false_ne_true, BitVec.getLsbD_and, BitVec.getLsbD_not]
      cases event.getLsbD i with
      | true => simp
      | false => simp [small]

theorem channel_enableRead (ch : ChannelObject) (enable : Bool) :
    (ch.enableRead enable).channel =
      { ch.channel with events := { ch.channel.events with read := enable } } := by
  simp only [channel, eventsOf_mask, enableRead, getLsbD_setEvent _ _ _ (show 0 < 16 by decide),
    getLsbD_setEvent _ _ _ (show 2 < 16 by decide)]
  rfl

theorem channel_enableWrite (ch : ChannelObject) (enable : Bool) :
    (ch.enableWrite enable).channel =
      { ch.channel with events := { ch.channel.events with write := enable } } := by
  simp only [channel, eventsOf_mask, enableWrite, getLsbD_setEvent _ _ _ (show 0 < 16 by decide),
    getLsbD_setEvent _ _ _ (show 2 < 16 by decide)]
  rfl

theorem channel_enableReadWrite (ch : ChannelObject) (readable writable : Bool) :
    (ch.enableReadWrite readable writable).channel =
      { ch.channel with events := ⟨readable, writable⟩ } := by
  simp only [channel, eventsOf_mask, enableReadWrite,
    getLsbD_setEvent _ _ _ (show 0 < 16 by decide), getLsbD_setEvent _ _ _ (show 2 < 16 by decide)]
  rfl

end ChannelObject

namespace PollerEpoll

/-- The poller is one that knows only the two events of each channel. -/
structure Simulates (epoll : PollerEpoll) (poller : Poller) : Prop where
  live : epoll.liveChannels = poller.liveChannels
  registered : ∀ fd, poller.registered.find? fd =
    (epoll.interest.find? fd).map fun entry => eventsOf entry.1
  activeEvs : epoll.activeEvs = poller.activeEvs
  lastActive : epoll.lastActive = poller.lastActive

namespace Simulates

variable {epoll : PollerEpoll} {poller : Poller}

theorem isSome_eq (simulates : Simulates epoll poller) (fd : ℤ) :
    (poller.registered.find? fd).isSome = (epoll.interest.find? fd).isSome := by
  rw [simulates.registered, Option.isSome_map]

theorem find?_set (simulates : Simulates epoll poller) (ch : ChannelObject) (fd : ℤ) :
    (poller.registered.set ch.fd ch.channel.events).find? fd =
      ((epoll.interest.set ch.fd (ch.mask, ch.id)).find? fd).map fun entry => eventsOf entry.1 := by
  rw [OrderedMap.find?_set, OrderedMap.find?_set]
  split_ifs
  · rfl
  · exact simulates.registered fd

/-- **The calls of the poller mean the same.** -/
theorem addChannel (simulates : Simulates epoll poller) (ch : ChannelObject) :
    Option.Rel Simulates (epoll.addChannel ch) (poller.addChannel ch.channel) := by
  have fd : ch.channel.fd = ch.fd := rfl
  unfold PollerEpoll.addChannel Poller.addChannel
  rw [fd, simulates.isSome_eq ch.fd]
  by_cases fails : ch.fd < 0 ∨ (epoll.interest.find? ch.fd).isSome = true
  · rw [if_pos fails, if_pos fails]
    exact .none
  · rw [if_neg fails, if_neg fails]
    refine .some ⟨?_, simulates.find?_set ch, simulates.activeEvs, simulates.lastActive⟩
    exact congrArg (insert ch.id) simulates.live

theorem updateChannel (simulates : Simulates epoll poller) (ch : ChannelObject) :
    Option.Rel Simulates (epoll.updateChannel ch) (poller.updateChannel ch.channel) := by
  have fd : ch.channel.fd = ch.fd := rfl
  unfold PollerEpoll.updateChannel Poller.updateChannel
  rw [fd, simulates.isSome_eq ch.fd]
  split_ifs
  · exact .some ⟨simulates.live, simulates.find?_set ch, simulates.activeEvs, simulates.lastActive⟩
  · exact .none

theorem removeChannel (simulates : Simulates epoll poller) (ch : ChannelObject) :
    Simulates (epoll.removeChannel ch) (poller.removeChannel ch.channel) where
  live := congrArg (fun live => live.erase ch.id) simulates.live
  registered := simulates.registered
  activeEvs := by
    show Poller.forget ch.id _ epoll.activeEvs = Poller.forget ch.id _ poller.activeEvs
    rw [simulates.activeEvs, simulates.lastActive]
  lastActive := simulates.lastActive

theorem closeFd (simulates : Simulates epoll poller) (fd : ℤ) :
    Simulates (epoll.closeFd fd) (poller.closeFd fd) where
  live := simulates.live
  registered := by
    intro other
    show (poller.registered.erase fd).find? other =
      ((epoll.interest.erase fd).find? other).map fun entry => eventsOf entry.1
    rw [OrderedMap.find?_erase, OrderedMap.find?_erase]
    split_ifs
    · rfl
    · exact simulates.registered other
  activeEvs := simulates.activeEvs
  lastActive := simulates.lastActive

end Simulates

end PollerEpoll

/-! ## Opening and closing -/

/-- What happens to the descriptors of channels. -/
inductive FdEvent where
  | opened (id : ℕ) (fd : ℤ)
  | closed (id : ℕ) (fd : ℤ)
  deriving DecidableEq, Repr

namespace FdEvent

/-- A channel was constructed on the descriptor. -/
def opens (fd : ℤ) : FdEvent → Bool
  | opened _ other => other = fd
  | closed _ _ => false

/-- The descriptor was closed. -/
def closes (fd : ℤ) : FdEvent → Bool
  | opened _ _ => false
  | closed _ other => other = fd

end FdEvent

/-- The poller, the channels that exist, the last id, and what happened to descriptors, newest
first. -/
structure Registry where
  poller : PollerEpoll
  channels : ℕ → Option ChannelObject
  lastId : ℕ
  history : List FdEvent

namespace Registry

/-- `Channel::Channel`; `none` when it is fatal. -/
def construct (registry : Registry) (fd : ℤ) (events : BitVec 32) : Option Registry := do
  let ch : ChannelObject := ⟨registry.lastId + 1, fd, events.setWidth 16⟩
  let poller ← registry.poller.addChannel ch
  return {
    poller := poller
    channels := Function.update registry.channels ch.id (some ch)
    lastId := registry.lastId + 1
    history := .opened ch.id fd :: registry.history }

/-- `enableRead`, `enableWrite` and `enableReadWrite` on a channel whose events they set; `none`
when it is fatal. -/
def enable (registry : Registry) (ch : ChannelObject) : Option Registry := do
  let poller ← registry.poller.updateChannel ch
  return { registry with
    poller := poller
    channels := Function.update registry.channels ch.id (some ch) }

/-- What `Channel::close` does to an open channel before it calls `handleRead`. -/
def shut (registry : Registry) (ch : ChannelObject) : Registry where
  poller := (registry.poller.removeChannel ch).closeFd ch.fd
  channels := Function.update registry.channels ch.id (some { ch with fd := -1 })
  lastId := registry.lastId
  history := .closed ch.id ch.fd :: registry.history

/-- The memory of a channel is released. -/
def release (registry : Registry) (id : ℕ) : Registry :=
  { registry with channels := Function.update registry.channels id none }

@[simp] theorem live_shut (registry : Registry) (ch : ChannelObject) :
    (registry.shut ch).poller.liveChannels = registry.poller.liveChannels.erase ch.id := rfl

@[simp] theorem interest_shut (registry : Registry) (ch : ChannelObject) :
    (registry.shut ch).poller.interest = registry.poller.interest.erase ch.fd := rfl

@[simp] theorem channels_shut (registry : Registry) (ch : ChannelObject) :
    (registry.shut ch).channels =
      Function.update registry.channels ch.id (some { ch with fd := -1 }) := rfl

@[simp] theorem history_shut (registry : Registry) (ch : ChannelObject) :
    (registry.shut ch).history = .closed ch.id ch.fd :: registry.history := rfl

@[simp] theorem channels_release (registry : Registry) (id : ℕ) :
    (registry.release id).channels = Function.update registry.channels id none := rfl

end Registry

/-! ## What holds of the registry -/

namespace Registry

variable {registry after : Registry} {ch : ChannelObject} {id : ℕ} {fd : ℤ}

/-- The live channels are the open ones, each of them is registered with its events, and nothing
else is. -/
structure Sound (registry : Registry) : Prop where
  known : ∀ ⦃id ch⦄, registry.channels id = some ch → ch.id = id ∧ id ≤ registry.lastId
  live_iff : ∀ id, id ∈ registry.poller.liveChannels ↔
    ∃ ch, registry.channels id = some ch ∧ 0 ≤ ch.fd
  registered : ∀ ⦃id ch⦄, registry.channels id = some ch → 0 ≤ ch.fd →
    registry.poller.interest.find? ch.fd = some (ch.mask, id)
  owner : ∀ ⦃fd mask id⦄, registry.poller.interest.find? fd = some (mask, id) →
    ∃ ch, registry.channels id = some ch ∧ ch.fd = fd ∧ 0 ≤ fd

/-- Every channel closes its descriptor once, when it stops to be live, and every descriptor is
closed as often as it was opened, or once less. -/
structure Ledger (registry : Registry) : Prop where
  le_lastId : ∀ ⦃id fd⦄, .opened id fd ∈ registry.history → id ≤ registry.lastId
  opened_of_closed : ∀ ⦃id fd⦄, .closed id fd ∈ registry.history → .opened id fd ∈ registry.history
  opened_iff : ∀ ⦃id ch⦄, registry.channels id = some ch → 0 ≤ ch.fd →
    ∀ fd, .opened id fd ∈ registry.history ↔ fd = ch.fd
  count_closed : ∀ ⦃id fd⦄, .opened id fd ∈ registry.history →
    registry.history.count (.closed id fd) = if id ∈ registry.poller.liveChannels then 0 else 1
  balance : ∀ fd, registry.history.countP (FdEvent.opens fd) =
    registry.history.countP (FdEvent.closes fd) +
      if (registry.poller.interest.find? fd).isSome then 1 else 0

/-! ### The steps -/

/-- What a constructor does: it needs a descriptor that no channel has. -/
structure Constructed (registry : Registry) (ch : ChannelObject) (after : Registry) : Prop where
  id : ch.id = registry.lastId + 1
  valid : 0 ≤ ch.fd
  free : registry.poller.interest.find? ch.fd = none
  live : after.poller.liveChannels = insert ch.id registry.poller.liveChannels
  interest : after.poller.interest = registry.poller.interest.set ch.fd (ch.mask, ch.id)
  channels : after.channels = Function.update registry.channels ch.id (some ch)
  lastId : after.lastId = registry.lastId + 1
  history : after.history = .opened ch.id ch.fd :: registry.history

theorem constructed_of_construct {events : BitVec 32}
    (done : registry.construct fd events = some after) : ∃ ch, Constructed registry ch after := by
  obtain ⟨poller, added, same⟩ := Option.bind_eq_some_iff.mp done
  unfold PollerEpoll.addChannel at added
  split_ifs at added with fails
  cases added
  cases same
  rw [not_or, not_lt, Option.not_isSome_iff_eq_none] at fails
  exact ⟨_, rfl, fails.1, fails.2, rfl, rfl, rfl, rfl, rfl⟩

/-- What setting the events of a channel does. -/
structure Enabled (registry : Registry) (ch : ChannelObject) (after : Registry) : Prop where
  live : after.poller.liveChannels = registry.poller.liveChannels
  interest : after.poller.interest = registry.poller.interest.set ch.fd (ch.mask, ch.id)
  channels : after.channels = Function.update registry.channels ch.id (some ch)
  lastId : after.lastId = registry.lastId
  history : after.history = registry.history

theorem enabled_of_enable (done : registry.enable ch = some after) : Enabled registry ch after := by
  obtain ⟨poller, updated, same⟩ := Option.bind_eq_some_iff.mp done
  unfold PollerEpoll.updateChannel at updated
  split_ifs at updated
  cases updated
  cases same
  exact ⟨rfl, rfl, rfl, rfl, rfl⟩

/-- What an event does to the registry; it constructs a channel or not. -/
inductive Effect (registry : Registry) : Bool → Registry → Prop where
  | same : Effect registry false registry
  | polled (activeEvs : List (Option ℕ)) (lastActive : ℤ) : Effect registry false
      { registry with
        poller := { registry.poller with activeEvs := activeEvs, lastActive := lastActive } }
  | constructed (ch : ChannelObject) {after : Registry} (step : Constructed registry ch after) :
      Effect registry true after
  | enabled (old ch : ChannelObject) {after : Registry}
      (there : registry.channels ch.id = some old) (same_fd : ch.fd = old.fd) (valid : 0 ≤ ch.fd)
      (step : Enabled registry ch after) : Effect registry false after
  | shut (ch : ChannelObject) (there : registry.channels ch.id = some ch) (valid : 0 ≤ ch.fd) :
      Effect registry false (registry.shut ch)
  | released (id : ℕ) (closed : ∀ ch, registry.channels id = some ch → ch.fd < 0) :
      Effect registry false (registry.release id)

namespace Sound

theorem none_of_lt (sound : registry.Sound) (new : registry.lastId < id) :
    registry.channels id = none := by
  by_contra there
  obtain ⟨ch, here⟩ := Option.ne_none_iff_exists'.mp there
  exact absurd (sound.known here).2 (not_le.mpr new)

/-- No two open channels have the same descriptor. -/
theorem id_unique (sound : registry.Sound) {other : ChannelObject} {id' : ℕ}
    (first : registry.channels id = some ch) (second : registry.channels id' = some other)
    (valid : 0 ≤ ch.fd) (same : ch.fd = other.fd) : id = id' := by
  have here := sound.registered first valid
  have there := sound.registered second (same ▸ valid)
  rw [same, there] at here
  exact (Prod.mk.inj (Option.some.inj here)).2.symm

/-- One channel is replaced, with the entry of its descriptor: `fd` is the descriptor that it has
or had, and no other open channel has it. -/
structure Replaced (registry : Registry) (id : ℕ) (fd : ℤ) (given : Option ChannelObject)
    (after : Registry) : Prop where
  channels : after.channels = Function.update registry.channels id given
  lastId : registry.lastId ≤ after.lastId
  known : ∀ ⦃ch⦄, given = some ch → ch.id = id ∧ id ≤ after.lastId
  live : ∀ ⦃other⦄, other ≠ id →
    (other ∈ after.poller.liveChannels ↔ other ∈ registry.poller.liveChannels)
  live_self : id ∈ after.poller.liveChannels ↔ ∃ ch, given = some ch ∧ 0 ≤ ch.fd
  interest : ∀ ⦃other⦄, other ≠ fd →
    after.poller.interest.find? other = registry.poller.interest.find? other
  registered : ∀ ⦃ch⦄, given = some ch → 0 ≤ ch.fd →
    after.poller.interest.find? ch.fd = some (ch.mask, id)
  owner : ∀ ⦃mask other⦄, after.poller.interest.find? fd = some (mask, other) →
    other = id ∧ ∃ ch, given = some ch ∧ ch.fd = fd ∧ 0 ≤ fd
  had : ∀ ⦃other ch⦄, registry.channels other = some ch → 0 ≤ ch.fd → (ch.fd = fd ↔ other = id)

/-- Replacing a channel with its entry keeps the registry sound. -/
theorem replaced (sound : registry.Sound) {given : Option ChannelObject}
    (step : Replaced registry id fd given after) : after.Sound where
  known := by
    intro id' ch' here
    rw [step.channels, Function.update_apply] at here
    split_ifs at here with same
    · exact same ▸ step.known here
    · exact ⟨(sound.known here).1, (sound.known here).2.trans step.lastId⟩
  live_iff := by
    intro id'
    rw [step.channels, Function.update_apply]
    split_ifs with same
    · exact same ▸ step.live_self
    · rw [step.live same, sound.live_iff]
  registered := by
    intro id' ch' here isOpen
    rw [step.channels, Function.update_apply] at here
    split_ifs at here with same
    · exact same ▸ step.registered here isOpen
    · have different : ch'.fd ≠ fd := fun equal => same ((step.had here isOpen).mp equal)
      rw [step.interest different, sound.registered here isOpen]
  owner := by
    intro fd' mask id' found
    by_cases same : fd' = fd
    · subst same
      obtain ⟨rfl, ch', here, owns⟩ := step.owner found
      exact ⟨ch', by rw [step.channels, Function.update_self, here], owns⟩
    · rw [step.interest same] at found
      obtain ⟨ch', here, owns, isOpen⟩ := sound.owner found
      have different : id' ≠ id := by
        intro equal
        exact same (owns.symm.trans ((step.had here (owns.symm ▸ isOpen)).mpr equal))
      exact ⟨ch', by rw [step.channels, Function.update_of_ne different, here], owns, isOpen⟩

/-- Another channel has another descriptor than an open one. -/
theorem fd_eq_iff (sound : registry.Sound) (there : registry.channels id = some ch)
    (valid : 0 ≤ ch.fd) ⦃other : ℕ⦄ ⦃ch' : ChannelObject⦄
    (here : registry.channels other = some ch') (_isOpen : 0 ≤ ch'.fd) :
    ch'.fd = ch.fd ↔ other = id := by
  constructor
  · intro equal
    exact (sound.id_unique there here valid equal.symm).symm
  · rintro rfl
    rw [there] at here
    cases here
    rfl

/-- An open channel is entered with its events, as a new one or in the place of one with the same
descriptor. -/
theorem put (sound : registry.Sound) (valid : 0 ≤ ch.fd)
    (live : after.poller.liveChannels = insert ch.id registry.poller.liveChannels)
    (interest : after.poller.interest = registry.poller.interest.set ch.fd (ch.mask, ch.id))
    (channels : after.channels = Function.update registry.channels ch.id (some ch))
    (lastId : registry.lastId ≤ after.lastId) (known : ch.id ≤ after.lastId)
    (had : ∀ ⦃other ch'⦄, registry.channels other = some ch' → 0 ≤ ch'.fd →
      (ch'.fd = ch.fd ↔ other = ch.id)) : after.Sound := by
  have step : Replaced registry ch.id ch.fd (some ch) after := by
    refine ⟨channels, lastId, ?_, ?_, ?_, ?_, ?_, ?_, had⟩
    · intro other same
      cases same
      exact ⟨rfl, known⟩
    · intro other different
      rw [live, Finset.mem_insert, or_iff_right different]
    · rw [live]
      simp [valid]
    · intro other different
      rw [interest, OrderedMap.find?_set, if_neg different.symm]
    · intro other same _
      cases same
      rw [interest, OrderedMap.find?_set, if_pos rfl]
    · intro mask other found
      rw [interest, OrderedMap.find?_set, if_pos rfl] at found
      cases found
      exact ⟨rfl, ch, rfl, rfl, valid⟩
  exact sound.replaced step

theorem constructed (sound : registry.Sound) (step : Constructed registry ch after) :
    after.Sound := by
  have new : registry.channels ch.id = none := sound.none_of_lt (by rw [step.id]; omega)
  refine sound.put step.valid step.live step.interest step.channels ?_ ?_ ?_
  · rw [step.lastId]
    exact Nat.le_succ _
  · rw [step.lastId, step.id]
  · intro other ch' here isOpen
    constructor
    · intro equal
      have kept := sound.registered here isOpen
      rw [equal, step.free] at kept
      cases kept
    · rintro rfl
      rw [new] at here
      cases here

theorem enabled {old : ChannelObject} (sound : registry.Sound)
    (there : registry.channels ch.id = some old) (same_fd : ch.fd = old.fd) (valid : 0 ≤ ch.fd)
    (step : Enabled registry ch after) : after.Sound := by
  have isLive : ch.id ∈ registry.poller.liveChannels :=
    (sound.live_iff _).mpr ⟨old, there, same_fd ▸ valid⟩
  refine sound.put valid ?_ step.interest step.channels step.lastId.ge ?_ ?_
  · rw [step.live, Finset.insert_eq_of_mem isLive]
  · rw [step.lastId]
    exact (sound.known there).2
  · intro other ch' here isOpen
    rw [same_fd]
    exact sound.fd_eq_iff there (same_fd ▸ valid) here isOpen

theorem shut (sound : registry.Sound) (there : registry.channels ch.id = some ch)
    (valid : 0 ≤ ch.fd) : (registry.shut ch).Sound := by
  have closed : ¬(0 : ℤ) ≤ -1 := by decide
  have step : Replaced registry ch.id ch.fd (some { ch with fd := -1 }) (registry.shut ch) := by
    refine ⟨rfl, le_rfl, ?_, ?_, ?_, ?_, ?_, ?_, sound.fd_eq_iff there valid⟩
    · intro other same
      cases same
      exact ⟨rfl, (sound.known there).2⟩
    · intro other different
      rw [live_shut, Finset.mem_erase, and_iff_right different]
    · simp
    · intro other different
      rw [interest_shut, OrderedMap.find?_erase, if_neg different.symm]
    · intro other same impossible
      cases same
      exact absurd impossible closed
    · intro mask other found
      rw [interest_shut, OrderedMap.find?_erase, if_pos rfl] at found
      cases found
  exact sound.replaced step

theorem released (sound : registry.Sound)
    (closed : ∀ ch, registry.channels id = some ch → ch.fd < 0) : (registry.release id).Sound := by
  have notLive : id ∉ registry.poller.liveChannels := by
    rw [sound.live_iff]
    rintro ⟨ch, there, isOpen⟩
    exact absurd (closed ch there) (not_lt.mpr isOpen)
  -- No descriptor is concerned, for which any number that is none will do.
  have step : Replaced registry id (-1) none (registry.release id) := by
    refine ⟨rfl, le_rfl, ?_, fun _ _ => Iff.rfl, ?_, fun _ _ => rfl, ?_, ?_, ?_⟩
    · intro ch impossible
      cases impossible
    · show id ∈ registry.poller.liveChannels ↔ _
      simpa using notLive
    · intro ch impossible
      cases impossible
    · intro mask other found
      obtain ⟨ch, -, -, isOpen⟩ := sound.owner found
      exact absurd isOpen (by decide)
    · intro other ch here isOpen
      constructor
      · intro equal
        rw [equal] at isOpen
        exact absurd isOpen (by decide)
      · rintro rfl
        exact absurd (closed ch here) (not_lt.mpr isOpen)
  exact sound.replaced step

end Sound

namespace Ledger

theorem constructed (ledger : registry.Ledger) (step : Constructed registry ch after) :
    after.Ledger := by
  have new : ∀ {fd}, .opened ch.id fd ∉ registry.history := by
    intro fd member
    have bound := ledger.le_lastId member
    rw [step.id] at bound
    omega
  have opened : ∀ {id fd}, .opened id fd ∈ after.history ↔
      id = ch.id ∧ fd = ch.fd ∨ .opened id fd ∈ registry.history := by
    intro id fd
    rw [step.history, List.mem_cons, FdEvent.opened.injEq]
  have closed : ∀ {id fd}, .closed id fd ∈ after.history ↔ .closed id fd ∈ registry.history := by
    intro id fd
    simp [step.history]
  constructor
  · intro id fd member
    rw [step.lastId]
    rcases opened.mp member with ⟨rfl, rfl⟩ | earlier
    · exact step.id.le
    · exact (ledger.le_lastId earlier).trans (Nat.le_succ _)
  · intro id fd member
    exact opened.mpr (.inr (ledger.opened_of_closed (closed.mp member)))
  · intro id ch' here isOpen fd
    rw [step.channels, Function.update_apply] at here
    rw [opened]
    split_ifs at here with same
    · cases here
      subst same
      simp [new]
    · simp [same, ledger.opened_iff here isOpen]
  · intro id fd member
    rw [step.history, List.count_cons_of_ne (by simp), step.live]
    rcases opened.mp member with ⟨rfl, rfl⟩ | earlier
    · rw [if_pos (Finset.mem_insert_self _ _), List.count_eq_zero]
      intro closed
      exact new (ledger.opened_of_closed closed)
    · have different : id ≠ ch.id := by
        rintro rfl
        exact new earlier
      rw [ledger.count_closed earlier]
      simp [different]
  · intro fd
    have before := ledger.balance fd
    rw [step.history, step.interest, OrderedMap.find?_set, List.countP_cons, List.countP_cons]
    by_cases same : ch.fd = fd
    · subst same
      rw [step.free] at before
      simp only [FdEvent.opens, FdEvent.closes] at before ⊢
      simpa using before
    · simpa [FdEvent.opens, FdEvent.closes, same] using before

theorem enabled {old : ChannelObject} (ledger : registry.Ledger) (sound : registry.Sound)
    (there : registry.channels ch.id = some old) (same_fd : ch.fd = old.fd) (valid : 0 ≤ ch.fd)
    (step : Enabled registry ch after) : after.Ledger := by
  constructor
  · intro id fd member
    rw [step.history] at member
    rw [step.lastId]
    exact ledger.le_lastId member
  · intro id fd member
    rw [step.history] at member ⊢
    exact ledger.opened_of_closed member
  · intro id ch' here isOpen fd
    rw [step.channels, Function.update_apply] at here
    rw [step.history]
    split_ifs at here with same
    · cases here
      subst same
      rw [same_fd]
      exact ledger.opened_iff there (same_fd ▸ valid) fd
    · exact ledger.opened_iff here isOpen fd
  · intro id fd member
    rw [step.history] at member ⊢
    rw [step.live]
    exact ledger.count_closed member
  · intro fd
    have before := ledger.balance fd
    rw [step.history, step.interest, OrderedMap.find?_set]
    by_cases same : ch.fd = fd
    · have registered := sound.registered there (same_fd ▸ valid)
      rw [← same_fd, same] at registered
      simpa [registered, same] using before
    · rwa [if_neg same]

theorem shut (ledger : registry.Ledger) (sound : registry.Sound)
    (there : registry.channels ch.id = some ch) (valid : 0 ≤ ch.fd) :
    (registry.shut ch).Ledger := by
  have isLive : ch.id ∈ registry.poller.liveChannels := (sound.live_iff _).mpr ⟨ch, there, valid⟩
  have opened : ∀ {id fd}, .opened id fd ∈ (registry.shut ch).history ↔
      .opened id fd ∈ registry.history := by
    intro id fd
    simp
  constructor
  · intro id fd member
    exact ledger.le_lastId (opened.mp member)
  · intro id fd member
    rw [opened]
    rw [history_shut, List.mem_cons, FdEvent.closed.injEq] at member
    rcases member with ⟨rfl, rfl⟩ | earlier
    · exact (ledger.opened_iff there valid ch.fd).mpr rfl
    · exact ledger.opened_of_closed earlier
  · intro id ch' here isOpen fd
    rw [channels_shut, Function.update_apply] at here
    rw [opened]
    split_ifs at here with same
    · cases here
      cases isOpen
    · exact ledger.opened_iff here isOpen fd
  · intro id fd member
    have earlier := opened.mp member
    have before := ledger.count_closed earlier
    rw [history_shut, live_shut]
    by_cases same : id = ch.id
    · subst same
      obtain rfl : fd = ch.fd := (ledger.opened_iff there valid fd).mp earlier
      rw [if_pos isLive] at before
      rw [List.count_cons_self, before, if_neg (Finset.notMem_erase _ _)]
    · have different : FdEvent.closed ch.id ch.fd ≠ .closed id fd := by
        intro equal
        cases equal
        exact same rfl
      rw [List.count_cons_of_ne different, before]
      simp [same]
  · intro fd
    have before := ledger.balance fd
    rw [history_shut, interest_shut, OrderedMap.find?_erase, List.countP_cons, List.countP_cons]
    by_cases same : ch.fd = fd
    · subst same
      rw [sound.registered there valid] at before
      simpa [FdEvent.opens, FdEvent.closes] using before
    · simpa [FdEvent.opens, FdEvent.closes, same] using before

theorem released (ledger : registry.Ledger) : (registry.release id).Ledger where
  le_lastId := ledger.le_lastId
  opened_of_closed := ledger.opened_of_closed
  opened_iff := by
    intro id' ch here
    rw [channels_release, Function.update_apply] at here
    split_ifs at here
    exact ledger.opened_iff here
  count_closed := ledger.count_closed
  balance := ledger.balance

end Ledger

namespace Effect

variable {constructs : Bool}

theorem sound (effect : Effect registry constructs after) (before : registry.Sound) :
    after.Sound := by
  cases effect with
  | same => exact before
  | polled activeEvs lastActive =>
      exact ⟨before.known, before.live_iff, before.registered, before.owner⟩
  | constructed ch step => exact before.constructed step
  | enabled old ch there same_fd valid step => exact before.enabled there same_fd valid step
  | shut ch there valid => exact before.shut there valid
  | released id closed => exact before.released closed

theorem ledger (effect : Effect registry constructs after) (sound : registry.Sound)
    (before : registry.Ledger) : after.Ledger := by
  cases effect with
  | same => exact before
  | polled activeEvs lastActive =>
      exact ⟨before.le_lastId, before.opened_of_closed, before.opened_iff, before.count_closed,
        before.balance⟩
  | constructed ch step => exact before.constructed step
  | enabled old ch there same_fd valid step => exact before.enabled sound there same_fd valid step
  | shut ch there valid => exact before.shut sound there valid
  | released id closed => exact before.released

theorem lastId_le (effect : Effect registry constructs after) : registry.lastId ≤ after.lastId := by
  cases effect with
  | same | polled | shut | released => exact le_rfl
  | constructed ch step => exact step.lastId ▸ Nat.le_succ _
  | enabled old ch there same_fd valid step => exact step.lastId.ge

/-- What is constructed aside, no channel becomes live. -/
theorem live_subset (effect : Effect registry false after) :
    after.poller.liveChannels ⊆ registry.poller.liveChannels := by
  cases effect with
  | same | polled | released => exact Finset.Subset.refl _
  | enabled old ch there same_fd valid step => exact step.live.subset
  | shut => exact Finset.erase_subset ..

end Effect

/-- A channel that was constructed and is not open. -/
def Shut (registry : Registry) (id : ℕ) : Prop :=
  id ≤ registry.lastId ∧ ∀ ch, registry.channels id = some ch → ch.fd < 0

/-- A channel that was closed is not opened again. -/
theorem Effect.shut_stays {constructs : Bool} (effect : Effect registry constructs after)
    (shut : registry.Shut id) : after.Shut id := by
  refine ⟨shut.1.trans effect.lastId_le, ?_⟩
  intro ch' here
  cases effect with
  | same | polled => exact shut.2 ch' here
  | constructed ch step =>
      have different : id ≠ ch.id := by
        have bound := shut.1
        rw [step.id]
        omega
      rw [step.channels, Function.update_of_ne different] at here
      exact shut.2 ch' here
  | enabled old ch there same_fd valid step =>
      rw [step.channels, Function.update_apply] at here
      split_ifs at here with same
      · cases here
        have closed := shut.2 _ (same ▸ there)
        omega
      · exact shut.2 ch' here
  | shut ch there valid =>
      rw [channels_shut, Function.update_apply] at here
      split_ifs at here with same
      · cases here
        exact show (-1 : ℤ) < 0 by decide
      · exact shut.2 ch' here
  | released other closed =>
      rw [channels_release, Function.update_apply] at here
      split_ifs at here
      exact shut.2 ch' here

end Registry

end Handy
