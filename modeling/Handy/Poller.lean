import Handy.Lib.OrderedMap

/-!
# Channels and the poller

A channel wraps a descriptor with the events it waits for. The poller keeps the
set of live channels and, in the kernel, the interest list of `epoll`, which maps
registered descriptors to event masks. `EPOLL_CTL_MOD` fails exactly on
descriptors that are not registered, `EPOLL_CTL_ADD` on those that are, and closing a
descriptor takes it off the list. Both failures are fatal in the source.
-/

set_option autoImplicit false

namespace Handy

/-- The mask of `kReadEvent` and `kWriteEvent`. -/
structure Events where
  read : Bool
  write : Bool
  deriving DecidableEq, Repr

/-- `Channel`; `close` sets the descriptor to `-1`. -/
structure Channel where
  id : ℕ
  fd : ℤ
  events : Events
  deriving DecidableEq, Repr

namespace Channel

def readEnabled (ch : Channel) : Bool := ch.events.read

def writeEnabled (ch : Channel) : Bool := ch.events.write

/-- The descriptor has not been closed. -/
def Open (ch : Channel) : Prop := 0 ≤ ch.fd

instance (ch : Channel) : Decidable ch.Open := inferInstanceAs (Decidable (0 ≤ ch.fd))

end Channel

/-- `PollerEpoll`, with the interest list of its `epoll` descriptor. -/
structure Poller where
  liveChannels : Finset ℕ
  registered : OrderedMap ℤ Events
  activeEvs : List (Option ℕ)
  lastActive : ℤ

namespace Poller

def init : Poller := ⟨∅, .empty, [], -1⟩

/-- `PollerEpoll::addChannel`; `none` when the call of `epoll_ctl` fails. -/
def addChannel (poller : Poller) (ch : Channel) : Option Poller :=
  if ch.fd < 0 ∨ (poller.registered.find? ch.fd).isSome then none
  else some { poller with
    registered := poller.registered.set ch.fd ch.events
    liveChannels := insert ch.id poller.liveChannels }

/-- `PollerEpoll::updateChannel`; `none` when the call of `epoll_ctl` fails. -/
def updateChannel (poller : Poller) (ch : Channel) : Option Poller :=
  if (poller.registered.find? ch.fd).isSome then
    some { poller with registered := poller.registered.set ch.fd ch.events }
  else none

/-- The loop of `removeChannel`: the last entry of the channel among the first
`count` active events becomes null. -/
def forget (id : ℕ) : ℕ → List (Option ℕ) → List (Option ℕ)
  | 0, evs => evs
  | i + 1, evs => if evs[i]? = some (some id) then evs.set i none else forget id i evs

/-- `PollerEpoll::removeChannel`. -/
def removeChannel (poller : Poller) (ch : Channel) : Poller :=
  { poller with
    liveChannels := poller.liveChannels.erase ch.id
    activeEvs := forget ch.id (poller.lastActive + 1).toNat poller.activeEvs }

/-- The system call `close`. -/
def closeFd (poller : Poller) (fd : ℤ) : Poller :=
  { poller with registered := poller.registered.erase fd }

/-- The poller knows the channel: it is live and its descriptor is registered. -/
def Knows (poller : Poller) (ch : Channel) : Prop :=
  ch.id ∈ poller.liveChannels ∧ (poller.registered.find? ch.fd).isSome

theorem knows_of_addChannel {poller after : Poller} {ch : Channel}
    (added : poller.addChannel ch = some after) : after.Knows ch := by
  unfold addChannel at added
  split_ifs at added
  cases added
  exact ⟨Finset.mem_insert_self _ _, by simp⟩

/-- A known channel can be updated, and is still known. -/
theorem Knows.updateChannel {poller : Poller} {ch : Channel} (knows : poller.Knows ch) :
    ∃ after, poller.updateChannel ch = some after ∧ after.Knows ch := by
  refine ⟨_, if_pos knows.2, knows.1, by simp⟩

/-- Only the descriptor and the id of a channel matter. -/
theorem Knows.of_same {poller : Poller} {ch other : Channel} (knows : poller.Knows ch)
    (id : other.id = ch.id) (fd : other.fd = ch.fd) : poller.Knows other := by
  unfold Knows
  rwa [id, fd]

end Poller

end Handy
