import Handy.Timers
import Handy.Poller

/-!
# The event base of a connection

The parts of `EventsImp` that a `TcpConn` uses: the poller, the timers, the queue
of tasks given to `safeCall`, the lists of idle callbacks and the set of
connections that wait for a reconnect. The base is seen from one connection, so
the closures in its tables are those that `TcpConn` and `registerIdle` create, the
idle lists hold the nodes of that connection, and the set of waiting connections
is the answer to whether it is one of them.
-/

set_option autoImplicit false

namespace Handy

/-- The closures that a connection hands to the event base. -/
inductive BaseTask where
  /-- Given to `safeCall` by `TcpConn::close`. -/
  | closeChannel
  /-- Given to `runAfter` by `TcpConn::connect`. -/
  | connectTimeout
  /-- Given to `runAfter` by `TcpConn::reconnect`. -/
  | reconnect
  /-- Given to `runAfter` by `registerIdle`. -/
  | callIdles
  deriving DecidableEq, Repr

/-- `IdleNode`; the id stands for the address of the list node. -/
structure IdleNode where
  id : ℕ
  updated : ℤ
  deriving DecidableEq, Repr

/-- `IdleIdImp`: the list and the node. -/
structure IdleId where
  idle : ℤ
  node : ℕ
  deriving DecidableEq, Repr

/-- `EventsImp`, with the counter that numbers channels. -/
structure EventBase where
  poller : Poller
  channelSeq : ℕ
  timers : Timers BaseTask
  tasks : List BaseTask
  idleConns : OrderedMap ℤ (List IdleNode)
  idleEnabled : Bool
  nextIdle : ℕ
  reconnectConns : Bool

namespace EventBase

def init (clock : ℤ) : EventBase :=
  { poller := .init, channelSeq := 0, timers := .init clock, tasks := [], idleConns := .empty,
    idleEnabled := false, nextIdle := 0, reconnectConns := false }

/-- `EventBase::exited`. -/
def exited (base : EventBase) : Bool := base.timers.exit

/-- `EventsImp::exit`. -/
def exit (base : EventBase) : EventBase := { base with timers := { base.timers with exit := true } }

/-- `EventsImp::safeCall`. -/
def safeCall (base : EventBase) (task : BaseTask) : EventBase :=
  { base with tasks := base.tasks ++ [task] }

/-- `EventBase::runAfter`. -/
def runAfter (base : EventBase) (milli : ℤ) (task : BaseTask) (interval : ℤ) :
    TimerId × EventBase :=
  let (timerid, timers) := base.timers.runAfter milli task interval
  (timerid, { base with timers := timers })

/-- The time of idle nodes, in seconds. -/
def seconds (base : EventBase) : ℤ := base.timers.clock.tdiv 1000

/-- `EventsImp::registerIdle`. -/
def registerIdle (base : EventBase) (idle : ℤ) : IdleId × EventBase :=
  let base := if base.idleEnabled then base
    else { (base.runAfter 1000 .callIdles 1000).2 with idleEnabled := true }
  let lst := (base.idleConns.find? idle).getD []
  (⟨idle, base.nextIdle⟩,
    { base with
      idleConns := base.idleConns.set idle (lst ++ [⟨base.nextIdle, base.seconds⟩])
      nextIdle := base.nextIdle + 1 })

/-- The node of an `IdleId` and the list it is in, when both are still there. -/
def findIdle (base : EventBase) (id : IdleId) : Option (List IdleNode × IdleNode) :=
  match base.idleConns.find? id.idle with
  | none => none
  | some lst => (lst.find? (·.id = id.node)).map (lst, ·)

/-- `EventsImp::unregisterIdle`; `none` when the iterator is dangling. -/
def unregisterIdle (base : EventBase) (id : IdleId) : Option EventBase :=
  match base.findIdle id with
  | none => none
  | some (lst, _) => some { base with
      idleConns := base.idleConns.set id.idle (lst.filter (·.id ≠ id.node)) }

/-- `EventsImp::updateIdle`; `none` when the iterator is dangling. -/
def updateIdle (base : EventBase) (id : IdleId) : Option EventBase :=
  match base.findIdle id with
  | none => none
  | some (lst, node) => some { base with
      idleConns := base.idleConns.set id.idle
        (lst.filter (·.id ≠ id.node) ++ [{ node with updated := base.seconds }]) }

section Frame

variable {base base' : EventBase} {id : IdleId}

theorem unregisterIdle_frame (found : base.unregisterIdle id = some base') :
    ∃ idleConns, base' = { base with idleConns := idleConns } := by
  unfold unregisterIdle at found
  split at found
  · cases found
  · cases found
    exact ⟨_, rfl⟩

theorem updateIdle_frame (found : base.updateIdle id = some base') :
    ∃ idleConns, base' = { base with idleConns := idleConns } := by
  unfold updateIdle at found
  split at found
  · cases found
  · cases found
    exact ⟨_, rfl⟩

/-- An update leaves every node where it can be found. -/
theorem findIdle_updateIdle (found : base.updateIdle id = some base') {other : IdleId}
    (there : (base.findIdle other).isSome = true) : (base'.findIdle other).isSome = true := by
  unfold updateIdle at found
  split at found
  · cases found
  case h_2 lst node here =>
    cases found
    unfold findIdle at here there ⊢
    rw [OrderedMap.find?_set]
    split at here
    · cases here
    case h_2 lst' listed =>
      obtain ⟨node', first, same⟩ := Option.map_eq_some_iff.mp here
      cases same
      by_cases together : id.idle = other.idle
      · rw [← together, listed] at there
        simp only [Option.isSome_map, List.find?_isSome] at there
        simp only [together, if_true, Option.isSome_map, List.find?_isSome]
        obtain ⟨kept, member, named⟩ := there
        by_cases moved : kept.id = id.node
        · refine ⟨{ node with updated := base.seconds }, by simp, ?_⟩
          have name : node.id = id.node := by simpa using List.find?_some first
          simp only [decide_eq_true_eq] at named ⊢
          rw [name, ← moved, named]
        · exact ⟨kept, List.mem_append_left _ (List.mem_filter.mpr ⟨member, by simpa using moved⟩), named⟩
      · rw [if_neg together]
        exact there

/-- So does the removal of another node. -/
theorem findIdle_unregisterIdle (found : base.unregisterIdle id = some base') {other : IdleId}
    (apart : other ≠ id) (there : (base.findIdle other).isSome = true) :
    (base'.findIdle other).isSome = true := by
  unfold unregisterIdle at found
  split at found
  · cases found
  case h_2 lst node here =>
    cases found
    unfold findIdle at here there ⊢
    rw [OrderedMap.find?_set]
    by_cases together : id.idle = other.idle
    · split at here
      · cases here
      case h_2 lst' listed =>
        obtain ⟨node', first, same⟩ := Option.map_eq_some_iff.mp here
        cases same
        rw [← together, listed] at there
        simp only [Option.isSome_map, List.find?_isSome] at there
        simp only [together, if_true, Option.isSome_map, List.find?_isSome]
        obtain ⟨kept, member, named⟩ := there
        refine ⟨kept, List.mem_filter.mpr ⟨member, ?_⟩, named⟩
        have name : kept.id = other.node := of_decide_eq_true named
        refine decide_eq_true fun gone => apart ?_
        cases other
        cases id
        simp_all
    · rw [if_neg together]
      exact there

theorem registerIdle_idleConns (base : EventBase) (idle : ℤ) : ∃ updated,
    (base.registerIdle idle).2.idleConns = base.idleConns.set idle
      ((base.idleConns.find? idle).getD [] ++ [⟨base.nextIdle, updated⟩]) := by
  unfold registerIdle
  cases base.idleEnabled <;> exact ⟨_, rfl⟩

theorem registerIdle_fst (base : EventBase) (idle : ℤ) :
    (base.registerIdle idle).1 = ⟨idle, base.nextIdle⟩ := by
  unfold registerIdle
  cases base.idleEnabled <;> rfl

/-- A new node is found, and so is every other one. -/
theorem findIdle_registerIdle {idle : ℤ} {other : IdleId}
    (there : other = (base.registerIdle idle).1 ∨ (base.findIdle other).isSome = true) :
    ((base.registerIdle idle).2.findIdle other).isSome = true := by
  obtain ⟨updated, conns⟩ := registerIdle_idleConns base idle
  unfold findIdle
  rw [conns, OrderedMap.find?_set]
  rcases there with rfl | there
  · rw [registerIdle_fst]
    simp
  · unfold findIdle at there
    by_cases together : idle = other.idle
    · subst together
      split at there
      · cases there
      case h_2 lst listed =>
        simp only [Option.isSome_map, List.find?_isSome] at there
        obtain ⟨kept, member, named⟩ := there
        simp only [if_true, listed, Option.getD_some, Option.isSome_map, List.find?_isSome]
        exact ⟨kept, List.mem_append_left _ member, named⟩
    · rw [if_neg together]
      exact there

theorem registerIdle_poller (base : EventBase) (idle : ℤ) :
    (base.registerIdle idle).2.poller = base.poller := by
  unfold registerIdle
  cases base.idleEnabled <;> rfl

end Frame

end EventBase

end Handy
