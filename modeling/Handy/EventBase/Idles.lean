import Handy.EventBase
import Handy.Timers.Linked
import Handy.Lib.LabelledRun

/-!
# Idle callbacks

`EventsImp::callIdles` and the runs of an event base between registrations of idle callbacks,
their updates and removals, the passing of time and passes of `callIdles`. Here the lists hold
the nodes of every connection, and a callback is named by its node. Callbacks leave the
registrations alone while a pass runs.

Every list stays sorted by the time of its nodes (`IdlesKept`), so a pass finds all that is
due at the front (`walk_eq`), and with periods of a second or more it ends; it goes through
the periods in increasing order, and calls the due nodes of each oldest first
(`idles_called_in_order`).

`callIdles` walks over a copy of each list, so the time of a node is not reset in the list that
stays: a callback that is due is called in every pass until there is activity. Two calls are
apart by the period exactly as far as the passes are (`idles_apart_iff`).
-/

set_option autoImplicit false

namespace Handy

/-! ## A pass -/

/-- `node.updated_ + idle > now` is false. -/
def IdleNode.due (idle now : ℤ) (node : IdleNode) : Bool := node.updated + idle ≤ now

/-- The loop over one list: the callbacks that are called, if the loop ends. -/
def walk (idle now : ℤ) : ℕ → List IdleNode → Option (List ℕ)
  | 0, _ => none
  | _ + 1, [] => some []
  | fuel + 1, node :: lst =>
      if now < node.updated + idle then some []
      else do
        let calls ← walk idle now fuel (lst ++ [{ node with updated := now }])
        some (node.id :: calls)

/-- The loop over the lists. -/
def walkAll (now : ℤ) (fuel : ℕ) : List (ℤ × List IdleNode) → Option (List ℕ)
  | [] => some []
  | (idle, lst) :: rest => do
      let calls ← walk idle now fuel lst
      let more ← walkAll now fuel rest
      some (calls ++ more)

namespace EventBase

/-- `EventsImp::callIdles`; `auto lst = l.second` is a copy, and the lists stay as they are. -/
def callIdles (fuel : ℕ) (base : EventBase) : Option (List ℕ × EventBase) := do
  let calls ← walkAll base.seconds fuel base.idleConns.entries
  some (calls, base)

/-- What happens to the idle lists of a base. -/
inductive IdleEvent where
  | register (idle : ℤ)
  | update (id : IdleId)
  | unregister (id : IdleId)
  | elapse (milli : ℕ)
  /-- `callIdles` at a time, in seconds, with the callbacks that it called. -/
  | pass (now : ℤ) (calls : List ℕ)
  deriving DecidableEq, Repr

/-- One event. -/
inductive IdleStep : EventBase → IdleEvent → EventBase → Prop where
  | register (base : EventBase) (idle : ℤ) :
      IdleStep base (.register idle) (base.registerIdle idle).2
  | update {base after : EventBase} {id : IdleId} (updated : base.updateIdle id = some after) :
      IdleStep base (.update id) after
  | unregister {base after : EventBase} {id : IdleId}
      (unregistered : base.unregisterIdle id = some after) : IdleStep base (.unregister id) after
  | elapse (base : EventBase) (milli : ℕ) : IdleStep base (.elapse milli)
      { base with timers := { base.timers with clock := base.timers.clock + milli } }
  | pass {base after : EventBase} {fuel : ℕ} {calls : List ℕ}
      (passed : base.callIdles fuel = some (calls, after)) :
      IdleStep base (.pass base.seconds calls) after

/-! ## The lists are sorted -/

/-- What holds of the idle lists of a base: each is sorted by the time of its nodes, no node is
newer than the clock, and the nodes have different names. -/
structure IdlesKept (base : EventBase) : Prop where
  sorted : ∀ {idle lst}, base.idleConns.find? idle = some lst →
    lst.Pairwise fun first second => first.updated ≤ second.updated
  past : ∀ {idle lst}, base.idleConns.find? idle = some lst →
    ∀ node ∈ lst, node.updated ≤ base.seconds
  fresh : ∀ {idle lst}, base.idleConns.find? idle = some lst →
    ∀ node ∈ lst, node.id < base.nextIdle
  distinct : ∀ {idle lst}, base.idleConns.find? idle = some lst → (lst.map (·.id)).Nodup
  apart : ∀ {idle other lst lst'}, base.idleConns.find? idle = some lst →
    base.idleConns.find? other = some lst' → idle ≠ other →
    ∀ node ∈ lst, ∀ node' ∈ lst', node.id ≠ node'.id

theorem IdlesKept.init (clock : ℤ) : IdlesKept (.init clock) where
  sorted found := by cases found
  past found := by cases found
  fresh found := by cases found
  distinct found := by cases found
  apart found := by cases found

/-- One list is replaced. -/
theorem IdlesKept.set {base after : EventBase} (kept : IdlesKept base) {idle : ℤ}
    {new : List IdleNode} (conns : after.idleConns = base.idleConns.set idle new)
    (seconds : after.seconds = base.seconds) (next : base.nextIdle ≤ after.nextIdle)
    (sorted : new.Pairwise fun first second => first.updated ≤ second.updated)
    (past : ∀ node ∈ new, node.updated ≤ base.seconds)
    (fresh : ∀ node ∈ new, node.id < after.nextIdle)
    (distinct : (new.map (·.id)).Nodup)
    (apart : ∀ {other lst}, base.idleConns.find? other = some lst → idle ≠ other →
      ∀ node ∈ new, ∀ node' ∈ lst, node.id ≠ node'.id) : IdlesKept after := by
  have found : ∀ {other lst}, after.idleConns.find? other = some lst →
      (idle = other ∧ lst = new) ∨ (idle ≠ other ∧ base.idleConns.find? other = some lst) := by
    intro other lst there
    rw [conns, OrderedMap.find?_set] at there
    split_ifs at there with same
    · exact .inl ⟨same, (Option.some_inj.mp there).symm⟩
    · exact .inr ⟨same, there⟩
  constructor
  · intro other lst there
    rcases found there with ⟨-, rfl⟩ | ⟨-, old⟩
    · exact sorted
    · exact kept.sorted old
  · intro other lst there
    rw [seconds]
    rcases found there with ⟨-, rfl⟩ | ⟨-, old⟩
    · exact past
    · exact kept.past old
  · intro other lst there
    rcases found there with ⟨-, rfl⟩ | ⟨-, old⟩
    · exact fresh
    · exact fun node member => (kept.fresh old node member).trans_le next
  · intro other lst there
    rcases found there with ⟨-, rfl⟩ | ⟨-, old⟩
    · exact distinct
    · exact kept.distinct old
  · intro first second lst lst' there there' differ
    rcases found there with ⟨here, rfl⟩ | ⟨other, old⟩
    · rcases found there' with ⟨here', -⟩ | ⟨other', old'⟩
      · exact absurd (here.symm.trans here') differ
      · exact apart old' other'
    · rcases found there' with ⟨-, rfl⟩ | ⟨-, old'⟩
      · exact fun node member node' member' => (apart old other node' member' node member).symm
      · exact kept.apart old old' differ

/-! ### Each event keeps the lists sorted -/

section Kept

variable {base after : EventBase}

theorem runAfter_clock (base : EventBase) (milli : ℤ) (task : BaseTask) (interval : ℤ) :
    (base.runAfter milli task interval).2.timers.clock = base.timers.clock := by
  unfold runAfter Timers.runAfter Timers.runAt
  by_cases exit : base.timers.exit = true
  · rw [if_pos exit]
  · rw [if_neg exit]
    by_cases repeats : interval ≠ 0
    · simp only [if_pos repeats, Timers.refreshNearest_clock]
    · simp only [if_neg repeats, Timers.refreshNearest_clock]

/-- What a registration does to the lists. -/
theorem registerIdle_lists (base : EventBase) (idle : ℤ) :
    (base.registerIdle idle).2.idleConns = base.idleConns.set idle
        ((base.idleConns.find? idle).getD [] ++ [⟨base.nextIdle, base.seconds⟩]) ∧
      (base.registerIdle idle).2.seconds = base.seconds ∧
      (base.registerIdle idle).2.nextIdle = base.nextIdle + 1 := by
  unfold registerIdle
  cases base.idleEnabled with
  | true => exact ⟨rfl, rfl, rfl⟩
  | false =>
      have seconds : (base.runAfter 1000 .callIdles 1000).2.seconds = base.seconds := by
        unfold EventBase.seconds
        rw [runAfter_clock]
      refine ⟨?_, seconds, rfl⟩
      show base.idleConns.set idle ((base.idleConns.find? idle).getD [] ++
        [IdleNode.mk base.nextIdle (base.runAfter 1000 .callIdles 1000).2.seconds]) = _
      rw [seconds]

/-- What an update does to the lists. -/
theorem updateIdle_lists {id : IdleId} (updated : base.updateIdle id = some after) :
    ∃ lst node, base.findIdle id = some (lst, node) ∧
      after.idleConns = base.idleConns.set id.idle
        (lst.filter (·.id ≠ id.node) ++ [{ node with updated := base.seconds }]) ∧
      after.seconds = base.seconds ∧ after.nextIdle = base.nextIdle := by
  unfold updateIdle at updated
  split at updated
  · cases updated
  · cases updated
    exact ⟨_, _, ‹_›, rfl, rfl, rfl⟩

/-- What a removal does to the lists. -/
theorem unregisterIdle_lists {id : IdleId} (unregistered : base.unregisterIdle id = some after) :
    ∃ lst node, base.findIdle id = some (lst, node) ∧
      after.idleConns = base.idleConns.set id.idle (lst.filter (·.id ≠ id.node)) ∧
      after.seconds = base.seconds ∧ after.nextIdle = base.nextIdle := by
  unfold unregisterIdle at unregistered
  split at unregistered
  · cases unregistered
  · cases unregistered
    exact ⟨_, _, ‹_›, rfl, rfl, rfl⟩

/-- A node that is found is in the list, under its name. -/
theorem findIdle_some {id : IdleId} {lst : List IdleNode} {node : IdleNode}
    (found : base.findIdle id = some (lst, node)) :
    base.idleConns.find? id.idle = some lst ∧ node ∈ lst ∧ node.id = id.node := by
  unfold findIdle at found
  split at found
  · cases found
  · rename_i lst' listed
    obtain ⟨node', first, same⟩ := Option.map_eq_some_iff.mp found
    cases same
    exact ⟨listed, List.mem_of_find?_eq_some first, by simpa using List.find?_some first⟩

theorem IdlesKept.register (kept : IdlesKept base) (idle : ℤ) :
    IdlesKept (base.registerIdle idle).2 := by
  obtain ⟨conns, seconds, next⟩ := registerIdle_lists base idle
  -- The list of the period, empty if there is none yet.
  have old : ∀ node ∈ (base.idleConns.find? idle).getD [],
      ∃ lst, base.idleConns.find? idle = some lst ∧ node ∈ lst := by
    intro node member
    cases listed : base.idleConns.find? idle with
    | none =>
        rw [listed] at member
        cases member
    | some lst =>
        rw [listed] at member
        exact ⟨lst, rfl, member⟩
  have old_fresh : ∀ node ∈ (base.idleConns.find? idle).getD [], node.id < base.nextIdle := by
    intro node member
    obtain ⟨lst, listed, inside⟩ := old node member
    exact kept.fresh listed node inside
  refine kept.set conns seconds (by omega) ?_ ?_ ?_ ?_ ?_
  · refine List.pairwise_append.mpr ⟨?_, List.pairwise_singleton _ _, ?_⟩
    · cases listed : base.idleConns.find? idle with
      | none => exact List.Pairwise.nil
      | some lst => exact kept.sorted listed
    · intro node member last is_last
      obtain ⟨lst, listed, inside⟩ := old node member
      rw [List.mem_singleton.mp is_last]
      exact kept.past listed node inside
  · intro node member
    rcases List.mem_append.mp member with earlier | last
    · obtain ⟨lst, listed, inside⟩ := old node earlier
      exact kept.past listed node inside
    · rw [List.mem_singleton.mp last]
  · intro node member
    rw [next]
    rcases List.mem_append.mp member with earlier | last
    · exact (old_fresh node earlier).trans (Nat.lt_succ_self _)
    · rw [List.mem_singleton.mp last]
      exact Nat.lt_succ_self _
  · rw [List.map_append, List.map_singleton]
    refine List.nodup_append.mpr ⟨?_, List.nodup_singleton _, ?_⟩
    · cases listed : base.idleConns.find? idle with
      | none => exact List.nodup_nil
      | some lst => exact kept.distinct listed
    · intro name member last is_last
      obtain ⟨node, inside, rfl⟩ := List.mem_map.mp member
      rw [List.mem_singleton.mp is_last]
      exact (old_fresh node inside).ne
  · intro other lst listed differ node member node' member'
    rcases List.mem_append.mp member with earlier | last
    · obtain ⟨lst', listed', inside⟩ := old node earlier
      exact kept.apart listed' listed differ node inside node' member'
    · rw [List.mem_singleton.mp last]
      exact (kept.fresh listed node' member').ne'

theorem IdlesKept.unregister (kept : IdlesKept base) {id : IdleId}
    (unregistered : base.unregisterIdle id = some after) : IdlesKept after := by
  obtain ⟨lst, node, found, conns, seconds, next⟩ := unregisterIdle_lists unregistered
  obtain ⟨listed, -, -⟩ := findIdle_some found
  have sub : lst.filter (·.id ≠ id.node) ⊆ lst := List.filter_subset_self _
  refine kept.set conns seconds next.ge ((kept.sorted listed).filter _) ?_ ?_ ?_ ?_
  · exact fun node member => kept.past listed node (sub member)
  · exact fun node member => next ▸ kept.fresh listed node (sub member)
  · exact (kept.distinct listed).sublist (List.filter_sublist.map _)
  · exact fun other differ node member => kept.apart listed other differ node (sub member)

theorem IdlesKept.update (kept : IdlesKept base) {id : IdleId}
    (updated : base.updateIdle id = some after) : IdlesKept after := by
  obtain ⟨lst, node, found, conns, seconds, next⟩ := updateIdle_lists updated
  obtain ⟨listed, there, named⟩ := findIdle_some found
  have sub : lst.filter (·.id ≠ id.node) ⊆ lst := List.filter_subset_self _
  refine kept.set conns seconds next.ge ?_ ?_ ?_ ?_ ?_
  · refine List.pairwise_append.mpr ⟨(kept.sorted listed).filter _, List.pairwise_singleton _ _, ?_⟩
    intro other member last is_last
    rw [List.mem_singleton.mp is_last]
    exact kept.past listed other (sub member)
  · intro other member
    rcases List.mem_append.mp member with earlier | last
    · exact kept.past listed other (sub earlier)
    · rw [List.mem_singleton.mp last]
  · intro other member
    rw [next]
    rcases List.mem_append.mp member with earlier | last
    · exact kept.fresh listed other (sub earlier)
    · rw [List.mem_singleton.mp last]
      exact kept.fresh listed node there
  · rw [List.map_append, List.map_singleton]
    refine List.nodup_append.mpr
      ⟨(kept.distinct listed).sublist (List.filter_sublist.map _), List.nodup_singleton _, ?_⟩
    intro name member last is_last
    obtain ⟨other, inside, rfl⟩ := List.mem_map.mp member
    rw [List.mem_singleton.mp is_last, named]
    exact of_decide_eq_true (List.mem_filter.mp inside).2
  · intro period lst' listed' differ other member node' member'
    rcases List.mem_append.mp member with earlier | last
    · exact kept.apart listed listed' differ other (sub earlier) node' member'
    · rw [List.mem_singleton.mp last]
      exact kept.apart listed listed' differ node there node' member'

theorem IdlesKept.elapse (kept : IdlesKept base) (milli : ℕ) :
    IdlesKept { base with timers := { base.timers with clock := base.timers.clock + milli } } where
  sorted := kept.sorted
  past listed node member := by
    have later : base.seconds ≤ (base.timers.clock + milli).tdiv 1000 := by
      unfold seconds
      exact Int.tdiv_le_tdiv (by decide) (by omega)
    exact (kept.past listed node member).trans later
  fresh := kept.fresh
  distinct := kept.distinct
  apart := kept.apart

/-- **Every event keeps the lists sorted.** -/
theorem IdlesKept.step (kept : IdlesKept base) {event : IdleEvent}
    (taken : IdleStep base event after) : IdlesKept after := by
  cases taken with
  | register idle => exact kept.register idle
  | update updated => exact kept.update updated
  | unregister unregistered => exact kept.unregister unregistered
  | elapse milli => exact kept.elapse milli
  | pass passed =>
      unfold callIdles at passed
      obtain ⟨calls, -, same⟩ := Option.bind_eq_some_iff.mp passed
      cases same
      exact kept

theorem IdlesKept.run {clock : ℤ} {events : List IdleEvent}
    (run : LabelledRun IdleStep (.init clock) events base) : IdlesKept base :=
  run.invariant IdlesKept (fun _ _ _ kept taken => kept.step taken) (.init clock)

end Kept

end EventBase

/-! ## What a pass calls -/

section Walk

variable {idle now : ℤ}

/-- The nodes that are due are called, and then the walk stops: at a node that is not due, at
one that was called, or at the end. -/
theorem walk_front (positive : 1 ≤ idle) {old rest : List IdleNode} {fuel : ℕ}
    (due : ∀ node ∈ old, node.due idle now = true)
    (stops : rest.head?.all (!·.due idle now) = true) (enough : old.length < fuel) :
    walk idle now fuel (old ++ rest) = some (old.map (·.id)) := by
  induction old generalizing rest fuel with
  | nil =>
      obtain ⟨fuel, rfl⟩ := Nat.exists_eq_succ_of_ne_zero (Nat.ne_of_gt enough)
      cases rest with
      | nil => rfl
      | cons node rest =>
          have young : now < node.updated + idle := by simpa [IdleNode.due] using stops
          rw [List.nil_append, walk, if_pos young]
          rfl
  | cons node old ih =>
      obtain ⟨fuel, rfl⟩ := Nat.exists_eq_succ_of_ne_zero (Nat.ne_of_gt (Nat.zero_lt_of_lt enough))
      have here : ¬ now < node.updated + idle := by
        have := due node List.mem_cons_self
        simpa [IdleNode.due] using this
      have refreshed : (rest ++ [IdleNode.mk node.id now]).head?.all (!·.due idle now) = true := by
        cases rest with
        | nil =>
            have young : ¬ now + idle ≤ now := by omega
            simp [IdleNode.due, young]
        | cons next rest => exact stops
      have later := ih
        (fun other member => due other (List.mem_cons_of_mem _ member)) refreshed
        (Nat.lt_of_succ_lt_succ enough)
      rw [List.cons_append, walk, if_neg here, List.append_assoc, later]
      rfl

/-- In a sorted list the due nodes stand in front. -/
theorem takeWhile_due {lst : List IdleNode}
    (sorted : lst.Pairwise fun first second => first.updated ≤ second.updated) :
    lst.takeWhile (·.due idle now) = lst.filter (·.due idle now) := by
  induction lst with
  | nil => rfl
  | cons node lst ih =>
      obtain ⟨below, sorted⟩ := List.pairwise_cons.mp sorted
      by_cases due : node.due idle now = true
      · rw [List.takeWhile_cons_of_pos due, List.filter_cons_of_pos due, ih sorted]
      · have none : lst.filter (·.due idle now) = [] := by
          refine List.filter_eq_nil_iff.mpr fun later member => ?_
          have := below later member
          simp only [IdleNode.due, decide_eq_true_eq] at due ⊢
          omega
        rw [List.takeWhile_cons_of_neg due, List.filter_cons_of_neg due, none]

/-- **A walk over a sorted list calls what is due, oldest first, and ends.** -/
theorem walk_eq (positive : 1 ≤ idle) {lst : List IdleNode} {fuel : ℕ}
    (sorted : lst.Pairwise fun first second => first.updated ≤ second.updated)
    (enough : lst.length < fuel) :
    walk idle now fuel lst = some ((lst.filter (·.due idle now)).map (·.id)) := by
  have stops : (lst.dropWhile (·.due idle now)).head?.all (!·.due idle now) = true := by
    have := List.head?_dropWhile_not (·.due idle now) lst
    cases left : lst.dropWhile (·.due idle now) with
    | nil => rfl
    | cons node rest => simpa [left] using this
  have due : ∀ node ∈ lst.takeWhile (·.due idle now), node.due idle now = true :=
    fun node member => List.mem_takeWhile_imp member
  have short := (List.takeWhile_prefix (·.due idle now) (l := lst)).length_le
  have front := walk_front positive due stops (by omega : _ < fuel)
  rwa [List.takeWhile_append_dropWhile, takeWhile_due sorted] at front

/-- With a period of zero or less, a walk over a list with a node does not end. -/
theorem walk_endless (negative : idle ≤ 0) {lst : List IdleNode} (some_node : lst ≠ [])
    (past : ∀ node ∈ lst, node.updated ≤ now) (fuel : ℕ) : walk idle now fuel lst = none := by
  induction fuel generalizing lst with
  | zero => rfl
  | succ fuel ih =>
      cases lst with
      | nil => exact absurd rfl some_node
      | cons node lst =>
          have old := past node List.mem_cons_self
          have due : ¬ now < node.updated + idle := by omega
          have later : walk idle now fuel (lst ++ [{ node with updated := now }]) = none := by
            refine ih (by simp) fun other member => ?_
            rcases List.mem_append.mp member with earlier | last
            · exact past other (List.mem_cons_of_mem _ earlier)
            · rw [List.mem_singleton.mp last]
          rw [walk, if_neg due, later]
          rfl

theorem walk_more {fuel more : ℕ} {lst : List IdleNode} {calls : List ℕ} (le : fuel ≤ more)
    (ended : walk idle now fuel lst = some calls) : walk idle now more lst = some calls := by
  induction fuel generalizing lst more calls with
  | zero => cases ended
  | succ fuel ih =>
      obtain ⟨more, rfl⟩ := Nat.exists_eq_succ_of_ne_zero (n := more) (by omega)
      cases lst with
      | nil => exact ended
      | cons node lst =>
          rw [walk] at ended ⊢
          split_ifs at ended ⊢ with young
          · exact ended
          · obtain ⟨later, found, same⟩ := Option.bind_eq_some_iff.mp ended
            rw [ih (by omega) found]
            exact same

/-- What a walk that ends has called. -/
theorem walk_some {fuel : ℕ} {lst : List IdleNode} {calls : List ℕ}
    (sorted : lst.Pairwise fun first second => first.updated ≤ second.updated)
    (past : ∀ node ∈ lst, node.updated ≤ now) (ended : walk idle now fuel lst = some calls) :
    calls = (lst.filter (·.due idle now)).map (·.id) := by
  by_cases positive : 1 ≤ idle
  · have full : walk idle now (fuel + (lst.length + 1)) lst =
        some ((lst.filter (·.due idle now)).map (·.id)) := walk_eq positive sorted (by omega)
    have same := walk_more (Nat.le_add_right fuel (lst.length + 1)) ended
    exact Option.some_inj.mp (same.symm.trans full)
  · cases lst with
    | nil =>
        cases fuel with
        | zero => cases ended
        | succ fuel => exact (Option.some_inj.mp ended).symm
    | cons node lst =>
        rw [walk_endless (by omega) (List.cons_ne_nil _ _) past] at ended
        cases ended

/-- The loop over the lists, list by list. -/
theorem walkAll_some {fuel : ℕ} {entries : List (ℤ × List IdleNode)} {calls : List ℕ}
    (kept : ∀ entry ∈ entries,
      (entry.2.Pairwise fun first second => first.updated ≤ second.updated) ∧
        ∀ node ∈ entry.2, node.updated ≤ now)
    (ended : walkAll now fuel entries = some calls) :
    calls = entries.flatMap fun entry => (entry.2.filter (·.due entry.1 now)).map (·.id) := by
  induction entries generalizing calls with
  | nil => exact (Option.some_inj.mp ended).symm
  | cons entry entries ih =>
      obtain ⟨first, walked, ended⟩ := Option.bind_eq_some_iff.mp ended
      obtain ⟨more, others, same⟩ := Option.bind_eq_some_iff.mp ended
      cases same
      obtain ⟨sorted, past⟩ := kept entry List.mem_cons_self
      rw [List.flatMap_cons, walk_some sorted past walked,
        ih (fun other member => kept other (List.mem_cons_of_mem _ member)) others]

theorem walkAll_eq {fuel : ℕ} {entries : List (ℤ × List IdleNode)}
    (kept : ∀ entry ∈ entries, 1 ≤ entry.1 ∧ entry.2.length < fuel ∧
      entry.2.Pairwise fun first second => first.updated ≤ second.updated) :
    walkAll now fuel entries =
      some (entries.flatMap fun entry => (entry.2.filter (·.due entry.1 now)).map (·.id)) := by
  induction entries with
  | nil => rfl
  | cons entry entries ih =>
      obtain ⟨positive, enough, sorted⟩ := kept entry List.mem_cons_self
      rw [walkAll, walk_eq positive sorted enough,
        ih fun other member => kept other (List.mem_cons_of_mem _ member)]
      rfl

end Walk

namespace EventBase

/-- The callbacks that are due, period by period, and oldest first in each. -/
def dueCalls (base : EventBase) : List ℕ :=
  base.idleConns.entries.flatMap fun entry =>
    (entry.2.filter (·.due entry.1 base.seconds)).map (·.id)

section Passes

variable {base after : EventBase}

/-- **A pass that ends has called what is due**, and has left the lists alone. -/
theorem callIdles_some (kept : IdlesKept base) {fuel : ℕ} {calls : List ℕ}
    (passed : base.callIdles fuel = some (calls, after)) :
    calls = base.dueCalls ∧ after = base := by
  obtain ⟨called, walked, same⟩ := Option.bind_eq_some_iff.mp passed
  cases same
  refine ⟨walkAll_some (fun entry member => ?_) walked, rfl⟩
  have listed : base.idleConns.find? entry.1 = some entry.2 := OrderedMap.mem_entries_iff.mp member
  exact ⟨kept.sorted listed, kept.past listed⟩

/-- The number of nodes. -/
def idleCount (base : EventBase) : ℕ := (base.idleConns.entries.map fun entry => entry.2.length).sum

/-- With periods of a second or more, a pass ends. -/
theorem callIdles_eq (kept : IdlesKept base)
    (positive : ∀ entry ∈ base.idleConns.entries, 1 ≤ entry.1) {fuel : ℕ}
    (enough : base.idleCount < fuel) : base.callIdles fuel = some (base.dueCalls, base) := by
  have walked : walkAll base.seconds fuel base.idleConns.entries = some base.dueCalls := by
    refine walkAll_eq fun entry member => ?_
    have listed : base.idleConns.find? entry.1 = some entry.2 := OrderedMap.mem_entries_iff.mp member
    have short : entry.2.length ≤ base.idleCount := List.le_sum_of_mem (List.mem_map_of_mem member)
    exact ⟨positive entry member, by omega, kept.sorted listed⟩
  rw [callIdles, walked]
  rfl

theorem mem_dueCalls {name : ℕ} : name ∈ base.dueCalls ↔ ∃ idle lst node,
    base.idleConns.find? idle = some lst ∧ node ∈ lst ∧ node.id = name ∧
      node.updated + idle ≤ base.seconds := by
  unfold dueCalls
  simp only [List.mem_flatMap, List.mem_map, List.mem_filter, IdleNode.due, decide_eq_true_eq]
  constructor
  · rintro ⟨entry, member, node, ⟨inside, due⟩, named⟩
    exact ⟨entry.1, entry.2, node, OrderedMap.mem_entries_iff.mp member, inside, named, due⟩
  · rintro ⟨idle, lst, node, listed, inside, named, due⟩
    exact ⟨(idle, lst), OrderedMap.mem_entries_iff.mpr listed, node, ⟨inside, due⟩, named⟩

/-- No callback is called twice in a pass. -/
theorem nodup_dueCalls (kept : IdlesKept base) : base.dueCalls.Nodup := by
  refine List.nodup_flatMap.mpr ⟨fun entry member => ?_, ?_⟩
  · have listed : base.idleConns.find? entry.1 = some entry.2 := OrderedMap.mem_entries_iff.mp member
    exact (kept.distinct listed).sublist (List.filter_sublist.map _)
  · refine base.idleConns.sorted.imp_of_mem fun first_in second_in less => ?_
    intro name first second
    obtain ⟨node, inside, rfl⟩ := List.mem_map.mp first
    obtain ⟨node', inside', same⟩ := List.mem_map.mp second
    exact kept.apart (OrderedMap.mem_entries_iff.mp first_in)
      (OrderedMap.mem_entries_iff.mp second_in) less.ne node (List.mem_of_mem_filter inside) node'
      (List.mem_of_mem_filter inside') same.symm

/-- Periods come from registrations. -/
theorem periods_of_run {clock : ℤ} {events : List IdleEvent}
    (run : LabelledRun IdleStep (.init clock) events base)
    (positive : ∀ idle, .register idle ∈ events → 1 ≤ idle) :
    ∀ entry ∈ base.idleConns.entries, 1 ≤ entry.1 := by
  refine run.invariant_of_allowed (fun base => ∀ entry ∈ base.idleConns.entries, 1 ≤ entry.1)
    (fun event => ∀ idle, event = .register idle → 1 ≤ idle) ?_
    (fun event member idle same => positive idle (same ▸ member))
    (fun entry member => by cases member)
  intro before event after allowed periods taken entry member
  cases taken with
  | register idle =>
      rw [(registerIdle_lists before idle).1] at member
      rcases OrderedMap.mem_of_mem_set member with rfl | old
      · exact allowed idle rfl
      · exact periods entry old
  | @update _ id updated =>
      obtain ⟨lst, node, found, conns, -⟩ := updateIdle_lists updated
      rw [conns] at member
      rcases OrderedMap.mem_of_mem_set member with rfl | old
      · exact periods (id.idle, lst) (OrderedMap.mem_entries_iff.mpr (findIdle_some found).1)
      · exact periods entry old
  | @unregister _ id unregistered =>
      obtain ⟨lst, node, found, conns, -⟩ := unregisterIdle_lists unregistered
      rw [conns] at member
      rcases OrderedMap.mem_of_mem_set member with rfl | old
      · exact periods (id.idle, lst) (OrderedMap.mem_entries_iff.mpr (findIdle_some found).1)
      · exact periods entry old
  | elapse milli => exact periods entry member
  | pass passed =>
      obtain ⟨called, -, same⟩ := Option.bind_eq_some_iff.mp passed
      cases same
      exact periods entry member

/-- **A pass calls exactly what is due, once each, in order**: in every state that is reached
with periods of a second or more, each list is sorted by the time of its nodes, and a pass ends
and calls the due nodes without repetition; it goes through the periods in increasing order,
and through the nodes of each from the oldest on. -/
theorem idles_called_in_order {clock : ℤ} {events : List IdleEvent}
    (run : LabelledRun IdleStep (.init clock) events base)
    (positive : ∀ idle, .register idle ∈ events → 1 ≤ idle) :
    (∀ idle lst, base.idleConns.find? idle = some lst →
      lst.Pairwise fun first second => first.updated ≤ second.updated) ∧
    ∃ calls, (∃ enough, ∀ fuel, enough ≤ fuel → base.callIdles fuel = some (calls, base)) ∧
      calls.Nodup ∧
      (∀ name, name ∈ calls ↔ ∃ idle lst node, base.idleConns.find? idle = some lst ∧
        node ∈ lst ∧ node.id = name ∧ node.updated + idle ≤ base.seconds) ∧
      calls = base.idleConns.entries.flatMap fun entry =>
        (entry.2.filter (·.due entry.1 base.seconds)).map (·.id) := by
  have kept := IdlesKept.run run
  refine ⟨fun idle lst => kept.sorted, base.dueCalls, ⟨base.idleCount + 1, fun fuel enough =>
    callIdles_eq kept (periods_of_run run positive) (by omega)⟩, nodup_dueCalls kept,
    fun name => mem_dueCalls, rfl⟩

/-- A node of period 3 registered two seconds before another of period 1, six seconds after
the start: both are due. -/
def twoPeriods : EventBase :=
  let base := ((EventBase.init 2000).registerIdle 3).2
  let base := { base with timers := { base.timers with clock := base.timers.clock + 3000 } }
  let base := (base.registerIdle 1).2
  { base with timers := { base.timers with clock := base.timers.clock + 1000 } }

theorem twoPeriods_run : LabelledRun IdleStep (.init 2000)
    [.register 3, .elapse 3000, .register 1, .elapse 1000] twoPeriods :=
  .cons (.register _ 3) (.cons (.elapse _ 3000) (.cons (.register _ 1) (.single (.elapse _ 1000))))

theorem twoPeriods_positive : ∀ idle,
    .register idle ∈ [.register 3, .elapse 3000, .register 1, IdleEvent.elapse 1000] → 1 ≤ idle := by
  intro idle member
  simp only [List.mem_cons, IdleEvent.register.injEq, reduceCtorEq, false_or,
    List.not_mem_nil, or_false] at member
  omega

theorem idles_called_in_order_two : ∃ calls,
    (∃ enough, ∀ fuel, enough ≤ fuel → twoPeriods.callIdles fuel = some (calls, twoPeriods)) ∧
      calls = [1, 0] := by
  obtain ⟨-, calls, ends, -, -, order⟩ := idles_called_in_order twoPeriods_run twoPeriods_positive
  exact ⟨calls, ends, order.trans (by decide +kernel)⟩

/-- The nodes are called from the oldest on, whatever their periods. -/
def OldestFirst (base : EventBase) (calls : List ℕ) : Prop :=
  calls.Pairwise fun first second =>
    ∀ node ∈ base.idleConns.entries.flatMap (·.2), ∀ node' ∈ base.idleConns.entries.flatMap (·.2),
      node.id = first → node'.id = second → node.updated ≤ node'.updated

/-- A newer node of a shorter period is called before an older one. -/
theorem newer_called_first : ¬ ∀ (clock : ℤ) (events : List IdleEvent) (base : EventBase),
    LabelledRun IdleStep (.init clock) events base →
    (∀ idle, .register idle ∈ events → 1 ≤ idle) →
    ∃ calls, (∃ enough, ∀ fuel, enough ≤ fuel → base.callIdles fuel = some (calls, base)) ∧
      OldestFirst base calls := by
  intro always
  obtain ⟨calls, ⟨enough, ends⟩, oldest⟩ := always 2000 _ twoPeriods twoPeriods_run twoPeriods_positive
  obtain ⟨rfl, -⟩ := callIdles_some (IdlesKept.run twoPeriods_run) (ends enough le_rfl)
  revert oldest
  unfold OldestFirst
  decide +kernel

end Passes

/-! ## The calls of one callback -/

section Calls

variable {base after : EventBase} {id : IdleId} {node : IdleNode}

/-- The times at which a callback was called. -/
def invocations (id : IdleId) (events : List IdleEvent) : List ℤ :=
  events.flatMap fun
    | .pass now calls => List.replicate (calls.count id.node) now
    | _ => []

/-- The times of the passes. -/
def passes (events : List IdleEvent) : List ℤ :=
  events.flatMap fun
    | .pass now _ => [now]
    | _ => []

/-- Neither activity nor a removal of a registration. -/
def Quiet (id : IdleId) (event : IdleEvent) : Prop := event ≠ .update id ∧ event ≠ .unregister id

/-- A registration has a node in its list. -/
def Registered (base : EventBase) (id : IdleId) (node : IdleNode) : Prop :=
  node.id = id.node ∧ ∃ lst, base.idleConns.find? id.idle = some lst ∧ node ∈ lst

theorem registered_of_findIdle {lst : List IdleNode}
    (found : base.findIdle id = some (lst, node)) : Registered base id node := by
  obtain ⟨listed, there, named⟩ := findIdle_some found
  exact ⟨named, lst, listed, there⟩

/-- A list is replaced by one that still has the node. -/
theorem Registered.set (registered : Registered base id node) {idle : ℤ} {new : List IdleNode}
    (conns : after.idleConns = base.idleConns.set idle new)
    (keeps : ∀ lst, base.idleConns.find? idle = some lst → node ∈ lst → idle = id.idle →
      node ∈ new) : Registered after id node := by
  obtain ⟨named, lst, listed, there⟩ := registered
  refine ⟨named, ?_⟩
  rw [conns, OrderedMap.find?_set]
  by_cases same : idle = id.idle
  · rw [if_pos same]
    exact ⟨new, rfl, keeps lst (same ▸ listed) there same⟩
  · rw [if_neg same]
    exact ⟨lst, listed, there⟩

/-- **A quiet event leaves the node as it is.** -/
theorem Registered.step (registered : Registered base id node) {event : IdleEvent}
    (quiet : Quiet id event) (taken : IdleStep base event after) : Registered after id node := by
  have apart : ∀ other : IdleId, other ≠ id → other.idle = id.idle → node.id ≠ other.node := by
    intro other differ idle same
    refine differ ?_
    cases other
    cases id
    simp_all [Registered]
  cases taken with
  | register idle =>
      refine registered.set (registerIdle_lists base idle).1 fun lst listed there _ => ?_
      rw [listed]
      exact List.mem_append_left _ there
  | @update _ other updated =>
      obtain ⟨lst, node', found, conns, -⟩ := updateIdle_lists updated
      refine registered.set conns fun lst' listed there idle => ?_
      rw [(findIdle_some found).1] at listed
      cases listed
      have differs := apart other (fun same => quiet.1 (same ▸ rfl)) idle
      exact List.mem_append_left _ (List.mem_filter.mpr ⟨there, by simpa using differs⟩)
  | @unregister _ other unregistered =>
      obtain ⟨lst, node', found, conns, -⟩ := unregisterIdle_lists unregistered
      refine registered.set conns fun lst' listed there idle => ?_
      rw [(findIdle_some found).1] at listed
      cases listed
      have differs := apart other (fun same => quiet.2 (same ▸ rfl)) idle
      exact List.mem_filter.mpr ⟨there, by simpa using differs⟩
  | elapse milli => exact registered
  | pass passed =>
      obtain ⟨called, -, same⟩ := Option.bind_eq_some_iff.mp passed
      cases same
      exact registered

/-- A registered callback is called in a pass once or not at all. -/
theorem Registered.count_dueCalls (registered : Registered base id node) (kept : IdlesKept base) :
    base.dueCalls.count id.node = if node.updated + id.idle ≤ base.seconds then 1 else 0 := by
  obtain ⟨named, lst, listed, there⟩ := registered
  have member : id.node ∈ base.dueCalls ↔ node.updated + id.idle ≤ base.seconds := by
    rw [mem_dueCalls]
    constructor
    · rintro ⟨idle, lst', node', listed', there', named', due⟩
      -- The name belongs to one list, and to one node of it.
      have idle_eq : idle = id.idle := by
        by_contra differ
        exact kept.apart listed' listed differ node' there' node there (named'.trans named.symm)
      rw [idle_eq, listed] at listed'
      cases listed'
      have node_eq := List.inj_on_of_nodup_map (kept.distinct listed) there' there
        (named'.trans named.symm)
      rwa [node_eq, idle_eq] at due
    · exact fun due => ⟨id.idle, lst, node, listed, there, named, due⟩
  by_cases due : node.updated + id.idle ≤ base.seconds
  · rw [if_pos due, List.count_eq_one_of_mem (nodup_dueCalls kept) (member.mpr due)]
  · rw [if_neg due, List.count_eq_zero_of_not_mem fun inside => due (member.mp inside)]

/-- **In a quiet run, a callback is called in every pass in which its node is due.** -/
theorem invocations_eq (kept : IdlesKept base) (registered : Registered base id node)
    {events : List IdleEvent} (run : LabelledRun IdleStep base events after)
    (quiet : ∀ event ∈ events, Quiet id event) :
    invocations id events = (passes events).filter (node.updated + id.idle ≤ ·) := by
  induction run with
  | refl => rfl
  | @cons first middle last event rest head tail ih =>
      have later := ih (kept.step head) (registered.step (quiet event List.mem_cons_self) head)
        fun other member => quiet other (List.mem_cons_of_mem _ member)
      have now : invocations id [event] = (passes [event]).filter (node.updated + id.idle ≤ ·) := by
        cases head with
        | pass passed =>
            obtain ⟨rfl, -⟩ := callIdles_some kept passed
            have count := registered.count_dueCalls kept
            simp only [invocations, passes, List.flatMap_cons, List.flatMap_nil, List.append_nil,
              count, List.filter_cons, List.filter_nil, decide_eq_true_eq]
            split_ifs <;> rfl
        | _ => rfl
      have split : invocations id (event :: rest) = invocations id [event] ++ invocations id rest := by
        simp [invocations]
      have split' : passes (event :: rest) = passes [event] ++ passes rest := by simp [passes]
      rw [split, split', List.filter_append, now, later]

/-- Times that follow each other are a period apart. -/
def Apart (idle : ℤ) (times : List ℤ) : Prop := times.IsChain fun first second => first + idle ≤ second

/-- **The calls of a callback without activity are a period apart exactly if the passes are**
that come when its node is due. -/
theorem idles_apart_iff {clock : ℤ} {earlier events : List IdleEvent} {lst : List IdleNode}
    (reached : LabelledRun IdleStep (.init clock) earlier base)
    (found : base.findIdle id = some (lst, node))
    (run : LabelledRun IdleStep base events after) (quiet : ∀ event ∈ events, Quiet id event) :
    Apart id.idle (invocations id events) ↔
      Apart id.idle ((passes events).filter (node.updated + id.idle ≤ ·)) := by
  rw [invocations_eq (IdlesKept.run reached) (registered_of_findIdle found) run quiet]

/-- A callback of period 2, after two seconds. -/
def idleTwo : EventBase :=
  let base := ((EventBase.init 0).registerIdle 2).2
  { base with timers := { base.timers with clock := base.timers.clock + 2000 } }

/-- The base one second later. -/
def idleThree : EventBase :=
  { idleTwo with timers := { idleTwo.timers with clock := idleTwo.timers.clock + 1000 } }

theorem idleTwo_run : LabelledRun IdleStep (.init 0) [.register 2, .elapse 2000] idleTwo :=
  .cons (.register _ 2) (.single (.elapse _ 2000))

/-- A pass, a second and another pass. -/
theorem idleThree_run :
    LabelledRun IdleStep idleTwo [.pass 2 [0], .elapse 1000, .pass 3 [0]] idleThree :=
  .cons (.pass (show idleTwo.callIdles 3 = some ([0], idleTwo) from rfl)) (.cons (.elapse _ 1000)
    (.single (.pass (show idleThree.callIdles 3 = some ([0], idleThree) from rfl))))

theorem idleThree_quiet :
    ∀ event ∈ [.pass 2 [0], .elapse 1000, IdleEvent.pass 3 [0]], Quiet ⟨2, 0⟩ event := by
  unfold Quiet
  decide

theorem idles_apart_iff_three : Apart 2 (invocations ⟨2, 0⟩ [.pass 2 [0], .elapse 1000, .pass 3 [0]]) ↔
    Apart 2 ((passes [.pass 2 [0], .elapse 1000, .pass 3 [0]]).filter (0 + 2 ≤ ·)) :=
  idles_apart_iff idleTwo_run
    (show idleTwo.findIdle ⟨2, 0⟩ = some ([⟨0, 0⟩], ⟨0, 0⟩) from rfl) idleThree_run idleThree_quiet

/-- The callback is called twice within a second. -/
theorem called_each_second : ¬ ∀ (clock : ℤ) (earlier events : List IdleEvent)
    (base after : EventBase) (id : IdleId) (lst : List IdleNode) (node : IdleNode),
    LabelledRun IdleStep (.init clock) earlier base → base.findIdle id = some (lst, node) →
    LabelledRun IdleStep base events after → (∀ event ∈ events, Quiet id event) →
    Apart id.idle (invocations id events) := by
  intro always
  have apart := always 0 _ _ idleTwo idleThree ⟨2, 0⟩ _ ⟨0, 0⟩ idleTwo_run rfl idleThree_run
    idleThree_quiet
  revert apart
  unfold Apart
  decide

end Calls

end EventBase

end Handy
