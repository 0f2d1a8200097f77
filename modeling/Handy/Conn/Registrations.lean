import Handy.Conn.Idle

/-!
# Idle registrations are never given up

`idleIds_` has every idle callback that a connection has ever registered: `cleanup` does not
clear it, and a `cleanup` that reconnects does not unregister anything. So a connection is left
without registrations only when it has never registered an idle callback
(`released_iff_never_registered`), and a client that registers one each time it is connected
piles them up (`registrations_pile_up`).
-/

set_option autoImplicit false
set_option mvcgen.warning false

namespace Handy

namespace TcpConn

variable {υ : Type} {w w' : World υ} {first : ℕ}

/-- No registration of the connection is left, neither in `idleIds_` nor in a list of
`idleConns_`. -/
def Released (w : World υ) : Prop :=
  w.con.idleIds = [] ∧ ∀ idle lst, w.base.idleConns.find? idle = some lst → lst = []

/-- The number of registrations since the given one is that of the ids, and before the first of
them the lists are empty. -/
structure Registered (first : ℕ) (w : World υ) : Prop where
  total : first + w.con.idleIds.length = w.base.nextIdle
  empty : w.con.idleIds = [] → ∀ idle lst, w.base.idleConns.find? idle = some lst → lst = []

theorem Registered.released_iff (registered : Registered first w) :
    Released w ↔ w.base.nextIdle = first := by
  have total := registered.total
  refine ⟨fun released => ?_, fun same => ?_⟩
  · rw [← total, released.1]
    rfl
  · have none_left : w.con.idleIds = [] := List.length_eq_zero_iff.mp (by omega)
    exact ⟨none_left, registered.empty none_left⟩

theorem Carried.registered (carried : Carried w w') (registered : Registered first w) :
    Registered first w' := by
  refine ⟨?_, ?_⟩
  · rw [carried.idleIds, carried.nextIdle]
    exact registered.total
  · rw [carried.idleIds, carried.idleConns]
    exact registered.empty

theorem Registered.add (registered : Registered first w) (idle : ℤ) : Registered first { w with
    base := (w.base.registerIdle idle).2
    con := { w.con with idleIds := w.con.idleIds ++ [(w.base.registerIdle idle).1] } } := by
  have next : (w.base.registerIdle idle).2.nextIdle = w.base.nextIdle + 1 := by
    unfold EventBase.registerIdle
    cases w.base.idleEnabled <;> rfl
  refine ⟨?_, fun none_left => ?_⟩
  · have total := registered.total
    rw [List.length_append, List.length_singleton, next]
    omega
  · exact absurd none_left (by simp)

/-- The lists may change once there is a registration. -/
theorem Registered.relist (registered : Registered first w) {id : IdleId} (issued : id ∈ w.con.idleIds)
    (idleIds : w'.con.idleIds = w.con.idleIds) (nextIdle : w'.base.nextIdle = w.base.nextIdle) :
    Registered first w' := by
  refine ⟨?_, fun none_left => ?_⟩
  · rw [idleIds, nextIdle]
    exact registered.total
  · rw [idleIds] at none_left
    rw [none_left] at issued
    exact absurd issued List.not_mem_nil

theorem updateIdles_registered (ids : List IdleId) :
    Meets (fun w => Registered first w ∧ ∀ id ∈ ids, id ∈ w.con.idleIds)
      (updateIdles ids : Act υ Unit) (fun _ => Registered first) fun _ => Registered first := by
  induction ids with
  | nil =>
      mvcgen [updateIdles]
      case vc1 w start => exact start.1
  | cons id rest ih =>
      mvcgen [updateIdles, handyUpdateIdle, ih]
      case vc1 w start base found _ =>
        obtain ⟨registered, issued⟩ := start
        obtain ⟨idleConns, rfl⟩ := EventBase.updateIdle_frame found
        exact ⟨registered.relist (issued id List.mem_cons_self) rfl rfl,
          fun other member => issued other (List.mem_cons_of_mem _ member)⟩
      case vc2 w start _ => exact start.1

theorem unregisterIdles_registered (ids : List IdleId) :
    Meets (fun w => Registered first w ∧ Final w ∧ ∀ id ∈ ids, id ∈ w.con.idleIds)
      (unregisterIdles ids : Act υ Unit) (fun _ w => Registered first w ∧ Final w)
      fun _ => Registered first := by
  induction ids with
  | nil =>
      mvcgen [unregisterIdles]
      case vc1 w start => exact ⟨start.1, start.2.1⟩
  | cons id rest ih =>
      mvcgen [unregisterIdles, handyUnregisterIdle, record, ih]
      case vc1 w start _ base found _ =>
        obtain ⟨registered, final, issued⟩ := start
        obtain ⟨idleConns, rfl⟩ := EventBase.unregisterIdle_frame found
        exact ⟨registered.relist (issued id List.mem_cons_self) rfl rfl, final,
          fun other member => issued other (List.mem_cons_of_mem _ member)⟩
      case vc2 w start _ _ =>
        exact start.1.relist (start.2.2 id List.mem_cons_self) rfl rfl

theorem registered_idling (first : ℕ) :
    Idling (υ := υ) (Registered first) (fun _ => True) fun _ => Registered first where
  passes _ _ uninvolved := uninvolved.toCarried.registered
  restarts _ _ carried _ _ := carried.registered
  adds _ idle registered := registered.add idle
  updates ids := (updateIdles_registered ids).imp (fun _ start => ⟨start.1, start.2.2⟩)
    (fun _ _ done => done) fun _ _ stop => stop
  unregisters := unregisterIdles_registered
  stops _ _ _ registered := registered

/-- **Every event counts its registrations.** -/
theorem handleEvent_registered (σ : UserCode υ) (event : Event) :
    Meets (fun w => Registered first w ∧ Settled w) (handleEvent σ event)
      (fun _ => Registered first) fun _ => Registered first := by
  have idling := registered_idling (υ := υ) first
  by_cases exits : event = .loopExit
  · subst exits
    refine (idling.loopExit_kept σ).imp (fun w start => ⟨start.1, fun _ => ?_⟩) (fun _ _ done => done)
      fun _ _ stop => stop
    exact ⟨⟨start.1.total, fun _ _ _ found => absurd found (by simp [cleared])⟩,
      fun _ => ⟨start.1.total, fun _ _ _ found => absurd found (by simp [exiting])⟩⟩
  · exact (idling.handleEvent_kept σ exits).imp (fun w start => ⟨start.1, start.2, fun _ => trivial⟩)
      (fun _ _ done => done) fun _ _ stop => stop

theorem New.registered (start : New w) : Registered w.base.nextIdle w := by
  refine ⟨?_, fun _ idle lst found => ?_⟩
  · rw [start.con]
    rfl
  · rw [start.idleConns] at found
    cases found

theorem Opened.registered {σ : UserCode υ} (opened : Opened σ w) : Registered w.base.nextIdle w := by
  cases opened with
  | connect port timeout start ran =>
      have redialled := (connect_redials _ port timeout _).ok
        ⟨⟨.silent rfl rfl rfl rfl, start.reconnectConns⟩, Gone.settled start.gone⟩ ran
      rw [redialled.1.nextIdle]
      exact redialled.1.registered start.registered
  | attach fd start ran =>
      have redialled := (attach_redials _ fd _).ok
        ⟨⟨.silent rfl rfl rfl rfl, start.reconnectConns⟩, start.gone.1⟩ ran
      rw [redialled.1.nextIdle]
      exact redialled.1.registered start.registered

/-- **A connection is left without registrations exactly if it has never registered an idle
callback**: in every state of every run, and so when `cleanup` has finished, with a reconnect or
without, `idleIds_` is as long as the number of callbacks registered since the connection was
opened, and it and the lists of `idleConns_` are empty only if there were none. -/
theorem released_iff_never_registered {σ : UserCode υ} {c : ConnConfig υ} {events : List Event}
    (opened : Opened σ w) (run : LabelledRun (ConnStep σ) ⟨w, none⟩ events c) :
    (Released c.world ↔ c.world.base.nextIdle = w.base.nextIdle) ∧
      w.base.nextIdle + c.world.con.idleIds.length = c.world.base.nextIdle := by
  have start : ConnConfig.Holds ⟨w, none⟩ (fun w' => Registered w.base.nextIdle w' ∧ Settled w')
      fun _ => Registered w.base.nextIdle := ⟨opened.registered, opened.steady.2⟩
  have holds := start.of_run (fun event _ => by
    refine ((handleEvent_registered σ event).and (handleEvent_settled σ event)).imp
      (fun _ before => ⟨before, before.2⟩) (fun _ _ done => done) fun _ _ stop => stop.1) run
    fun _ _ => trivial
  have registered : Registered w.base.nextIdle c.world := by
    obtain ⟨world, stopped⟩ := c
    cases stopped with
    | none => exact holds.1
    | some fault => exact holds
  exact ⟨registered.released_iff, registered.total⟩

end TcpConn

/-- A state callback that registers an idle callback once it is connected. -/
def registerWhenConnected : UserCode Unit := fun callback w =>
  match callback with
  | .state => (if w.con.state = .connected then [.addIdleCB 30] else [], ())
  | _ => ([], ())

/-- A client that reconnects at once, or not at all, and whose peers close the connection. -/
def registering (interval : ℤ) : World Unit :=
  TcpConn.dialled registerWhenConnected (.new none false true none interval) 80 0
    { writes := [], reads := [.eof, .eof], polls := [true, true], peer := [], laterPeers := [],
      nextFd := 7 } ()

theorem registering_opened (interval : ℤ) :
    TcpConn.Opened registerWhenConnected (registering interval) :=
  TcpConn.dialled_opened _ _ _ _ _ _ _ _ _ (by decide)

/-- The client is connected and cleaned up, twice. -/
def twoAttempts : List Event := [.writable, .readable, .timer, .writable, .readable]

theorem released_iff_never_registered_two :
    let c := TcpConn.execute registerWhenConnected (registering 0) twoAttempts
    ¬ TcpConn.Released c.world ∧ c.world.con.idleIds.length = 2 := by
  intro c
  have run : LabelledRun (ConnStep registerWhenConnected) ⟨registering 0, none⟩ twoAttempts
      ⟨c.world, none⟩ := TcpConn.execute_completes (by decide +kernel)
  have registered : c.world.base.nextIdle = (registering 0).base.nextIdle + 2 := by decide +kernel
  clear_value c
  have counted := TcpConn.released_iff_never_registered (registering_opened 0) run
  refine ⟨fun released => ?_, ?_⟩
  · have same : c.world.base.nextIdle = (registering 0).base.nextIdle := counted.1.mp released
    omega
  · have total : (registering 0).base.nextIdle + c.world.con.idleIds.length =
      c.world.base.nextIdle := counted.2
    omega

/-- **Registrations pile up**: after two attempts that are each to be followed by another,
there are two registrations in `idleIds_` and two nodes in the list; and when a client does
not reconnect, its `idleIds_` is not empty either. -/
theorem registrations_pile_up :
    (∃ c : ConnConfig Unit, ConnReachable registerWhenConnected c ∧ c.stopped = none ∧
      c.world.con.channel.isNone = true ∧ c.world.con.state = .closed ∧
      c.world.con.idleIds.length = 2 ∧
      (c.world.base.idleConns.find? 30).map List.length = some 2) ∧
    ∃ c : ConnConfig Unit, ConnReachable registerWhenConnected c ∧ c.stopped = none ∧
      c.world.con.channel.isNone = true ∧ c.world.con.state = .closed ∧
      c.world.con.idleIds.length = 1 ∧
      (c.world.base.idleConns.find? 30).map List.length = some 0 :=
  ⟨⟨TcpConn.execute registerWhenConnected (registering 0) twoAttempts,
      TcpConn.execute_reachable (registering_opened 0) _, by decide +kernel, by decide +kernel,
      by decide +kernel, by decide +kernel, by decide +kernel⟩,
    ⟨TcpConn.execute registerWhenConnected (registering (-1)) [.writable, .readable],
      TcpConn.execute_reachable (registering_opened (-1)) _, by decide +kernel, by decide +kernel,
      by decide +kernel, by decide +kernel, by decide +kernel⟩⟩

end Handy
