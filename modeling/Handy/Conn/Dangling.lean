import Handy.Conn.Dereference
import Handy.Conn.Registrations

/-!
# Idle ids that dangle

An `IdleId` points into a list of the event base. `updateIdle` and `unregisterIdle` are given
ids whose nodes are still there (`Traceable`) as long as `cleanup` is not entered again from the
read callback that it runs, and the loop does not exit while the connection is in use or waits
for a reconnect and has registered an idle callback (`idle_ids_never_dangle`). The loop drops
all lists when it exits, and the connections are torn down after that.
-/

set_option autoImplicit false
set_option mvcgen.warning false

namespace Handy

namespace TcpConn

variable {υ : Type} {w w' : World υ}

/-! ## Nodes that are still there -/

/-- While the loop runs, the nodes of all ids that were not unregistered are there, and a
connection in use has unregistered none and waits for no reconnect. -/
structure Traceable (w : World υ) : Prop where
  running : .exitedWaiting ∉ w.seen.events
  used : ¬ Final w → unregisteredIds w.seen.events = [] ∧ w.base.reconnectConns = false
  found : ∀ id ∈ w.con.idleIds, id ∉ unregisteredIds w.seen.events → (w.base.findIdle id).isSome = true

/-- What is known when a fault stops a connection with traceable ids: a dangling id was unregistered
before. -/
def Doubled (fault : Fault) (w : World υ) : Prop :=
  .exitedWaiting ∉ w.seen.events ∧
    (fault = .danglingIdle → ¬ (unregisteredIds w.seen.events).Nodup)

theorem Traceable.doubled (traceable : Traceable w) {fault : Fault} (other : fault ≠ .danglingIdle) :
    Doubled fault w := ⟨traceable.running, fun dangling => absurd dangling other⟩

theorem Carried.found (carried : Carried w w') (traceable : Traceable w) :
    ∀ id ∈ w'.con.idleIds, id ∉ unregisteredIds w'.seen.events →
      (w'.base.findIdle id).isSome = true := by
  rw [carried.idleIds, carried.unregistered]
  intro id issued kept
  have there := traceable.found id issued kept
  unfold EventBase.findIdle at there ⊢
  rw [carried.idleConns]
  exact there

theorem Uninvolved.traceable (uninvolved : Uninvolved w w') (traceable : Traceable w) : Traceable w' where
  running member := traceable.running (uninvolved.mem_events rfl member)
  used used := by
    obtain ⟨none_gone, awake⟩ := traceable.used (uninvolved.used used)
    refine ⟨uninvolved.unregistered.trans none_gone, Bool.eq_false_iff.mpr fun waiting => ?_⟩
    rw [uninvolved.waits used waiting] at awake
    cases awake
  found := uninvolved.toCarried.found traceable

theorem Traceable.add (traceable : Traceable w) (idle : ℤ) : Traceable { w with
    base := (w.base.registerIdle idle).2
    con := { w.con with idleIds := w.con.idleIds ++ [(w.base.registerIdle idle).1] } } where
  running := traceable.running
  used used := by
    have awake : (w.base.registerIdle idle).2.reconnectConns = w.base.reconnectConns := by
      unfold EventBase.registerIdle
      cases w.base.idleEnabled <;> rfl
    exact ⟨(traceable.used used).1, awake.trans (traceable.used used).2⟩
  found id member kept := by
    refine EventBase.findIdle_registerIdle ?_
    rcases List.mem_append.mp member with old | new
    · exact .inr (traceable.found id old kept)
    · exact .inl (List.mem_singleton.mp new)

/-- The update of an id of a connection in use finds its node. -/
theorem Traceable.update (traceable : Traceable w) (used : ¬ Final w) {id : IdleId} (issued : id ∈ w.con.idleIds) :
    (w.base.findIdle id).isSome = true :=
  traceable.found id issued (by rw [(traceable.used used).1]; exact List.not_mem_nil)

theorem updateIdles_traceable (ids : List IdleId) :
    Meets (fun w => Traceable w ∧ ¬ Final w ∧ ∀ id ∈ ids, id ∈ w.con.idleIds)
      (updateIdles ids : Act υ Unit) (fun _ => Traceable) Doubled := by
  induction ids with
  | nil =>
      mvcgen [updateIdles]
      case vc1 w start => exact start.1
  | cons id rest ih =>
      mvcgen [updateIdles, handyUpdateIdle, ih]
      case vc1 w start base found _ =>
        obtain ⟨traceable, used, issued⟩ := start
        obtain ⟨idleConns, rfl⟩ := EventBase.updateIdle_frame found
        refine ⟨⟨traceable.running, traceable.used, fun other member kept => ?_⟩, used,
          fun other member => issued other (List.mem_cons_of_mem _ member)⟩
        exact EventBase.findIdle_updateIdle found (traceable.found other member kept)
      case vc2 w start missing =>
        obtain ⟨traceable, used, issued⟩ := start
        have there := traceable.update used (issued id List.mem_cons_self)
        unfold EventBase.updateIdle at missing
        split at missing
        case h_1 gone =>
          rw [gone] at there
          cases there
        case h_2 => cases missing

theorem unregisterIdles_traceable (ids : List IdleId) :
    Meets (fun w => Traceable w ∧ Final w ∧ ∀ id ∈ ids, id ∈ w.con.idleIds)
      (unregisterIdles ids : Act υ Unit) (fun _ w => Traceable w ∧ Final w) Doubled := by
  induction ids with
  | nil =>
      mvcgen [unregisterIdles]
      case vc1 w start => exact ⟨start.1, start.2.1⟩
  | cons id rest ih =>
      mvcgen [unregisterIdles, handyUnregisterIdle, record, ih]
      case vc1 w start _ base found _ =>
        obtain ⟨traceable, final, issued⟩ := start
        obtain ⟨idleConns, rfl⟩ := EventBase.unregisterIdle_frame found
        refine ⟨⟨?_, fun used => absurd final used, fun other member kept => ?_⟩, final,
          fun other member => issued other (List.mem_cons_of_mem _ member)⟩
        · exact fun member => (List.mem_cons.mp member).elim (by rintro ⟨⟩) traceable.running
        · have named : unregisteredIds (.unregistered id :: w.seen.events) =
              id :: unregisteredIds w.seen.events := rfl
          have unnamed : other ∉ id :: unregisteredIds w.seen.events := named ▸ kept
          exact EventBase.findIdle_unregisterIdle found (List.ne_of_not_mem_cons unnamed)
            (traceable.found other member (List.not_mem_of_not_mem_cons unnamed))
      case vc2 w start _ missing =>
        obtain ⟨traceable, final, issued⟩ := start
        refine ⟨fun member => (List.mem_cons.mp member).elim (by rintro ⟨⟩) traceable.running, fun _ distinct => ?_⟩
        have named : unregisteredIds (.unregistered id :: w.seen.events) =
            id :: unregisteredIds w.seen.events := rfl
        have kept : id ∉ unregisteredIds w.seen.events := (List.nodup_cons.mp (named ▸ distinct)).1
        have there := traceable.found id (issued id List.mem_cons_self) kept
        unfold EventBase.unregisterIdle at missing
        split at missing
        case h_1 gone =>
          rw [show w.base.findIdle id = none from gone] at there
          cases there
        case h_2 => cases missing

theorem traceable_idling : Idling (υ := υ) Traceable (fun events => unregisteredIds events = []) Doubled where
  passes _ _ uninvolved := uninvolved.traceable
  restarts _ _ carried awake unreleased traceable :=
    ⟨fun member => traceable.running (carried.mem_events rfl member),
      fun _ => ⟨carried.unregistered.trans unreleased, awake⟩, carried.found traceable⟩
  adds _ idle traceable := traceable.add idle
  updates := updateIdles_traceable
  unregisters := unregisterIdles_traceable
  stops _ _ other traceable := traceable.doubled other

/-! ## Channels that are closed too early -/

theorem Grows.not_calm {α : Type} {program : Act υ α} (grows : Grows program) :
    Meets (fun w => ¬ Calm w) program (fun _ w => ¬ Calm w) fun _ w => ¬ Calm w := by
  refine meets_iff.mpr fun w hasty => ?_
  have recorded : Recorded w.seen.events w := List.suffix_rfl
  cases ran : program.run w with
  | ok a w' =>
      obtain ⟨new, same⟩ := (grows w.seen.events).ok recorded ran
      exact fun calm => hasty (calm.of_append same.symm)
  | error fault w' =>
      obtain ⟨new, same⟩ := (grows w.seen.events).fault recorded ran
      exact fun calm => hasty (calm.of_append same.symm)

theorem Carried.not_calm (carried : Carried w w') (hasty : ¬ Calm w) : ¬ Calm w' := by
  obtain ⟨new, -, events⟩ := carried.events
  exact fun calm => hasty (calm.of_append events)

/-- A channel that was closed too early stays recorded. -/
theorem not_calm_idling :
    Idling (υ := υ) (fun w => ¬ Calm w) (fun _ => True) fun _ w => ¬ Calm w where
  passes _ _ uninvolved := uninvolved.toCarried.not_calm
  restarts _ _ carried _ _ := carried.not_calm
  adds _ _ hasty := hasty
  updates ids := (updateIdles_grows ids).not_calm.imp (fun _ start => start.1) (fun _ _ done => done)
    fun _ _ stop => stop
  unregisters ids := ((unregisterIdles_grows ids).not_calm.and (unregisterIdles_final ids)).imp
    (fun _ start => ⟨start.1, start.2.1⟩) (fun _ _ done => done) fun _ _ stop => stop.1
  stops _ _ _ hasty := hasty

/-! ## After the exit of the loop -/

/-- The connection is over, has no idle ids, and the loop has exited. -/
structure Void (w : World υ) : Prop where
  gone : Gone w
  idleIds : w.con.idleIds = []
  exited : w.base.exited = true

/-- The fault is another one than a dangling id. -/
abbrev NotDangling (fault : Fault) (_ : World υ) : Prop := fault ≠ .danglingIdle

theorem Sends.gone (sends : Sends w w') (gone : Gone w) : Gone w' := by
  obtain ⟨channel, input, output, fd, con⟩ := sends.con
  refine ⟨?_, sends.final gone.2⟩
  rw [gone.1, Option.map_none, Option.map_eq_none_iff] at fd
  rw [con]
  exact fd

theorem Sends.void (sends : Sends w w') (void : Void w) : Void w' := by
  refine ⟨sends.gone void.gone, (Carried.of_sends sends).idleIds.trans void.idleIds, ?_⟩
  obtain ⟨poller, base⟩ := sends.base
  rw [base]
  exact void.exited

section Void

variable (self : Act υ Unit) (σ : UserCode υ)

/-- The send operations keep what sending does not touch, and no id dangles in them. -/
theorem sends_undangling {kept : World υ → Prop} {op : Op} (sending : op.sends = true)
    (keeps : ∀ w w', Sends w w' → kept w → kept w') :
    Meets kept (runOp self op) (fun _ => kept) NotDangling := by
  refine meets_iff.mpr fun w holds => ?_
  have both := (runOp_sends self sending w).and (runOp_sent self sending w)
  cases ran : (runOp self op).run w with
  | ok _ w' => exact keeps w w' (both.ok ⟨.refl w, rfl⟩ ran).1 holds
  | error fault w' => exact sends_not_dangling (both.fault ⟨.refl w, rfl⟩ ran).2.1

/-- Without a channel user code can register nothing. -/
theorem void_endures : Endures (fun _ => True) self Void NotDangling where
  sends _ sending _ := sends_undangling self sending fun _ _ sends => sends.void
  closes _ := meets_iff.mpr fun _ start => (start.2.not_null start.1.gone.1).elim
  tweaks w w' tweak _ void := by
    cases tweak with
    | addIdle idle present => exact (Present.not_null present void.gone.1).elim
    | exit => exact ⟨void.gone, void.idleIds, rfl⟩
    | _ => exact ⟨void.gone, void.idleIds, void.exited⟩
  raises _ _ := nofun

theorem gone_endures : Endures (fun _ => True) self Gone NotDangling where
  sends _ sending _ := sends_undangling self sending fun _ _ sends => sends.gone
  closes _ := meets_iff.mpr fun _ start => (start.2.not_null start.1.1).elim
  tweaks w w' tweak _ gone := by cases tweak <;> exact gone
  raises _ _ := nofun

theorem callRead_void : Meets Void (callRead σ self) (fun _ => Void) NotDangling := by
  refine (void_endures self).callRead_kept σ (fun _ _ _ _ _ => trivial)
    (fun _ _ void => ⟨void.gone, void.idleIds, void.exited⟩)
    (fun len => sends_undangling self (show (Op.consumeInput len).sends = true from rfl)
      fun _ _ sends => sends.void) ?_ (fun _ void => void) (fun _ _ => ⟨(by rintro ⟨⟩), (by rintro ⟨⟩)⟩)
    fun _ _ _ _ => trivial
  refine meets_iff.mpr fun w start => ?_
  have ran : (closeChannel self).run w = .error .nullChannel w := by
    simp [closeChannel, getChannel_absent start.1.gone.1]
  rw [ran]
  rintro ⟨⟩

theorem drainInput_void : Meets Void (drainInput σ self) (fun _ => Void) NotDangling := by
  have reads := callRead_void self σ
  mvcgen [drainInput, setDraining, reads]
  case vc1 w void _ _ => exact ⟨void.gone, void.idleIds, void.exited⟩
  case vc2 w void _ => exact ⟨void.gone, void.idleIds, void.exited⟩

/-- **The `cleanup` of a connection that waits when the loop exits** has nothing to unregister. -/
theorem cleanup_void : Meets Void (cleanup σ self) (fun _ => Void) NotDangling := by
  have drains := drainInput_void self σ
  have calls : Meets Void (callState σ self) (fun _ => Void) NotDangling :=
    (void_endures self).callState_kept σ (fun _ _ _ _ => trivial)
      (fun _ void _ => ⟨void.gone, void.idleIds, void.exited⟩) fun _ void _ => void
  have cancels : Meets Void (cancelTimeout : Act υ Unit) (fun _ => Void) NotDangling := by
    mvcgen [cancelTimeout, modifyBase]
    case vc1 w void removed timers ran _ =>
      exact ⟨void.gone, void.idleIds, (Timers.exit_cancel ran).trans void.exited⟩
    case vc2 => rintro ⟨⟩
  have reconnects : Meets (fun w => Void w ∧ w.base.exited = false) (reconnect self) (fun _ => Void)
      NotDangling := by
    refine meets_iff.mpr fun w start => ?_
    rw [start.1.exited] at start
    cases start.2
  have unregisters : ∀ ids, Meets (fun w => Void w ∧ ids = []) (unregisterIdles ids : Act υ Unit)
      (fun _ => Void) NotDangling := by
    intro ids
    refine meets_iff.mpr ?_
    rintro w ⟨void, rfl⟩
    exact void
  have detaches : Meets Void (detachChannel self) (fun _ => Void) NotDangling := by
    refine meets_iff.mpr fun w void => ?_
    have ran : (detachChannel self).run w = .ok () { w with con := { w.con with channel := none } } := by
      simp [detachChannel, modifyCon, void.gone.1]
    rw [ran]
    exact ⟨⟨rfl, void.gone.2⟩, void.idleIds, void.exited⟩
  mvcgen [cleanup, modifyCon, drains, cancels, calls, reconnects, unregisters, detaches]
  case vc2 w void _ => exact ⟨⟨void.gone.1, cleaned_final w.con.state⟩, void.idleIds, void.exited⟩
  case vc4 w void going => exact ⟨void, going.2⟩
  case vc5 w void _ => exact ⟨void, void.idleIds⟩
  case vc6 w void _ => exact ⟨void.gone, void.idleIds, void.exited⟩

end Void

/-- The connection is over, and so is the loop: nothing brings the connection back. -/
def Lapsed (w : World υ) : Prop := Gone w ∧ Retired w

section Lapsed

variable (σ : UserCode υ)

/-- A task of the event base finds nothing to do on a connection that is over. -/
theorem runTask_gone (task : BaseTask) :
    Meets (fun w => Gone w ∧ task ≠ .reconnect) (runTask σ task) (fun _ => Gone) NotDangling := by
  refine meets_iff.mpr fun w start => ?_
  obtain ⟨gone, other⟩ := start
  have ran : (runTask σ task).run w = .ok () w := by
    cases task with
    | closeChannel => simp [runTask, gone.1]
    | connectTimeout => simp [runTask, gone.2.1]
    | reconnect => exact absurd rfl other
    | callIdles => rfl
  rw [ran]
  exact gone

/-- **No event of the loop touches the idle callbacks of a lapsed connection.** -/
theorem handleEvent_lapsed {event : Event} (looping : event ≠ .loopExit) :
    Meets Lapsed (handleEvent σ event) (fun _ => Lapsed) NotDangling := by
  have runs := runTask_gone σ
  have reports : ∀ {event : Event}, (∀ w, Gone w → (handleEvent σ event).run w = .ok () w) →
      Meets Lapsed (handleEvent σ event) (fun _ => Gone) NotDangling := by
    intro event rests
    refine meets_iff.mpr fun w lapsed => ?_
    rw [rests w lapsed.1]
    exact lapsed.1
  have stays : Meets Lapsed (handleEvent σ event) (fun _ => Gone) NotDangling := by
    cases event with
    | readable => exact reports fun w gone => by simp [handleEvent, gone.1]
    | writable => exact reports fun w gone => by simp [handleEvent, gone.1]
    | timer =>
        mvcgen [handleEvent, modifyBase, runs]
        case vc1 w lapsed _ _ => exact lapsed.1
        case vc2 => rintro ⟨⟩
        case vc3 w lapsed _ key action next fired timers ran _ =>
          exact ⟨lapsed.1, fun reconnects =>
            lapsed.2.not_redials (.inl ⟨rfl, key, action, fired, timers, next, ran, reconnects⟩)⟩
    | task =>
        mvcgen [handleEvent, modifyBase, runs]
        case vc1 w lapsed _ => exact lapsed.1
        case vc2 w lapsed task tasks queue _ =>
          exact ⟨lapsed.1, fun reconnects =>
            lapsed.2.not_redials (.inr ⟨rfl, by rw [queue, reconnects]; rfl⟩)⟩
    | call op =>
        exact ((gone_endures (onClose σ)).runOp_kept trivial).imp (fun _ lapsed => lapsed.1)
          (fun _ _ done => done) fun _ _ stop => stop
    | elapse milli =>
        mvcgen [handleEvent, modifyBase]
        case vc1 w lapsed _ => exact lapsed.1
    | loopExit => exact absurd rfl looping
    | destroyPoller => exact reports fun w gone => by simp [handleEvent, gone.1]
  exact (stays.and (handleEvent_retired σ event)).imp (fun _ lapsed => ⟨lapsed, lapsed.2⟩)
    (fun _ _ done => done) fun _ _ stop => stop.1

/-- The loop exits on a connection that is over, and that has no ids if it waits for a
reconnect. -/
theorem loopExit_lapsed :
    Meets (fun w => Lapsed (cleared w) ∧ (w.base.reconnectConns = true → w.con.idleIds = []))
      (handleEvent σ .loopExit) (fun _ => Lapsed) NotDangling := by
  have cleans : Meets (fun w => Void w ∧ Retired w) (cleanup σ (onClose σ)) (fun _ => Lapsed)
      NotDangling :=
    ((cleanup_void (onClose σ) σ).and (cleanup_retired (handleRead_retired σ maxNesting) σ)).imp
      (fun _ start => start) (fun _ _ done => ⟨done.1.gone, done.2⟩) fun _ _ stop => stop.1
  mvcgen [handleEvent, modifyBase, record, cleans]
  case vc1 w start exited _ waiting _ =>
    exact ⟨⟨start.1.1, start.2 waiting, exited⟩, start.1.2⟩
  case vc2 w start _ _ _ => exact start.1
  case vc3 w start running => exact absurd start.1.2.1 running

end Lapsed

/-! ## Runs -/

theorem Calm.orderly (calm : Calm w) (running : .exitedWaiting ∉ w.seen.events) : Orderly w := by
  refine List.any_eq_false.mpr fun event member => ?_
  cases event with
  | channelClosed draining =>
      cases draining with
      | false => simp [ConnEvent.disorders]
      | true => exact absurd member calm
  | exitedWaiting => exact absurd member running
  | _ => simp [ConnEvent.disorders]

/-- A reconnect finds that no id was unregistered. -/
theorem Accounted.redial_unreleased (accounted : Accounted w) (orderly : Orderly w) {event : Event}
    (redials : Redials event w) : unregisteredIds w.seen.events = [] := by
  obtain ⟨ledger, finished, -⟩ := accounted orderly
  by_contra released
  have none_pending := finished.2 released
  rcases redials with ⟨-, key, action, fired, timers, next, fires, reconnects⟩ | ⟨-, first⟩
  · have fewer := (ledger.repeats.fire next fires).1
    rw [if_pos reconnects] at fewer
    omega
  · exact ledger.tasks _ (List.mem_of_mem_head? first) rfl

/-- When the loop exits, a connection that is in use or waits for its reconnect has not
registered an idle callback. -/
def Parting (w : World υ) (event : Event) : Prop :=
  event = .loopExit → w.base.exited = true → ¬ Final w ∨ w.base.reconnectConns = true →
    w.con.idleIds = []

/-- What holds between the events. -/
structure Tethered (w : World υ) : Prop where
  settled : Settled w
  accounted : Accounted w
  sound : Calm w → Traceable w ∨ Lapsed w

section Tethered

variable (σ : UserCode υ)

/-- The loop exits on a connection whose ids are traceable. -/
theorem loopExit_traceable :
    Meets (fun w => Traceable w ∧ Settled w ∧ (∀ task ∈ w.base.tasks, task ≠ .reconnect) ∧
        Parting w .loopExit) (handleEvent σ .loopExit) (fun _ w => Traceable w ∨ Lapsed w)
      fun fault w => Doubled fault w ∨ fault ≠ .danglingIdle := by
  refine meets_iff.mpr fun w ⟨traceable, settled, none_queued, parting⟩ => ?_
  by_cases ended : w.base.exited = true ∧ Gone w
  · obtain ⟨exited, gone⟩ := ended
    have lapsed : Lapsed (cleared w) :=
      ⟨gone, exited, rfl, Timers.neverRepeats_clear _ _, none_queued⟩
    exact meets_iff.mp ((loopExit_lapsed σ).imp (fun _ start => start) (fun _ _ done => .inr done)
      fun _ _ stop => .inr stop) w ⟨lapsed, fun waiting => parting rfl exited (.inr waiting)⟩
  · refine meets_iff.mp ((traceable_idling.loopExit_kept σ).imp (fun _ start => start)
      (fun _ _ done => .inl done) fun _ _ stop => .inl stop) w ⟨traceable, fun exited => ?_⟩
    have used : ¬ Final w := fun final => by
      rcases settled with live | gone
      · exact live.2 final
      · exact ended ⟨exited, gone⟩
    have no_ids := parting rfl exited (.inl used)
    refine ⟨⟨traceable.running, traceable.used, fun id issued => ?_⟩, fun waiting => ?_⟩
    · rw [show (cleared w).con.idleIds = [] from no_ids] at issued
      exact absurd issued List.not_mem_nil
    · rw [(traceable.used used).2] at waiting
      cases waiting

/-- **An event on a connection whose ids are traceable** keeps them traceable, or it is the last one. -/
theorem handleEvent_traceable (event : Event) :
    Meets (fun w => Traceable w ∧ Calm w ∧ Settled w ∧ Accounted w ∧ Parting w event)
      (handleEvent σ event) (fun _ w => Traceable w ∨ Lapsed w)
      fun fault w => Doubled fault w ∨ fault ≠ .danglingIdle := by
  refine meets_iff.mpr fun w ⟨traceable, calm, settled, accounted, parting⟩ => ?_
  have orderly := calm.orderly traceable.running
  by_cases exits : event = .loopExit
  · subst exits
    exact meets_iff.mp (loopExit_traceable σ) w ⟨traceable, settled, (accounted orderly).1.tasks, parting⟩
  · exact meets_iff.mp ((traceable_idling.handleEvent_kept σ exits).imp (fun _ start => start)
      (fun _ _ done => .inl done) fun _ _ stop => .inl stop) w
      ⟨traceable, settled, accounted.redial_unreleased orderly⟩

/-- An event on a lapsed connection. -/
theorem handleEvent_stays_lapsed (event : Event) :
    Meets (fun w => Lapsed w ∧ Parting w event) (handleEvent σ event) (fun _ => Lapsed)
      NotDangling := by
  by_cases exits : event = .loopExit
  · subst exits
    refine (loopExit_lapsed σ).imp (fun w start => ?_) (fun _ _ done => done) fun _ _ stop => stop
    obtain ⟨⟨gone, exited, -, -, none_queued⟩, parting⟩ := start
    exact ⟨⟨gone, exited, rfl, Timers.neverRepeats_clear _ _, none_queued⟩,
      fun waiting => parting rfl exited (.inr waiting)⟩
  · exact (handleEvent_lapsed σ exits).imp (fun _ start => start.1) (fun _ _ done => done)
      fun _ _ stop => stop

theorem handleEvent_not_calm (event : Event) :
    Meets (fun w => ¬ Calm w ∧ Settled w) (handleEvent σ event) (fun _ w => ¬ Calm w)
      fun _ w => ¬ Calm w := by
  by_cases exits : event = .loopExit
  · subst exits
    refine (not_calm_idling.loopExit_kept σ).imp (fun w start => ⟨start.1, fun _ => ⟨start.1, fun _ => ?_⟩⟩)
      (fun _ _ done => done) fun _ _ stop => stop
    exact fun calm => start.1 (calm.of_append
      (show (exiting w).seen.events = [.exitedWaiting] ++ w.seen.events from rfl))
  · exact (not_calm_idling.handleEvent_kept σ exits).imp
      (fun _ start => ⟨start.1, start.2, fun _ => trivial⟩) (fun _ _ done => done) fun _ _ stop => stop

/-- **Every event keeps the connection tethered.** -/
theorem handleEvent_tethered (event : Event) :
    Meets (fun w => Tethered w ∧ Parting w event) (handleEvent σ event) (fun _ => Tethered)
      fun fault w => Calm w → fault ≠ .danglingIdle := by
  refine meets_iff.mpr fun w ⟨tethered, parting⟩ => ?_
  have accounts := handleEvent_accounts σ event
  cases ran : (handleEvent σ event).run w with
  | ok _ w' =>
      refine ⟨(handleEvent_settled σ event).ok tethered.settled ran,
        accounts.ok ⟨tethered.accounted, tethered.settled⟩ ran, fun calm => ?_⟩
      have before : Calm w := by
        by_contra hasty
        exact (handleEvent_not_calm σ event).ok ⟨hasty, tethered.settled⟩ ran calm
      rcases tethered.sound before with traceable | lapsed
      · exact (handleEvent_traceable σ event).ok
          ⟨traceable, before, tethered.settled, tethered.accounted, parting⟩ ran
      · exact .inr ((handleEvent_stays_lapsed σ event).ok ⟨lapsed, parting⟩ ran)
  | error fault w' =>
      intro calm
      have before : Calm w := by
        by_contra hasty
        exact (handleEvent_not_calm σ event).fault ⟨hasty, tethered.settled⟩ ran calm
      rcases tethered.sound before with traceable | lapsed
      · rcases (handleEvent_traceable σ event).fault
          ⟨traceable, before, tethered.settled, tethered.accounted, parting⟩ ran with doubled | other
        · -- the dangling id would have been unregistered twice
          intro dangling
          have balanced := accounts.fault ⟨tethered.accounted, tethered.settled⟩ ran
          exact doubled.2 dangling (balanced (calm.orderly doubled.1)).2.2
        · exact other
      · exact (handleEvent_stays_lapsed σ event).fault ⟨lapsed, parting⟩ ran

end Tethered

theorem New.traceable (start : New w) : Traceable w := by
  have nothing : w.seen.events = [] := by rw [start.seen]
  have no_ids : w.con.idleIds = [] := by rw [start.con]; rfl
  refine ⟨?_, fun used => absurd start.gone.2 used, ?_⟩
  · rw [nothing]
    exact List.not_mem_nil
  · simp [no_ids]

theorem Redialled.traceable (redialled : Redialled w w') (start : New w) : Traceable w' := by
  refine traceable_idling.restarts w w' redialled.1 redialled.2 ?_ start.traceable
  rw [start.seen]
  rfl

theorem Opened.tethered {σ : UserCode υ} (opened : Opened σ w) : Tethered w := by
  refine ⟨opened.steady.2, opened.accounted, fun _ => .inl ?_⟩
  cases opened with
  | connect port timeout start ran =>
      exact ((connect_redials _ port timeout _).ok
        ⟨⟨.silent rfl rfl rfl rfl, start.reconnectConns⟩, Gone.settled start.gone⟩ ran).traceable start
  | attach fd start ran =>
      exact ((attach_redials _ fd _).ok
        ⟨⟨.silent rfl rfl rfl rfl, start.reconnectConns⟩, start.gone.1⟩ ran).traceable start

/-- **Idle ids never dangle**: in every run in which no open channel is closed within the read
callback of `cleanup`, and the loop does not exit while a connection that has registered an idle
callback is in use or waits for its reconnect, every call of `updateIdle` and of
`unregisterIdle` finds the node of its id. -/
theorem idle_ids_never_dangle {σ : UserCode υ} {c : ConnConfig υ} {events : List Event}
    (opened : Opened σ w)
    (run : LabelledRun (fun c event c' => ConnStep σ c event c' ∧ Parting c.world event)
      ⟨w, none⟩ events c)
    (no_close : .channelClosed true ∉ c.world.seen.events) : c.stopped ≠ some .danglingIdle := by
  have holds : c.Holds Tethered fun fault w => Calm w → fault ≠ .danglingIdle := by
    refine run.invariant (fun c => c.Holds Tethered fun fault w => Calm w → fault ≠ .danglingIdle) ?_
      opened.tethered
    rintro before event after holds ⟨⟨ran⟩ | ⟨ran⟩, parting⟩
    · exact (handleEvent_tethered σ event).ok ⟨holds, parting⟩ ran
    · exact (handleEvent_tethered σ event).fault ⟨holds, parting⟩ ran
  intro dangling
  rw [ConnConfig.Holds, dangling] at holds
  exact holds no_close rfl

end TcpConn

/-- A server's connection that registers an idle callback. -/
def watched (readcb : Option ReadCallback) (codec : Option Codec) (peer : Bytes)
    (reads : List ReadOutcome) : World Unit :=
  TcpConn.accepted registerWhenConnected (.new readcb false true codec (-1))
    { writes := [], reads := reads, polls := [true], peer := [], laterPeers := [peer], nextFd := 7 } ()

theorem watched_opened (readcb : Option ReadCallback) (codec : Option Codec) (peer : Bytes)
    (reads : List ReadOutcome) :
    TcpConn.Opened registerWhenConnected (watched readcb codec peer reads) :=
  TcpConn.accepted_opened registerWhenConnected readcb false true codec (-1) _ ()

/-- The connection is connected, receives data, is cleaned up, and the loop is told to exit. -/
def useAndEnd : List Event := [.writable, .readable, .readable, .call .exit]

/-- Where the connection is then. -/
def watchedEnd : World Unit :=
  (TcpConn.execute registerWhenConnected (watched none none [1, 2, 3] [.data 2, .eagain, .eof])
    useAndEnd).world

theorem idle_ids_never_dangle_watched :
    let last := (TcpConn.execute registerWhenConnected watchedEnd [.loopExit, .destroyPoller]).world
    last.seen.events.count (.unregistered ⟨30, 0⟩) = 1 ∧
      (⟨last, none⟩ : ConnConfig Unit).stopped ≠ some .danglingIdle := by
  intro last
  have first : LabelledRun (ConnStep registerWhenConnected)
      ⟨watched none none [1, 2, 3] [.data 2, .eagain, .eof], none⟩ useAndEnd ⟨watchedEnd, none⟩ :=
    TcpConn.execute_completes (by decide +kernel)
  have later : LabelledRun (ConnStep registerWhenConnected) ⟨watchedEnd, none⟩
      [.loopExit, .destroyPoller] ⟨last, none⟩ := TcpConn.execute_completes (by decide +kernel)
  have ended : watchedEnd.con.state = .closed ∧ watchedEnd.base.reconnectConns = false := by
    decide +kernel
  have once : last.seen.events.count (.unregistered ⟨30, 0⟩) = 1 ∧
      .channelClosed true ∉ last.seen.events := by decide +kernel
  clear_value last
  refine ⟨once.1, ?_⟩
  generalize watchedEnd = middle at first later ended
  cases later with
  | cons exits destroys =>
      have parting : TcpConn.Parting middle .loopExit := by
        rintro - - (used | waiting)
        · exact absurd ⟨by rw [ended.1]; nofun, by rw [ended.1]; nofun⟩ used
        · rw [ended.2] at waiting
          cases waiting
      refine TcpConn.idle_ids_never_dangle (watched_opened none none _ _)
        ((first.mono fun _ event _ member step => ⟨step, ?_⟩).append
          (.cons ⟨exits, parting⟩ (destroys.mono fun _ event _ member step => ⟨step, ?_⟩))) once.2
      · rintro rfl
        simp at member
      · rintro rfl
        simp [useAndEnd] at member

/-- **The exit of the loop leaves ids that dangle**: the lists are dropped while the connection
is in use, and the destructor of the poller then cleans it up. Malformed input does it too,
without an exit. -/
theorem exit_leaves_dangling_ids :
    (∃ c : ConnConfig Unit, ConnReachable registerWhenConnected c ∧
      c.stopped = some .danglingIdle ∧ .channelClosed true ∉ c.world.seen.events) ∧
    ∃ c : ConnConfig Unit, ConnReachable registerWhenConnected c ∧
      c.stopped = some .danglingIdle ∧ c.world.base.exited = false :=
  ⟨⟨TcpConn.execute registerWhenConnected (watched none none [] [])
      [.writable, .call .exit, .loopExit, .destroyPoller],
      TcpConn.execute_reachable (watched_opened none none [] []) _, by decide +kernel, by decide +kernel⟩,
    ⟨TcpConn.execute registerWhenConnected
        (watched (some .msg) (some lengthCodec) [0, 0, 0, 0, 0, 0, 0, 0] [.data 7, .eof])
        [.writable, .readable],
      TcpConn.execute_reachable (watched_opened _ _ _ _) _, by decide +kernel, by decide +kernel⟩⟩

end Handy
