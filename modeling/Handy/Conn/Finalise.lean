import Handy.Conn.Ledger
import Handy.Conn.Runs

/-!
# Every attach is finalised at most once

Attaches are counted against the calls of the state callback in a closed state. The account is
kept by every program of the connection, from the closing of the channel through `cleanup` to
the handlers and the events, and so by every run in which no open channel is closed while
`cleanup` calls the read callback (`attach_finalised_at_most_once`).
-/

set_option autoImplicit false
set_option mvcgen.warning false

namespace Handy

namespace TcpConn

variable {υ α : Type} {w w' : World υ}

/-- The program keeps the account. -/
abbrev Accounts (program : Act υ α) : Prop :=
  Meets Accounted program (fun _ => Accounted) fun _ => Balanced

/-- What the handler called by `Channel::close` has to do for the account. -/
structure Finalises (handler : Act υ Unit) : Prop where
  rests : ∀ holds : World υ → Prop, (∀ w, holds w → Final w) →
    Meets holds handler (fun _ => holds) fun _ => holds
  accounts : Accounts handler
  grows : Grows handler

/-- A disorderly run stays disorderly. -/
theorem Grows.disorderly {program : Act υ α} (grows : Grows program) :
    Meets (fun w => ¬ Orderly w) program (fun _ w => ¬ Orderly w) fun _ w => ¬ Orderly w := by
  refine meets_iff.mpr fun w disorderly => ?_
  have recorded : Recorded w.seen.events w := List.suffix_rfl
  cases ran : program.run w with
  | ok a w' =>
      obtain ⟨new, same⟩ := (grows w.seen.events).ok recorded ran
      exact fun orderly => disorderly (Orderly.of_append same.symm orderly)
  | error fault w' =>
      obtain ⟨new, same⟩ := (grows w.seen.events).fault recorded ran
      exact fun orderly => disorderly (Orderly.of_append same.symm orderly)

/-- A property that steps of no account keep. -/
structure Unaccountable (holds : World υ → Prop) : Prop where
  plain : ∀ w w', Plain w w' → w'.con.state = w.con.state →
    w'.seen.draining = w.seen.draining → holds w → holds w'
  balanced : ∀ w, holds w → Balanced w

theorem final_of_same (same : w'.con.state = w.con.state) : Final w' ↔ Final w := by
  unfold Final
  rw [same]

theorem accounted_unaccountable : Unaccountable (υ := υ) Accounted where
  plain _ _ plain same _ := plain.accounted fun used final => used ((final_of_same same).mpr final)
  balanced _ := Accounted.balanced

theorem draining_unaccountable : Unaccountable (υ := υ) Draining where
  plain _ _ plain same draining :=
    plain.drains (fun used final => used ((final_of_same same).mp final)) draining
  balanced _ := Draining.balanced

theorem ended_unaccountable : Unaccountable (υ := υ) Ended where
  plain _ _ plain same _ := plain.ended (final_of_same same).mpr
  balanced _ := Ended.balanced

theorem concluded_unaccountable : Unaccountable (υ := υ) Concluded where
  plain _ _ plain same _ := plain.concluded (final_of_same same).mpr
  balanced _ := Concluded.balanced

section Nested

variable {self : Act υ Unit} (finalises : Finalises self) (σ : UserCode υ)

/-! ## Closing the channel -/

theorem Unaccountable.of_sends {holds : World υ → Prop} (unaccountable : Unaccountable holds)
    {program : Act υ α} (moves : Moves Sends program) :
    Meets holds program (fun _ => holds) fun _ => Balanced :=
  (moves.keeps Sends.refl fun w w' before sends =>
    unaccountable.plain w w' (.of_sends sends) sends.state sends.draining before).imp
      (fun _ before => before) (fun _ _ after => after) fun _ => unaccountable.balanced

theorem Unaccountable.withstands {holds : World υ → Prop} (unaccountable : Unaccountable holds)
    (closes : Meets holds (closeChannel self) (fun _ => holds) fun _ => Balanced) :
    Withstands self holds fun _ => Balanced where
  sends _ sending := unaccountable.of_sends (runOp_sends self sending)
  closes := closes
  tweaks w w' tweak before := by
    refine unaccountable.plain w w' (.tweaked tweak) ?_ ?_ before <;> cases tweak <;> rfl
  stops _ w _ _ before := unaccountable.balanced w before

/-- The record of a closed channel is of no account. -/
theorem plain_closed {draining : Bool}
    (events : w'.seen.events = .channelClosed draining :: w.seen.events)
    (idleIds : w'.con.idleIds = w.con.idleIds) (nextIdle : w'.base.nextIdle = w.base.nextIdle)
    (timers : w'.base.timers = w.base.timers) (tasks : w'.base.tasks = w.base.tasks) :
    Plain w w' :=
  .recorded (show (ConnEvent.channelClosed draining).plain = true from rfl) events idleIds nextIdle
    timers tasks

section Rest

variable {holds : World υ → Prop} (unaccountable : Unaccountable holds)
  (final : ∀ w, holds w → Final w)

include finalises unaccountable final

/-- In a final state the handler does nothing, so that closing is of no account. -/
theorem closeChannel_rests :
    Meets holds (closeChannel self) (fun _ => holds) fun _ => Balanced := by
  have rests := finalises.rests holds final
  mvcgen [closeChannel, getChannel, closeFd, record, modifyCon, modifyBase, rests]
  case vc1 w before ch channel opened _ _ _ =>
    exact unaccountable.plain w _ (plain_closed rfl rfl rfl rfl rfl) rfl rfl before
  case vc2 => exact id
  case vc3 => exact unaccountable.balanced _
  case vc5 w before _ => exact unaccountable.balanced w before

theorem deleteChannel_rests :
    Meets holds (deleteChannel self) (fun _ => holds) fun _ => Balanced := by
  have closes := closeChannel_rests finalises unaccountable final
  mvcgen [deleteChannel, modifyCon, closes]
  case vc2 w before _ =>
    exact unaccountable.plain w _ (.silent rfl rfl rfl rfl rfl) rfl rfl before

theorem detachChannel_rests :
    Meets holds (detachChannel self) (fun _ => holds) fun _ => Balanced := by
  have rests := finalises.rests holds final
  mvcgen [detachChannel, closeFd, record, modifyCon, modifyBase, rests]
  case vc1 w before _ _ _ =>
    exact unaccountable.plain w _ (.silent rfl rfl rfl rfl rfl) rfl rfl before
  case vc2 w before _ _ ch channel opened _ _ =>
    exact unaccountable.plain w _ (plain_closed rfl rfl rfl rfl rfl) rfl rfl before
  case vc3 => exact id
  case vc4 => exact unaccountable.balanced _
  case vc5 w before _ _ _ _ _ =>
    exact unaccountable.plain w _ (.silent rfl rfl rfl rfl rfl) rfl rfl before

end Rest

include finalises

theorem closeChannel_accounts : Accounts (closeChannel self) := by
  have accounts := finalises.accounts
  mvcgen [closeChannel, getChannel, closeFd, record, modifyCon, modifyBase, accounts]
  case vc1 w accounted ch channel opened _ _ _ =>
    exact Plain.accounted (w := w) (plain_closed rfl rfl rfl rfl rfl) id accounted
  case vc3 w accounted _ => exact accounted.balanced

/-- Within the read callback of `cleanup`, closing an open channel is out of order. -/
theorem closeChannel_drains :
    Meets Draining (closeChannel self) (fun _ => Draining) fun _ => Balanced := by
  have breaks : Meets (fun w => ¬ Orderly w) self (fun _ => Draining) fun _ => Balanced :=
    finalises.grows.disorderly.imp (fun _ before => before)
      (fun _ _ disorderly orderly => absurd orderly disorderly)
      fun _ _ disorderly orderly => absurd orderly disorderly
  mvcgen [closeChannel, getChannel, closeFd, record, modifyCon, modifyBase, breaks]
  case vc1 w draining ch channel opened _ _ _ =>
    intro orderly
    obtain ⟨-, -, -, drains⟩ := draining (Orderly.of_cons rfl orderly)
    exact List.any_eq_false.mp orderly (.channelClosed w.seen.draining) List.mem_cons_self drains
  case vc3 w draining _ => exact draining.balanced

/-! ## `cleanup` -/

omit finalises in
theorem Draining.drained (draining : Draining w) : Drained w := by
  intro orderly
  obtain ⟨ledger, untouched, used, -⟩ := draining orderly
  exact ⟨ledger, untouched, used⟩

omit finalises in
/-- A used state has an untouched account. -/
theorem Accounted.drained (accounted : Accounted w) (used : ¬ Final w) : Drained w := by
  intro orderly
  obtain ⟨ledger, -, untouched⟩ := accounted orderly
  exact ⟨ledger, untouched used, used⟩

theorem drainInput_drains :
    Meets (fun w => Accounted w ∧ ¬ Final w) (drainInput σ self) (fun _ => Drained)
      fun _ => Balanced := by
  have reads := (draining_unaccountable.withstands (closeChannel_drains finalises)).callRead_kept σ
  mvcgen [drainInput, setDraining, reads]
  case vc1 w start _ _ =>
    have drained : Drained { w with seen := { w.seen with draining := true } } :=
      Plain.drained (w := w) (.silent rfl rfl rfl rfl rfl) id (start.1.drained start.2)
    exact fun orderly => ⟨(drained orderly).1, (drained orderly).2.1, (drained orderly).2.2, rfl⟩
  case vc2 w draining _ =>
    exact Plain.drained (w := w) (.silent rfl rfl rfl rfl rfl) id draining.drained
  case vc3 w start _ => exact start.1.drained start.2

omit finalises in
theorem cancelTimeout_ends :
    Meets Ending (cancelTimeout : Act υ Unit) (fun _ => Ending) fun _ => Balanced := by
  mvcgen [cancelTimeout, modifyBase]
  case vc1 w ending removed timers cancelled _ =>
    refine Plain.ending (w := w) ⟨fun distinct below => ⟨distinct, below⟩, ?_, ?_, id, [], by simp, rfl⟩
      ending.1 ending.2
    · exact Timers.pending_cancel cancelled
    · exact fun never => never.cancel cancelled
  case vc2 w ending _ _ => exact ending.balanced

omit finalises in
/-- An event that counts is recorded. -/
theorem Ledger.record (ledger : Ledger w) {event : ConnEvent}
    (finals : event.attaches = true ∨ event.finalises = false ∨
      countFirst ConnEvent.attaches ConnEvent.finalises w.seen.events = 0)
    (reconnects : event.attaches = true ∨ event.reconnects = false ∨
      countFirst ConnEvent.attaches ConnEvent.reconnects w.seen.events = 0)
    (unregistered : ∀ id, event.unregisters = some id → id ∉ unregisteredIds w.seen.events) :
    Ledger { w with seen := { w.seen with events := event :: w.seen.events } } := by
  refine ⟨ledger.finals.cons finals, ledger.reconnects.cons reconnects, ?_, ledger.idleIds,
    ledger.issued, ledger.repeats, ledger.tasks⟩
  cases named : event.unregisters with
  | none =>
      rw [unregisteredIds_cons_of_none named]
      exact ledger.unregistered
  | some id =>
      have same : unregisteredIds (event :: w.seen.events) =
          id :: unregisteredIds w.seen.events := by simp [unregisteredIds, named]
      rw [same]
      exact List.nodup_cons.mpr ⟨unregistered id named, ledger.unregistered⟩

theorem callState_ends :
    Meets Ending (callState σ self) (fun _ => Ended) fun _ => Balanced := by
  have withstands := ended_unaccountable.withstands
    (closeChannel_rests finalises ended_unaccountable fun _ ended => ended.1)
  refine withstands.callState_kept σ (fun w ending _ => ?_) fun w ending _ => ending.ended
  refine ⟨ending.1, fun orderly => ?_⟩
  obtain ⟨ledger, unfinished, none_yet⟩ :=
    ending.2 (Orderly.of_cons rfl orderly)
  refine ⟨ledger.record (.inr (.inr none_yet)) (.inr (.inl rfl)) ?_, ?_, ?_, unfinished.pending⟩
  · rintro id ⟨⟩
  · exact (countFirst_cons_of_not_counts rfl rfl).trans unfinished.reconnects
  · exact (unregisteredIds_cons_of_none rfl).trans unfinished.unregistered

omit finalises in
/-- The reconnect is scheduled: one timer is due, and it is the first since `attach`. -/
theorem Ended.rescheduled (ended : Ended w) (milli : ℤ) (waiting : Bool) :
    Concluded { w with
      base := ({ w.base with reconnectConns := waiting }.runAfter milli .reconnect 0).2
      seen := { w.seen with events := .reconnectScheduled :: w.seen.events } } := by
  refine ⟨ended.1, fun orderly => ?_⟩
  obtain ⟨ledger, unfinished⟩ :=
    ended.2 (Orderly.of_cons rfl orderly)
  have pending := Timers.pending_runAt w.base.timers (w.base.timers.clock + milli) .reconnect 0
    .reconnect
  rw [unfinished.pending] at pending
  have recorded : Ledger { w with
      seen := { w.seen with events := .reconnectScheduled :: w.seen.events } } := by
    refine ledger.record (.inr (.inl rfl)) (.inr (.inr unfinished.reconnects)) ?_
    rintro id ⟨⟩
  refine ⟨⟨recorded.finals, recorded.reconnects, recorded.unregistered, recorded.idleIds,
    recorded.issued, ledger.repeats.runAt _ fun nonzero => absurd rfl nonzero, ledger.tasks⟩,
    pending, ?_⟩
  intro some_gone
  exact absurd ((unregisteredIds_cons_of_none rfl).trans unfinished.unregistered) some_gone

theorem reconnect_concludes :
    Meets Ended (reconnect self) (fun _ => Concluded) fun _ => Balanced := by
  have deletes := deleteChannel_rests finalises concluded_unaccountable fun _ concluded => concluded.1
  mvcgen [reconnect, record, deletes]
  case vc1 w ended _ _ _ => exact ended.rescheduled _ true

omit finalises in
theorem handyUnregisterIdle_concludes (id : IdleId) (rest : List IdleId) :
    Meets (Unregistering (id :: rest)) (handyUnregisterIdle id : Act υ Unit)
      (fun _ => Unregistering rest) fun _ => Balanced := by
  have recorded : ∀ w : World υ, Unregistering (id :: rest) w → Unregistering rest { w with
      seen := { w.seen with events := .unregistered id :: w.seen.events } } := by
    intro w start
    refine ⟨start.1, fun orderly => ?_⟩
    obtain ⟨ledger, none_pending, distinct, unseen⟩ := start.2 (Orderly.of_cons rfl orderly)
    obtain ⟨other, distinct'⟩ := List.nodup_cons.mp distinct
    refine ⟨ledger.record (.inr (.inl rfl)) (.inr (.inl rfl)) ?_, none_pending, distinct', ?_⟩
    · rintro _ ⟨⟩
      exact unseen id List.mem_cons_self
    · intro later member seen
      rcases List.mem_cons.mp (show later ∈ id :: unregisteredIds w.seen.events from seen) with
        rfl | before
      · exact other member
      · exact unseen later (List.mem_cons_of_mem _ member) before
  mvcgen [handyUnregisterIdle, record]
  case vc1 w start _ base found _ =>
    obtain ⟨idleConns, rfl⟩ := EventBase.unregisterIdle_frame found
    obtain ⟨final, after⟩ := recorded w start
    refine ⟨final, fun orderly => ?_⟩
    obtain ⟨ledger, others⟩ := after orderly
    exact ⟨Plain.ledger (w := { w with seen := _ }) (.silent rfl rfl rfl rfl rfl) ledger, others⟩
  case vc2 w start _ _ =>
    exact fun orderly => ((recorded w start).2 orderly).1.balanced

omit finalises in
/-- The loop over `idleIds_` unregisters ids that are distinct and were not unregistered
before. -/
theorem unregisterIdles_concludes (ids : List IdleId) :
    Meets (Unregistering ids) (unregisterIdles ids : Act υ Unit) (fun _ => Concluded)
      fun _ => Balanced := by
  induction ids with
  | nil =>
      mvcgen [unregisterIdles]
      case vc1 w start =>
        refine ⟨start.1, fun orderly => ?_⟩
        obtain ⟨ledger, none_pending, -⟩ := start.2 orderly
        exact ⟨ledger, none_pending.le.trans (Nat.zero_le 1), fun _ => none_pending⟩
  | cons id rest ih =>
      have first : Meets _ (handyUnregisterIdle id : Act υ Unit) _ _ :=
        handyUnregisterIdle_concludes id rest
      mvcgen [unregisterIdles, first, ih]

/-- **`cleanup` settles the account** of a connection that is used. -/
theorem cleanup_accounts :
    Meets (fun w => Accounted w ∧ ¬ Final w) (cleanup σ self) (fun _ => Accounted)
      fun _ => Balanced := by
  have drains := drainInput_drains finalises σ
  have cancels : Meets Ending (cancelTimeout : Act υ Unit) _ _ := cancelTimeout_ends
  have calls := callState_ends finalises σ
  have reconnects := reconnect_concludes finalises
  have unregisters : ∀ ids, Meets _ (unregisterIdles ids : Act υ Unit) _ _ :=
    unregisterIdles_concludes
  have detaches := detachChannel_rests finalises concluded_unaccountable
    fun _ concluded => concluded.1
  mvcgen [cleanup, modifyCon, drains, cancels, calls, reconnects, unregisters, detaches]
  case vc2 w drained _ =>
    exact Plain.ending (w := w) (.silent rfl rfl rfl rfl rfl) (cleaned_final w.con.state)
      fun orderly => ⟨(drained orderly).1, (drained orderly).2.1⟩
  case vc5 => exact Concluded.accounted
  case vc6 w ended _ =>
    refine ⟨ended.1, fun orderly => ?_⟩
    obtain ⟨ledger, unfinished⟩ := ended.2 orderly
    exact ⟨ledger, unfinished.pending, ledger.idleIds, by simp [unfinished.unregistered]⟩
  case vc7 w concluded _ => exact Plain.concluded (w := w) (.silent rfl rfl rfl rfl rfl) id concluded
  case vc8 => exact Concluded.accounted

/-! ## The handlers -/

theorem accounted_withstands : Withstands self Accounted fun _ => Balanced :=
  accounted_unaccountable.withstands (closeChannel_accounts finalises)

omit finalises in
theorem completeHandshake_accounts :
    Meets (fun w => Accounted w ∧ ¬ Final w) (completeHandshake : Act υ Unit)
      (fun _ w => Accounted w ∧ w.con.state = .connected) fun _ => Balanced := by
  have shaken : ∀ pending fd live,
      ∀ event ∈ [ConnEvent.updated fd live, .handshaken pending], event.plain = true := by
    intro pending fd live event member
    simp only [List.mem_cons, List.not_mem_nil, or_false] at member
    rcases member with rfl | rfl <;> rfl
  mvcgen [completeHandshake, enableReadWrite, getChannel, updateChannel, record, modifyCon,
    modifyBase]
  case vc1 w start _ _ _ _ _ _ _ _ _ _ =>
    exact ⟨Plain.accounted (w := w) (.noted _ (shaken _ _ _) rfl rfl rfl rfl rfl) (fun _ => start.2)
      start.1, rfl⟩
  case vc2 w start _ _ _ _ _ _ _ =>
    exact Accounted.balanced
      (Plain.accounted (w := w) (.noted _ (shaken _ _ _) rfl rfl rfl rfl rfl) id start.1)
  case vc3 w start _ _ =>
    have plain : ∀ pending, (ConnEvent.handshaken pending).plain = true := fun _ => rfl
    exact Accounted.balanced
      (Plain.accounted (w := w) (.recorded (plain _) rfl rfl rfl rfl rfl) id start.1)

theorem handleHandshake_accounts : Accounts (handleHandshake σ self) := by
  have calls : Meets (fun w => Accounted w ∧ w.con.state = .connected) (callState σ self)
      (fun _ => Accounted) fun _ => Balanced := by
    refine (accounted_withstands finalises).callState_kept σ (fun w start _ => ?_)
      fun w start _ => start.1
    refine Plain.accounted (w := w) (.recorded ?_ rfl rfl rfl rfl rfl) id start.1
    rw [start.2]
    rfl
  have completes : Meets _ (completeHandshake : Act υ Unit) _ _ := completeHandshake_accounts
  have cleans := cleanup_accounts finalises σ
  have used : ∀ w : World υ, ¬ w.con.state ≠ .handshaking → ¬ Final w :=
    fun w shaking final => shaking final.1
  mvcgen [handleHandshake, getChannel, poll, completes, calls, cleans]
  case vc1 w accounted _ _ => exact accounted.balanced
  case vc4 w accounted _ shaking _ _ _ _ => exact ⟨accounted, used w shaking⟩
  case vc7 w accounted _ shaking _ _ _ _ _ => exact ⟨accounted, used w shaking⟩
  case vc8 w accounted _ shaking _ _ _ _ _ _ _ _ =>
    exact ⟨Plain.accounted (w := w) (.silent rfl rfl rfl rfl rfl) id accounted, used w shaking⟩
  case vc10 w accounted _ shaking _ _ _ _ _ _ _ _ =>
    exact ⟨Plain.accounted (w := w) (.silent rfl rfl rfl rfl rfl) id accounted, used w shaking⟩
  case vc11 w accounted _ _ _ => exact accounted.balanced

omit finalises in
theorem updateIdles_accounts (ids : List IdleId) : Accounts (updateIdles ids : Act υ Unit) := by
  induction ids with
  | nil => mvcgen [updateIdles]
  | cons id rest ih =>
      have first : Accounts (handyUpdateIdle id : Act υ Unit) := by
        mvcgen [handyUpdateIdle]
        case vc1 w accounted base found _ =>
          obtain ⟨idleConns, rfl⟩ := EventBase.updateIdle_frame found
          exact Plain.accounted (w := w) (.silent rfl rfl rfl rfl rfl) (fun still => still) accounted
        case vc2 w accounted _ => exact accounted.balanced
      mvcgen [updateIdles, first, ih]

theorem readConnected_accounts :
    Meets (fun w => Accounted w ∧ ¬ Final w) (readConnected σ self) (fun _ => Accounted)
      fun _ => Balanced := by
  have cleans := cleanup_accounts finalises σ
  have updates : ∀ ids, Accounts (updateIdles ids : Act υ Unit) := updateIdles_accounts
  have reads := (accounted_withstands finalises).callRead_kept σ
  mvcgen [readConnected, getChannel, modifyCon, cleans, updates, reads]
  case vc1 w start _ _ _ _ =>
    exact ⟨Plain.accounted (w := w) (.silent rfl rfl rfl rfl rfl) id start.1, start.2⟩
  case vc2 w start _ _ _ _ _ =>
    exact ⟨Plain.accounted (w := w) (.silent rfl rfl rfl rfl rfl) id start.1, start.2⟩
  case vc3 w start _ _ _ _ _ => exact Plain.accounted (w := w) (.silent rfl rfl rfl rfl rfl) id start.1
  case vc6 w start _ => exact start.1.balanced

theorem handleReadOnce_accounts : Accounts (handleReadOnce σ self) := by
  have shakes := handleHandshake_accounts finalises σ
  have reads := readConnected_accounts finalises σ
  mvcgen [handleReadOnce, shakes, reads]
  case vc2 accounted connected => exact ⟨accounted, fun final => final.2 connected⟩
  case vc5 accounted _ _ connected => exact ⟨accounted, fun final => final.2 connected⟩

theorem handleWrite_accounts : Accounts (handleWrite σ self) := by
  have shakes := handleHandshake_accounts finalises σ
  have calls := (accounted_withstands finalises).callUser_kept σ
  have flushes : Accounts (flushOutput : Act υ Unit) :=
    accounted_unaccountable.of_sends flushOutput_sends
  have stops : Accounts (stopWriting : Act υ Unit) :=
    accounted_unaccountable.of_sends stopWriting_sends
  mvcgen [handleWrite, shakes, flushes, calls, stops]

end Nested

/-- `handleRead` keeps the account, and does nothing in a final state. -/
theorem handleRead_finalises (σ : UserCode υ) (depth : ℕ) : Finalises (handleRead σ depth) := by
  induction depth with
  | zero =>
      refine ⟨fun holds _ => ?_, ?_, handleRead_grows σ 0⟩
      · mvcgen [handleRead]
      · mvcgen [handleRead]
        case vc1 w accounted => exact accounted.balanced
  | succ depth ih =>
      refine ⟨fun holds final => meets_iff.mpr fun w before => ?_, handleReadOnce_accounts ih σ,
        handleRead_grows σ (depth + 1)⟩
      have ran : (handleRead σ (depth + 1)).run w = .ok () w :=
        handleReadOnce_final σ (handleRead σ depth) (final w before)
      rw [ran]
      exact before

/-! ## Connecting -/

/-- The account is that of a connection that may be used again. -/
def Reusable (w : World υ) : Prop :=
  Orderly w → Ledger w ∧ unregisteredIds w.seen.events = [] ∧
    w.base.timers.pending .reconnect = 0

theorem Reusable.balanced (reusable : Reusable w) : Balanced w :=
  fun orderly => (reusable orderly).1.balanced

theorem Plain.reusable (plain : Plain w w') (reusable : Reusable w) : Reusable w' := by
  intro orderly
  obtain ⟨ledger, unregistered, none_pending⟩ := reusable (plain.orderly orderly)
  obtain ⟨new, each, events⟩ := plain.events
  refine ⟨plain.ledger ledger, ?_, Nat.le_zero.mp (none_pending ▸ plain.pending)⟩
  rw [events, unregisteredIds_plain each, unregistered]

/-- A new segment of the account begins. -/
theorem Reusable.attached (reusable : Reusable w) :
    Accounted { w with seen := { w.seen with events := .attached :: w.seen.events } } := by
  intro orderly
  obtain ⟨ledger, unregistered, none_pending⟩ := reusable (Orderly.of_cons rfl orderly)
  have recorded : Ledger { w with seen := { w.seen with events := .attached :: w.seen.events } } := by
    refine ledger.record (.inl rfl) (.inl rfl) ?_
    rintro id ⟨⟩
  have unfinished : Unfinished { w with
      seen := { w.seen with events := .attached :: w.seen.events } } :=
    ⟨countFirst_cons_of_separates rfl, (unregisteredIds_cons_of_none rfl).trans unregistered,
      none_pending⟩
  exact ⟨recorded, unfinished.finished, fun _ => ⟨unfinished, countFirst_cons_of_separates rfl⟩⟩

theorem attach_accounts (self : Act υ Unit) (fd : ℤ) :
    Meets (fun w => w.con.channel = none ∧ Reusable w) (attach self fd) (fun _ => Accounted)
      fun _ => Balanced := by
  have deletes : Meets (fun w => w.con.channel = none ∧ Reusable w) (deleteChannel self)
      (fun _ w => w.con.channel = none ∧ Reusable w) fun _ => Balanced := by
    refine meets_iff.mpr fun w start => ?_
    rw [deleteChannel_absent start.1]
    exact start
  mvcgen [attach, modifyCon, record, deletes]
  case vc1 w start _ _ _ => exact start.2.balanced
  case vc2 w start _ _ _ _ =>
    exact ⟨start.1, Plain.reusable (w := w) (.silent rfl rfl rfl rfl rfl) start.2⟩
  case vc3 w start _ _ => exact start.2.balanced
  case vc4 w start _ _ _ _ _ =>
    exact Plain.accounted
      (w := { w with seen := { w.seen with events := .attached :: w.seen.events } })
      (.silent rfl rfl rfl rfl rfl) id start.2.attached

theorem connect_accounts (self : Act υ Unit) (port timeout : ℤ) :
    Meets (fun w => Settled w ∧ Reusable w) (connect self port timeout) (fun _ => Accounted)
      fun _ => Balanced := by
  have attaches := attach_accounts self
  mvcgen [connect, attaches]
  case vc1 w start _ _ _ => exact start.2.balanced
  case vc2 w start state _ idle _ _ =>
    refine ⟨?_, Plain.reusable (w := w) (.silent rfl rfl rfl rfl rfl) start.2⟩
    rcases start.1 with live | gone
    · refine absurd ⟨?_, ?_⟩ live.2 <;> intro same <;> simp [state, same] at idle
    · exact gone.1
  case vc3 w accounted _ =>
    have timed := Plain.of_runAfter w timeout 0 (show BaseTask.connectTimeout ≠ .reconnect by decide)
    exact Plain.accounted (w := { w with base := (w.base.runAfter timeout .connectTimeout 0).2 })
      (.silent rfl rfl rfl rfl rfl) id (timed.accounted id accounted)

/-! ## Events -/

section Events

variable (σ : UserCode υ)

/-- A task of the event base keeps the account, when a reconnect finds it reusable. -/
theorem runTask_accounts (task : BaseTask) :
    Meets (fun w => Accounted w ∧ Settled w ∧ (task = .reconnect → Reusable w)) (runTask σ task)
      (fun _ => Accounted) fun _ => Balanced := by
  have finalises : Finalises (onClose σ) := handleRead_finalises σ maxNesting
  have shut := closeChannel_accounts finalises
  cases task with
  | closeChannel =>
      mvcgen [runTask, shut]
      case vc1 start _ => exact start.1
      case vc2 start _ => exact start.1
  | connectTimeout =>
      mvcgen [runTask, shut]
      case vc1 start _ => exact start.1
      case vc2 start _ => exact start.1
  | reconnect =>
      have connects := connect_accounts (onClose σ)
      mvcgen [runTask, modifyBase, connects]
      case vc1 w _ con start =>
        exact ⟨start.2.1, Plain.reusable (w := w) (.silent rfl rfl rfl rfl rfl) start.2.2⟩
  | callIdles =>
      mvcgen [runTask]
      case vc1 start => exact start.1

/-- A timer that fires is of no account, and a reconnect that fires was the only one due. -/
theorem Accounted.fired (accounted : Accounted w) {key : TimerId} {action : TimerAction BaseTask}
    {fired : Fired BaseTask} {timers : Timers BaseTask}
    (next : w.base.timers.due w.base.timers.clock = some (key, action))
    (ran : w.base.timers.fire key action = .ok (fired, timers)) :
    Accounted { w with base := { w.base with timers := timers } } ∧
      (fired.task = .reconnect →
        Reusable { w with base := { w.base with timers := timers } }) := by
  have fewer : Ledger w → (timers.pending .reconnect + if fired.task = .reconnect then 1 else 0) ≤
      w.base.timers.pending .reconnect ∧ timers.NeverRepeats .reconnect :=
    fun ledger => ledger.repeats.fire next ran
  have plain : Ledger w → Plain w { w with base := { w.base with timers := timers } } :=
    fun ledger => ⟨fun distinct below => ⟨distinct, below⟩,
      (Nat.le_add_right _ _).trans (fewer ledger).1, fun _ => (fewer ledger).2, id, [], by simp, rfl⟩
  refine ⟨fun orderly => ?_, fun reconnects orderly => ?_⟩
  · have ledger := (accounted orderly).1
    exact (plain ledger).accounted id accounted orderly
  · obtain ⟨ledger, finished, -⟩ := accounted orderly
    have gone := (fewer ledger).1
    rw [if_pos reconnects] at gone
    refine ⟨(plain ledger).ledger ledger, ?_, ?_⟩
    · by_contra some_gone
      have none_due := finished.2 some_gone
      omega
    · have one_due := finished.1
      show timers.pending .reconnect = 0
      omega

/-- A task is taken off the queue, where no reconnect waits. -/
theorem Accounted.dequeued (accounted : Accounted w) {task : BaseTask} {tasks : List BaseTask}
    (queue : w.base.tasks = task :: tasks) :
    Accounted { w with base := { w.base with tasks := tasks } } ∧
      (task = .reconnect → Reusable { w with base := { w.base with tasks := tasks } }) := by
  have plain : Plain w { w with base := { w.base with tasks := tasks } } := by
    refine ⟨fun distinct below => ⟨distinct, below⟩, le_rfl, id, fun none_reconnects other member => ?_,
      [], by simp, rfl⟩
    rw [queue] at none_reconnects
    exact none_reconnects other (List.mem_cons_of_mem _ member)
  refine ⟨plain.accounted id accounted, fun reconnects orderly => ?_⟩
  have none_waits := (accounted orderly).1.tasks
  rw [queue] at none_waits
  exact absurd reconnects (none_waits task List.mem_cons_self)

/-- **Every event keeps the account.** -/
theorem handleEvent_accounts (event : Event) :
    Meets (fun w => Accounted w ∧ Settled w) (handleEvent σ event) (fun _ => Accounted)
      fun _ => Balanced := by
  have finalises : Finalises (onClose σ) := handleRead_finalises σ maxNesting
  have shut := closeChannel_accounts finalises
  have runs := runTask_accounts σ
  cases event with
  | readable =>
      have reads := (handleRead_finalises σ (maxNesting + 1)).accounts
      mvcgen [handleEvent, reads]
      case vc1 start _ => exact start.1
      case vc2 start _ => exact start.1
  | writable =>
      have writes := handleWrite_accounts finalises σ
      mvcgen [handleEvent, writes]
      case vc1 start _ => exact start.1
      case vc2 start _ => exact start.1
  | timer =>
      mvcgen [handleEvent, modifyBase, runs]
      case vc1 w start _ _ => exact start.1
      case vc2 w start _ _ _ _ _ _ => exact start.1.balanced
      case vc3 w start _ key action next fired timers ran _ =>
        obtain ⟨accounted, reusable⟩ := start.1.fired next ran
        exact ⟨accounted, start.2, reusable⟩
  | task =>
      mvcgen [handleEvent, modifyBase, runs]
      case vc1 w start _ => exact start.1
      case vc2 w start task tasks queue _ =>
        obtain ⟨accounted, reusable⟩ := start.1.dequeued queue
        exact ⟨accounted, start.2, reusable⟩
  | call op =>
      exact ((accounted_withstands finalises).runOp_kept op).imp (fun _ start => start.1)
        (fun _ _ done => done) fun _ _ stop => stop
  | elapse milli =>
      mvcgen [handleEvent, modifyBase]
      case vc1 w start _ =>
        exact Plain.accounted (w := w)
          ⟨fun distinct below => ⟨distinct, below⟩, le_rfl, id, id, [], by simp, rfl⟩ id start.1
  | loopExit =>
      have breaks : Meets (fun w => ¬ Orderly w) (cleanup σ (onClose σ)) (fun _ => Accounted)
          fun _ => Balanced :=
        (cleanup_grows finalises.grows σ).disorderly.imp (fun _ before => before)
          (fun _ _ disorderly orderly => absurd orderly disorderly)
          fun _ _ disorderly orderly => absurd orderly disorderly
      mvcgen [handleEvent, modifyBase, record, breaks]
      case vc1 w start _ _ _ _ => exact Bool.noConfusion
      case vc2 w start _ _ _ =>
        exact Plain.accounted (w := w)
          ⟨fun distinct below => ⟨distinct, below⟩, Nat.zero_le _, fun _ => Timers.neverRepeats_clear _ _,
            id, [], by simp, rfl⟩ id start.1
      case vc3 w start _ => exact start.1
  | destroyPoller =>
      mvcgen [handleEvent, shut]
      case vc1 start _ => exact start.1
      case vc2 start _ => exact start.1

end Events

/-! ## Runs -/

theorem New.reusable (start : New w) : Reusable w := by
  intro _
  have nothing : w.seen.events = [] := by rw [start.seen]
  have no_ids : w.con.idleIds = [] := by rw [start.con]; rfl
  refine ⟨⟨?_, ?_, ?_, ?_, ?_, ?_, ?_⟩, ?_, ?_⟩
  · rw [nothing]
    exact onceBetween_nil
  · rw [nothing]
    exact onceBetween_nil
  · rw [nothing]
    exact List.nodup_nil
  · rw [no_ids]
    exact List.nodup_nil
  · simp [no_ids]
  · intro entry member
    rw [start.timerReps] at member
    exact absurd member List.not_mem_nil
  · simp [start.tasks]
  · rw [nothing]
    rfl
  · rw [Timers.pending, start.timers]
    rfl

theorem Opened.accounted {σ : UserCode υ} (opened : Opened σ w) : Accounted w := by
  cases opened with
  | connect port timeout start ran =>
      exact (connect_accounts _ port timeout).ok ⟨Gone.settled start.gone, start.reusable⟩ ran
  | attach fd start ran => exact (attach_accounts _ fd).ok ⟨start.gone.1, start.reusable⟩ ran

end TcpConn

variable {υ : Type}

theorem ConnReachable.balanced {σ : UserCode υ} {c : ConnConfig υ} (reachable : ConnReachable σ c) :
    TcpConn.Balanced c.world := by
  have holds : c.Holds (fun w => TcpConn.Accounted w ∧ TcpConn.Settled w)
      fun _ => TcpConn.Balanced := by
    refine reachable.invariant (fun w opened => ⟨opened.accounted, opened.steady.2⟩) fun event => ?_
    have both := (TcpConn.handleEvent_accounts σ event).and (TcpConn.handleEvent_settled σ event)
    exact both.imp (fun w start => ⟨start, start.2⟩) (fun _ _ done => done) fun _ _ stop => stop.1
  obtain ⟨w, stopped⟩ := c
  cases stopped with
  | none => exact TcpConn.Accounted.balanced holds.1
  | some fault => exact holds

theorem count_unregisteredIds (events : List ConnEvent) (id : IdleId) :
    (unregisteredIds events).count id = events.count (.unregistered id) := by
  induction events with
  | nil => rfl
  | cons event rest ih =>
      cases event with
      | unregistered other =>
          have named : unregisteredIds (.unregistered other :: rest) =
            other :: unregisteredIds rest := rfl
          simp [named, List.count_cons, ih]
      | _ => exact ih.trans (List.count_cons_of_ne (by simp)).symm

/-- **Every attach is finalised at most once**: in every run in which no open channel is
closed within the read callback of `cleanup`, and the loop does not exit while the
connection waits for its reconnect, between two calls of `attach` the state callback is
told of an end at most once and at most one reconnect is scheduled, and no idle id is
unregistered twice. -/
theorem attach_finalised_at_most_once {σ : UserCode υ} {c : ConnConfig υ}
    (reachable : ConnReachable σ c) (no_close : .channelClosed true ∉ c.world.seen.events)
    (no_exit : .exitedWaiting ∉ c.world.seen.events) :
    (∀ segment, segment <:+: c.world.seen.events → .attached ∉ segment →
      segment.countP ConnEvent.finalises ≤ 1 ∧ segment.countP ConnEvent.reconnects ≤ 1) ∧
    ∀ id, c.world.seen.events.count (.unregistered id) ≤ 1 := by
  have orderly : TcpConn.Orderly c.world := by
    refine List.any_eq_false.mpr fun event member => ?_
    cases event with
    | channelClosed draining =>
        cases draining with
        | false => simp [ConnEvent.disorders]
        | true => exact absurd member no_close
    | exitedWaiting => exact absurd member no_exit
    | _ => simp [ConnEvent.disorders]
  obtain ⟨finals, reconnects, distinct⟩ := reachable.balanced orderly
  refine ⟨fun segment inside unattached => ?_, fun id => ?_⟩
  · have whole : segment.any ConnEvent.attaches = false := by
      refine List.any_eq_false.mpr fun event member => ?_
      cases event with
      | attached => exact absurd member unattached
      | _ => simp [ConnEvent.attaches]
    exact ⟨finals segment inside whole, reconnects segment inside whole⟩
  · rw [← count_unregisteredIds]
    exact List.nodup_iff_count_le_one.mp distinct id

/-- A client that keeps reconnecting, and whose peer sends a bad length header. -/
def malformed : World Unit :=
  TcpConn.dialled (fun _ _ => ([], ())) (.new (some .msg) false true (some lengthCodec) 0) 80 0
    { writes := [], reads := [.data 7, .eof], polls := [true],
      peer := [], laterPeers := [[0, 0, 0, 0, 0, 0, 0, 0]], nextFd := 7 } ()

theorem malformed_opened : TcpConn.Opened (fun _ _ => ([], ())) malformed :=
  TcpConn.dialled_opened _ _ _ _ _ _ _ _ _ (by decide)

theorem attach_finalised_at_most_once_malformed :
    let events := (TcpConn.execute (fun _ _ => ([], ())) malformed
      [.writable, .call .closeNow]).world.seen.events
    events.countP ConnEvent.finalises = 1 ∧ ∀ segment, segment <:+: events →
      .attached ∉ segment → segment.countP ConnEvent.finalises ≤ 1 :=
  ⟨by decide +kernel, fun segment inside unattached =>
    ((attach_finalised_at_most_once (TcpConn.execute_reachable malformed_opened _)
      (by decide +kernel) (by decide +kernel)).1 segment inside unattached).1⟩

/-- **Malformed input is finalised twice**: the end of the stream makes `cleanup` call the
read callback, which closes the channel, and that calls `cleanup` again. -/
theorem malformed_input_is_finalised_twice : ∃ c : ConnConfig Unit,
    ConnReachable (fun _ _ => ([], ())) c ∧ ∃ segment, segment <:+: c.world.seen.events ∧
      .attached ∉ segment ∧ segment.countP ConnEvent.finalises = 2 ∧
        segment.countP ConnEvent.reconnects = 2 := by
  refine ⟨TcpConn.execute (fun _ _ => ([], ())) malformed [.writable, .readable],
    TcpConn.execute_reachable malformed_opened _,
    (TcpConn.execute (fun _ _ => ([], ())) malformed [.writable, .readable]).world.seen.events.takeWhile
      (· ≠ .attached), (List.takeWhile_prefix _).isInfix, ?_, ?_, ?_⟩
  · intro member
    simpa using List.mem_takeWhile_imp member
  · decide +kernel
  · decide +kernel

end Handy
