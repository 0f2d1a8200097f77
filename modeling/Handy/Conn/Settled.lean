import Handy.Conn.Callbacks

/-!
# Between events, the channel is open or gone

`Channel::close` leaves a closed channel behind for as long as the handlers it calls
run: `cleanup` drops it. So user code that is called by a handler may see a channel whose
descriptor is `-1`, but no event ends with one, and the state says whether there is a
channel (`handleEvent_settled`).
-/

set_option autoImplicit false
set_option mvcgen.warning false

namespace Handy

namespace TcpConn

variable {υ α : Type} {w w' : World υ}

/-- The connection has been closed, or was never opened. -/
def Final (w : World υ) : Prop := w.con.state ≠ .handshaking ∧ w.con.state ≠ .connected

/-- There is no channel, and no state in which it would be used. -/
def Gone (w : World υ) : Prop := w.con.channel = none ∧ Final w

/-- The channel is open, and the connection uses it. -/
def Live (w : World υ) : Prop := (∃ ch, w.con.channel = some ch ∧ 0 ≤ ch.fd) ∧ ¬ Final w

/-- `Channel::close` has closed the descriptor and calls the read handler. -/
def Closing (w : World υ) : Prop := (∃ ch, w.con.channel = some ch ∧ ch.fd < 0) ∧ ¬ Final w

/-- What holds between two events. -/
def Settled (w : World υ) : Prop := Live w ∨ Gone w

/-- From states of the first kind the program returns in states of the second. -/
abbrev Leads (before : World υ → Prop) (program : Act υ α) (after : World υ → Prop) : Prop :=
  Meets before program (fun _ => after) fun _ _ => True

/-- What the handler called by `Channel::close` has to do. -/
structure Closes (handler : Act υ Unit) : Prop where
  final : Leads Final handler Final
  gone : Leads Gone handler Gone
  closing : Leads Closing handler Gone

theorem Sends.state (sends : Sends w w') : w'.con.state = w.con.state := by
  obtain ⟨channel, input, output, -, con⟩ := sends.con
  rw [con]

theorem Sends.final (sends : Sends w w') (final : Final w) : Final w' := by
  unfold Final
  rwa [sends.state]

theorem Sends.settled (sends : Sends w w') (settled : Settled w) : Settled w' := by
  obtain ⟨channel, input, output, fd, con⟩ := sends.con
  rcases settled with ⟨⟨ch, found, opened⟩, used⟩ | ⟨absent, final⟩
  · left
    rw [found, Option.map_some] at fd
    obtain ⟨ch', found', same⟩ := Option.map_eq_some_iff.mp fd
    refine ⟨⟨ch', by rw [con]; exact found', same ▸ opened⟩, ?_⟩
    rwa [Final, sends.state]
  · right
    rw [absent, Option.map_none, Option.map_eq_none_iff] at fd
    exact ⟨by rw [con]; exact fd, sends.final final⟩

/-- A specification of what happens on return. -/
theorem leads_of_meets {before after : World υ → Prop} {program : Act υ α}
    {stopped : Fault → World υ → Prop} (meets : Meets before program (fun _ => after) stopped) :
    Leads before program after :=
  meets.imp (fun _ start => start) (fun _ _ done => done) fun _ _ _ => trivial

/-- What sending changes does not open or close a channel. -/
theorem settled_of_sends {program : Act υ α} (moves : Moves Sends program) :
    Leads Settled program Settled :=
  leads_of_meets (moves.keeps Sends.refl fun _ _ settled sends => sends.settled settled)

section Nested

variable {self : Act υ Unit} (σ : UserCode υ)

/-! ## In a final state -/

theorem closeChannel_final (closes : Closes self) : Leads Final (closeChannel self) Final := by
  have final := closes.final
  mvcgen [closeChannel, getChannel, closeFd, record, modifyCon, modifyBase, final]

theorem deleteChannel_final (closes : Closes self) : Leads Final (deleteChannel self) Gone := by
  have final := closeChannel_final closes
  mvcgen [deleteChannel, modifyCon, final]
  case vc3 w final absent => exact ⟨by simpa using absent, final⟩

theorem detachChannel_final (closes : Closes self) : Leads Final (detachChannel self) Gone := by
  have gone := closes.gone
  mvcgen [detachChannel, closeFd, record, modifyCon, modifyBase, gone]

theorem final_withstands (closes : Closes self) : Withstands self Final fun _ _ => True where
  sends op sending := leads_of_meets ((runOp_sends self sending).keeps Sends.refl
    fun w w' final sends => sends.final final)
  closes := closeChannel_final closes
  tweaks w w' tweak final := by cases tweak <;> exact final
  stops _ _ _ _ _ := trivial

theorem callState_final (closes : Closes self) : Leads Final (callState σ self) Final :=
  (final_withstands closes).callState_kept σ (fun _ final _ => final) fun _ final _ => final

theorem unregisterIdles_final (ids : List IdleId) :
    Leads Final (unregisterIdles ids : Act υ Unit) Final := by
  induction ids with
  | nil => mvcgen [unregisterIdles]
  | cons id rest ih => mvcgen [unregisterIdles, handyUnregisterIdle, record, ih]

/-- The state that `cleanup` sets. -/
theorem cleaned_final (state : State) :
    (if state = .handshaking then State.failed else .closed) ≠ .handshaking ∧
      (if state = .handshaking then State.failed else .closed) ≠ .connected := by
  split_ifs <;> simp

/-- **`cleanup` leaves no channel.** -/
theorem cleanup_gone (closes : Closes self) :
    Leads (fun _ => True) (cleanup σ self) Gone := by
  have drains : Leads (fun _ => True) (drainInput σ self) fun _ => True := Meets.trivial
  have calls := callState_final σ closes
  have unregisters : ∀ ids, Leads Final (unregisterIdles ids : Act υ Unit) Final :=
    unregisterIdles_final
  have detaches := detachChannel_final closes
  have deletes := deleteChannel_final closes
  mvcgen [cleanup, cancelTimeout, reconnect, record, modifyCon, modifyBase, drains, calls,
    unregisters, detaches, deletes]
  case vc1 w _ _ _ _ _ => exact cleaned_final w.con.state

/-! ## In a state that is used -/

theorem Settled.live (settled : Settled w) (used : ¬ Final w) : Live w := by
  rcases settled with live | gone
  · exact live
  · exact absurd gone.2 used

theorem Settled.live_of_some (settled : Settled w) (present : w.con.channel.isSome = true) :
    Live w := by
  rcases settled with live | gone
  · exact live
  · simp [gone.1] at present

theorem Gone.settled (gone : Gone w) : Settled w := .inr gone

/-- **Closing the channel ends the connection.** -/
theorem closeChannel_gone (closes : Closes self) : Leads Settled (closeChannel self) Gone := by
  have closing := closes.closing
  mvcgen [closeChannel, getChannel, closeFd, record, modifyCon, modifyBase, closing]
  case vc1 w settled ch channel _ _ _ _ =>
    have live := settled.live_of_some (by simp [channel])
    exact ⟨⟨_, rfl, by simp⟩, live.2⟩
  case vc2 w settled ch channel shut =>
    obtain ⟨⟨ch', found, opened⟩, -⟩ := settled.live_of_some (by simp [channel])
    rw [channel] at found
    cases found
    exact absurd opened shut

theorem closeChannel_settled (closes : Closes self) :
    Leads Settled (closeChannel self) Settled :=
  (closeChannel_gone closes).imp (fun _ settled => settled) (fun _ _ => Gone.settled)
    fun _ _ stopped => stopped

theorem settled_withstands (closes : Closes self) : Withstands self Settled fun _ _ => True where
  sends op sending := settled_of_sends (runOp_sends self sending)
  closes := closeChannel_settled closes
  tweaks w w' tweak settled := by cases tweak <;> exact settled
  stops _ _ _ _ _ := trivial

theorem callState_settled (closes : Closes self) : Leads Settled (callState σ self) Settled :=
  (settled_withstands closes).callState_kept σ (fun _ settled _ => settled) fun _ settled _ => settled

/-! ## The handlers -/

theorem cleanup_settled (closes : Closes self) :
    Leads (fun _ => True) (cleanup σ self) Settled :=
  (cleanup_gone σ closes).imp (fun _ start => start) (fun _ _ => Gone.settled)
    fun _ _ stopped => stopped

theorem completeHandshake_settled :
    Leads (fun w => Settled w ∧ ¬ Final w) (completeHandshake : Act υ Unit) Settled := by
  mvcgen [completeHandshake, enableReadWrite, getChannel, updateChannel, record, modifyCon,
    modifyBase]
  case vc1 w start _ ch channel ch' _ _ poller _ _ _ =>
    obtain ⟨⟨_, found, opened⟩, -⟩ := start.1.live start.2
    cases channel.symm.trans found
    exact .inl ⟨⟨ch', rfl, opened⟩, fun final => final.2 rfl⟩

/-- The handshake of an open channel completes or ends the connection. -/
theorem handleHandshake_settled (closes : Closes self) :
    Leads Settled (handleHandshake σ self) Settled := by
  have completes : Leads _ (completeHandshake : Act υ Unit) _ := completeHandshake_settled
  have calls := callState_settled σ closes
  have cleans := cleanup_settled σ closes
  mvcgen [handleHandshake, getChannel, poll, completes, calls, cleans]
  case vc6 w settled _ shaking _ _ _ _ _ _ _ _ =>
    exact ⟨settled, fun final => final.1 (not_not.mp shaking)⟩

/-- The handshake of a closed channel ends the connection. -/
theorem handleHandshake_closing (closes : Closes self) :
    Meets Closing (handleHandshake σ self) (fun done w => done = false ∧ Gone w) fun _ _ => True := by
  have completes : Leads (fun _ => True) (completeHandshake : Act υ Unit) fun _ => True :=
    Meets.trivial
  have calls : Leads (fun _ => True) (callState σ self) fun _ => True := Meets.trivial
  have cleans := cleanup_gone σ closes
  mvcgen [handleHandshake, getChannel, poll, completes, calls, cleans]
  case vc6 w closing _ _ ch channel opened _ _ _ _ _ _ _ _ _ =>
    obtain ⟨⟨_, found, shut⟩, -⟩ := closing
    cases channel.symm.trans found
    exact absurd shut opened

theorem updateIdles_settled (ids : List IdleId) :
    Leads Settled (updateIdles ids : Act υ Unit) Settled := by
  induction ids with
  | nil => mvcgen [updateIdles]
  | cons id rest ih => mvcgen [updateIdles, handyUpdateIdle, ih]

theorem readConnected_settled (closes : Closes self) :
    Leads Settled (readConnected σ self) Settled := by
  have cleans := cleanup_settled σ closes
  have updates : ∀ ids, Leads Settled (updateIdles ids : Act υ Unit) Settled := updateIdles_settled
  have reads := (settled_withstands closes).callRead_kept σ
  mvcgen [readConnected, getChannel, modifyCon, cleans, updates, reads]

theorem readConnected_closing (closes : Closes self) :
    Leads Closing (readConnected σ self) Gone := by
  refine meets_iff.mpr fun w closing => ?_
  obtain ⟨⟨ch, channel, shut⟩, -⟩ := closing
  have ran : (readConnected σ self).run w =
      (cleanup σ self).run { w with con := { w.con with input := w.con.input.makeRoom } } := by
    simp [readConnected, getChannel, modifyCon, channel, shut]
  rw [ran]
  exact meets_iff.mp (cleanup_gone σ closes) _ trivial

/-- `handleRead` ends with a channel that is open, or with none. -/
theorem handleReadOnce_settled (closes : Closes self) :
    Leads Settled (handleReadOnce σ self) Settled := by
  have shakes := handleHandshake_settled σ closes
  have reads := readConnected_settled σ closes
  mvcgen [handleReadOnce, shakes, reads]

theorem handleReadOnce_final (self : Act υ Unit) (final : Final w) :
    (handleReadOnce σ self).run w = .ok () w := by
  simp [handleReadOnce, final.1, final.2]

/-- `handleRead` takes care of a channel that is being closed. -/
theorem handleReadOnce_closes (closes : Closes self) : Closes (handleReadOnce σ self) := by
  refine ⟨meets_iff.mpr fun w final => ?_, meets_iff.mpr fun w gone => ?_, ?_⟩
  · rw [handleReadOnce_final σ self final]
    exact final
  · rw [handleReadOnce_final σ self gone.2]
    exact gone
  · have shakes := handleHandshake_closing σ closes
    have reads := readConnected_closing σ closes
    mvcgen [handleReadOnce, shakes, reads]
    case vc2 done yes _ outcome _ => exact Bool.noConfusion (yes.symm.trans outcome.1)
    case vc3 done yes _ outcome _ => exact Bool.noConfusion (yes.symm.trans outcome.1)
    case vc4 outcome => exact outcome.2
    case vc6 w closing _ no_shaking no_connection =>
      exact absurd ⟨no_shaking, no_connection⟩ closing.2

theorem handleRead_closes (depth : ℕ) : Closes (handleRead σ depth) := by
  induction depth with
  | zero =>
      have stops : ∀ before after, Leads before (handleRead σ 0 : Act υ Unit) after :=
        fun before after => by mvcgen [handleRead]
      exact ⟨stops _ _, stops _ _, stops _ _⟩
  | succ depth ih => exact handleReadOnce_closes σ ih

theorem handleWrite_settled (closes : Closes self) :
    Leads Settled (handleWrite σ self) Settled := by
  have shakes := handleHandshake_settled σ closes
  have flushes : Leads Settled (flushOutput : Act υ Unit) Settled :=
    settled_of_sends flushOutput_sends
  have calls := (settled_withstands closes).callUser_kept σ
  have stops : Leads Settled (stopWriting : Act υ Unit) Settled :=
    settled_of_sends stopWriting_sends
  mvcgen [handleWrite, shakes, flushes, calls, stops]

/-! ## Connecting -/

/-- Without a channel there is nothing to delete. -/
theorem deleteChannel_absent (absent : w.con.channel = none) :
    (deleteChannel self).run w = .ok () w := by
  simp [deleteChannel, absent]

theorem attach_settled (self : Act υ Unit) {fd : ℤ} (opened : 0 ≤ fd) :
    Leads (fun w => w.con.channel = none) (attach self fd) Settled := by
  have deletes : Leads (fun w => w.con.channel = none ∧ ¬ Final w) (deleteChannel self)
      fun w => w.con.channel = none ∧ ¬ Final w := by
    refine meets_iff.mpr fun w start => ?_
    rw [deleteChannel_absent start.1]
    exact start
  mvcgen [attach, modifyCon, record, deletes]
  case vc2 w absent _ _ _ _ => exact ⟨absent, fun final => final.1 rfl⟩
  case vc4 w start ch poller _ _ _ => exact .inl ⟨⟨ch, rfl, opened⟩, start.2⟩

theorem connect_settled (self : Act υ Unit) (port timeout : ℤ) :
    Leads Settled (connect self port timeout) Settled := by
  have attaches := fun fd : ℕ => attach_settled self (Int.natCast_nonneg fd)
  mvcgen [connect, attaches]
  case vc2 w settled state _ idle _ _ =>
    rcases settled with live | gone
    · refine absurd ⟨?_, ?_⟩ live.2 <;> intro same <;> simp [state, same] at idle
    · exact gone.1

end Nested

/-! ## Events -/

variable (σ : UserCode υ)

theorem runTask_settled (task : BaseTask) : Leads Settled (runTask σ task) Settled := by
  have closes : Closes (onClose σ) := handleRead_closes σ maxNesting
  have shut := closeChannel_settled closes
  have connects := connect_settled (onClose σ)
  cases task with
  | closeChannel => mvcgen [runTask, shut]
  | connectTimeout => mvcgen [runTask, shut]
  | reconnect => mvcgen [runTask, modifyBase, connects]
  | callIdles => mvcgen [runTask]

/-- **An event leaves a channel that is open, or none.** -/
theorem handleEvent_settled (event : Event) : Leads Settled (handleEvent σ event) Settled := by
  have closes : Closes (onClose σ) := handleRead_closes σ maxNesting
  cases event with
  | readable =>
      have reads : Leads Settled (handleRead σ (maxNesting + 1)) Settled :=
        handleReadOnce_settled σ closes
      mvcgen [handleEvent, reads]
  | writable =>
      have writes := handleWrite_settled σ closes
      mvcgen [handleEvent, writes]
  | timer =>
      have runs := runTask_settled σ
      mvcgen [handleEvent, modifyBase, runs]
  | task =>
      have runs := runTask_settled σ
      mvcgen [handleEvent, modifyBase, runs]
  | call op => exact (settled_withstands closes).runOp_kept op
  | elapse milli => mvcgen [handleEvent, modifyBase]
  | loopExit =>
      have cleans := cleanup_settled σ closes
      mvcgen [handleEvent, modifyBase, record, cleans]
  | destroyPoller =>
      have shut := closeChannel_settled closes
      mvcgen [handleEvent, shut]

end TcpConn

end Handy
