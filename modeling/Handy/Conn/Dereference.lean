import Handy.Conn.Attempt
import Handy.Conn.Delivery

/-!
# `channel_` is not dereferenced when it is null

While the connection is connecting or connected its channel is there (`Anchored`). User code
may close the channel under a handler, and two handlers go on to use it: `handleWrite` after
the writable callback, and the decode loop after the message callback. If these callbacks do
not call `closeNow` on the open channel, no handler dereferences a null `channel_`; the third
exception is the exit of the loop, where `cleanup` runs the decode loop without a channel
(`channel_never_null`). Between events it is there whatever the callbacks do
(`channel_present_iff`).
-/

set_option autoImplicit false
set_option mvcgen.warning false

namespace Handy

namespace TcpConn

variable {υ α : Type} {w w' : World υ}

/-- While the connection is in use, the channel is there. -/
def Anchored (w : World υ) : Prop := ¬ Final w → Present w

/-- The fault is another one than the dereference of a null channel. -/
abbrev NotNull (fault : Fault) (_ : World υ) : Prop := fault ≠ .nullChannel

/-- The message callback and the writable callback do not close the open connection at once. -/
structure Considerate (σ : UserCode υ) : Prop where
  msg : ∀ msg w, Open w → ∀ op ∈ (σ (.msg msg) w).1, op ≠ .closeNow
  writable : ∀ w, Open w → ∀ op ∈ (σ .writable w).1, op ≠ .closeNow

theorem Open.present (opened : Open w) : Present w := by
  obtain ⟨ch, channel, -⟩ := opened
  rw [Present, channel]
  rfl

theorem open_of_any (reported : w.con.channel.any (fun ch => decide (0 ≤ ch.fd)) = true) : Open w := by
  cases channel : w.con.channel with
  | none => simp [channel] at reported
  | some ch => exact ⟨ch, channel, by simpa [channel] using reported⟩

theorem Present.not_null (present : Present w) (absent : w.con.channel = none) : False := by
  rw [Present, absent] at present
  cases present

theorem Present.anchored (present : Present w) : Anchored w := fun _ => present

theorem Settled.anchored (settled : Settled w) : Anchored w := fun used =>
  Open.present (settled.live used).1

theorem Sends.present (sends : Sends w w') : Present w' ↔ Present w := by
  rw [Present, Present, sends.channel_isSome]

theorem Sends.anchored (sends : Sends w w') (anchored : Anchored w) : Anchored w' := by
  intro used
  exact sends.present.mpr (anchored fun final => used (sends.final final))

theorem sends_not_null {op : Op} {fault : Fault} (may : op.mayFault fault) : fault ≠ .nullChannel := by
  cases op with
  | sendMsg msg => rcases may with rfl | rfl <;> decide
  | _ => exact may ▸ (by decide)

/-- The send operations keep what sending does not touch, and dereference no null channel. -/
theorem sends_grounded {kept : World υ → Prop} (self : Act υ Unit) (op : Op)
    (sending : op.sends = true) (keeps : ∀ w w', Sends w w' → kept w → kept w') :
    Meets kept (runOp self op) (fun _ => kept) NotNull := by
  refine meets_iff.mpr fun w holds => ?_
  have both := (runOp_sends self sending w).and (runOp_sent self sending w)
  cases ran : (runOp self op).run w with
  | ok _ w' => exact keeps w w' (both.ok ⟨.refl w, rfl⟩ ran).1 holds
  | error fault w' => exact sends_not_null (both.fault ⟨.refl w, rfl⟩ ran).2.1

section Nested

variable {self : Act υ Unit} (nested : Meets Anchored self (fun _ => Anchored) NotNull)
  (closes : Closes self) {σ : UserCode υ} (considerate : Considerate σ)

include nested

theorem closeChannel_anchored :
    Meets Present (closeChannel self) (fun _ => Anchored) NotNull := by
  mvcgen [closeChannel, getChannel, closeFd, record, modifyCon, modifyBase, nested]
  case vc1 => exact fun _ => rfl
  case vc2 w present _ _ _ => exact present.anchored
  case vc3 w present absent => exact (present.not_null absent).elim

/-! ## Callbacks -/

theorem anchored_endures : Endures (fun _ => True) self Anchored NotNull where
  sends op sending _ := sends_grounded self op sending fun _ _ sends => sends.anchored
  closes _ := (closeChannel_anchored nested).imp (fun _ start => start.2) (fun _ _ done => done)
    fun _ _ stop => stop
  tweaks w w' tweak _ anchored := by cases tweak <;> exact anchored
  raises _ _ := nofun

omit nested in
/-- A callback that does not close the open channel. -/
theorem open_endures : Endures (fun op => op ≠ .closeNow) self Open NotNull where
  sends op sending _ := sends_grounded self op sending fun _ _ sends => sends.isOpen.mpr
  closes permitted := absurd rfl permitted
  tweaks _ _ tweak _ := tweak.isOpen.mpr
  raises _ _ := nofun

omit nested in
/-- On a closed channel there is nothing to close. -/
theorem shut_endures : Endures (fun _ => True) self (fun w => Present w ∧ ¬ Open w) NotNull where
  sends op sending _ := sends_grounded self op sending fun _ _ sends start =>
    ⟨sends.present.mpr start.1, fun opened => start.2 (sends.isOpen.mp opened)⟩
  closes _ := by
    refine meets_iff.mpr fun w start => ?_
    obtain ⟨ch, channel⟩ := Option.isSome_iff_exists.mp start.2
    have shut : ¬ 0 ≤ ch.fd := fun opened => start.1.2 ⟨ch, channel, opened⟩
    have ran : (closeChannel self).run w = .ok () w := by
      simp [closeChannel, getChannel, channel, shut]
    rw [ran]
    exact start.1
  tweaks w w' tweak _ start :=
    ⟨by cases tweak <;> exact start.1, fun opened => start.2 (tweak.isOpen.mp opened)⟩
  raises _ _ := nofun

include considerate

/-- **The decode loop** on a channel that is there. -/
theorem decodeLoop_anchored (fuel : ℕ) :
    Meets Present (decodeLoop σ self fuel) (fun _ => Anchored) NotNull := by
  have rejects := closeChannel_anchored nested
  refine (Meets.by_cases Open ?_ ?_)
  · refine (open_endures.decodeLoop_kept σ considerate.msg (fun _ _ opened => opened)
      (fun len => ?_) ?_ (fun _ opened => opened.present.anchored) (fun _ _ => ⟨nofun, nofun⟩) fuel).imp
      (fun _ start => start.2) (fun _ _ done => done) fun _ _ stop => stop
    · exact sends_grounded self (.consumeInput len) rfl fun _ _ sends => sends.isOpen.mpr
    · exact rejects.imp (fun _ start => start.1.present) (fun _ _ done => done) fun _ _ stop => stop
  · refine shut_endures.decodeLoop_kept σ (fun _ _ _ _ _ => trivial) (fun _ _ start => start)
      (fun len => ?_) ?_ (fun _ start => start.1.anchored) (fun _ _ => ⟨nofun, nofun⟩) fuel
    · exact sends_grounded self (.consumeInput len) rfl fun _ _ sends start =>
        ⟨sends.present.mpr start.1, fun opened => start.2 (sends.isOpen.mp opened)⟩
    · exact rejects.imp (fun _ start => start.1.1) (fun _ _ done => done) fun _ _ stop => stop

theorem callRead_anchored : Meets Present (callRead σ self) (fun _ => Anchored) NotNull := by
  have calls : Meets Anchored (callUser σ self .read) (fun _ => Anchored) NotNull :=
    (anchored_endures nested).callUser_kept σ fun _ _ _ _ => trivial
  have decodes := decodeLoop_anchored nested considerate
  mvcgen [callRead, calls, decodes]
  case vc1 w present _ => exact present.anchored
  case vc2 w present _ => exact present.anchored

omit considerate

theorem callState_anchored : Meets Anchored (callState σ self) (fun _ => Anchored) NotNull :=
  (anchored_endures nested).callState_kept σ (fun _ _ _ _ => trivial)
    (fun _ anchored _ => anchored) fun _ anchored _ => anchored

/-! ## Closing -/

/-- A program that ends a connection that is over dereferences no null channel. -/
theorem deleteChannel_over :
    Meets Final (deleteChannel self) (fun _ _ => True) NotNull := by
  have shuts := closeChannel_anchored nested
  mvcgen [deleteChannel, modifyCon, shuts]

theorem detachChannel_over :
    Meets Final (detachChannel self) (fun _ _ => True) NotNull := by
  mvcgen [detachChannel, closeFd, record, modifyCon, modifyBase, nested]
  case vc2 w final _ _ _ _ _ _ _ => exact fun used => absurd final used

include closes

theorem over_endures : Endures (fun _ => True) self Final NotNull where
  sends op sending _ := sends_grounded self op sending fun _ _ sends => sends.final
  closes _ := by
    refine ((closeChannel_anchored nested).and (closeChannel_final closes)).imp
      (fun _ start => ⟨start.2, start.1⟩) (fun _ _ done => done.2) fun _ _ stop => stop.1
  tweaks w w' tweak _ final := by cases tweak <;> exact final
  raises _ _ := nofun

omit nested closes in
theorem unregisterIdles_over (ids : List IdleId) :
    Meets Final (unregisterIdles ids : Act υ Unit) (fun _ => Final) NotNull := by
  induction ids with
  | nil => mvcgen [unregisterIdles]
  | cons id rest ih =>
      mvcgen [unregisterIdles, handyUnregisterIdle, record, ih]
      case vc2 => rintro ⟨⟩

omit nested closes in
theorem cancelTimeout_over : Meets Final (cancelTimeout : Act υ Unit) (fun _ => Final) NotNull := by
  mvcgen [cancelTimeout, modifyBase]
  case vc2 => rintro ⟨⟩

theorem cleanup_anchored {start : World υ → Prop}
    (drains : Meets start (drainInput σ self) (fun _ => Anchored) NotNull) :
    Meets start (cleanup σ self) (fun _ => Anchored) NotNull := by
  have calls : Meets Final (callState σ self) (fun _ => Final) NotNull :=
    (over_endures nested closes).callState_kept σ (fun _ _ _ _ => trivial)
      (fun _ final _ => final) fun _ final _ => final
  have cancels : Meets Final (cancelTimeout : Act υ Unit) (fun _ => Final) NotNull :=
    cancelTimeout_over
  have unregisters : ∀ ids, Meets Final (unregisterIdles ids : Act υ Unit) (fun _ => Final) NotNull :=
    unregisterIdles_over
  have deletes := deleteChannel_over nested
  have detaches := detachChannel_over nested
  have ends : Meets start (cleanup σ self) (fun _ _ => True) NotNull := by
    mvcgen [cleanup, reconnect, record, modifyCon, drains, cancels, calls, unregisters, deletes, detaches]
    case vc2 w _ _ => exact cleaned_final w.con.state
  refine (ends.and ((cleanup_gone σ closes))).imp (fun _ holds => ⟨holds, trivial⟩)
    (fun _ _ done => fun used => absurd done.2.2 used) fun _ _ stop => stop.1

include considerate

theorem cleanup_present : Meets Present (cleanup σ self) (fun _ => Anchored) NotNull := by
  refine cleanup_anchored nested closes ?_
  have reads := callRead_anchored nested considerate
  mvcgen [drainInput, setDraining, reads]
  case vc2 w present _ => exact present.anchored

/-! ## Handlers -/

omit nested closes considerate in
theorem completeHandshake_present :
    Meets Present (completeHandshake : Act υ Unit) (fun _ => Present) NotNull := by
  mvcgen [completeHandshake, enableReadWrite, getChannel, updateChannel, record, modifyCon, modifyBase]
  case vc2 => rintro ⟨⟩
  case vc3 w present _ absent => exact (present.not_null absent).elim

theorem handleHandshake_anchored :
    Meets Present (handleHandshake σ self) (fun _ => Anchored) NotNull := by
  have polls : ∀ fd, Meets Present (poll fd : Act υ Bool) (fun _ => Present) NotNull := by
    intro fd
    mvcgen [poll]
  have completes : Meets Present (completeHandshake : Act υ Unit) (fun _ => Present) NotNull :=
    completeHandshake_present
  have calls : Meets Anchored (callState σ self) (fun _ => Anchored) NotNull := callState_anchored nested
  have cleans := cleanup_present nested closes considerate
  mvcgen [handleHandshake, getChannel, polls, completes, calls, cleans]
  case vc1 => rintro ⟨⟩
  case vc4 w present => exact present.anchored
  case vc6 w present _ _ absent => exact (present.not_null absent).elim

omit nested closes considerate in
theorem updateIdles_present (ids : List IdleId) :
    Meets Present (updateIdles ids : Act υ Unit) (fun _ => Present) NotNull := by
  induction ids with
  | nil => mvcgen [updateIdles]
  | cons id rest ih =>
      mvcgen [updateIdles, handyUpdateIdle, ih]
      case vc2 => rintro ⟨⟩

theorem readConnected_anchored :
    Meets Present (readConnected σ self) (fun _ => Anchored) NotNull := by
  have updates : ∀ ids, Meets Present (updateIdles ids : Act υ Unit) (fun _ => Present) NotNull :=
    updateIdles_present
  have reads := callRead_anchored nested considerate
  have cleans := cleanup_present nested closes considerate
  mvcgen [readConnected, getChannel, modifyCon, updates, reads, cleans]
  case vc5 w present _ => exact present.anchored
  case vc6 w present absent => exact (present.not_null absent).elim

theorem handleReadOnce_anchored :
    Meets Anchored (handleReadOnce σ self) (fun _ => Anchored) NotNull := by
  have shakes := handleHandshake_anchored nested closes considerate
  have reads := readConnected_anchored nested closes considerate
  mvcgen [handleReadOnce, shakes, reads]
  case vc1 w anchored _ shaking => exact anchored fun final => final.1 shaking
  case vc2 w anchored connected => exact anchored fun final => final.2 connected
  case vc5 w anchored _ _ connected => exact anchored fun final => final.2 connected

omit nested closes considerate in
/-- Writing what was queued, on an open channel. -/
theorem flushes_grounded {program : Act υ Unit} (moves : Moves Sends program)
    (flushes : ∀ w, Meets (fun w' => w' = w) program (fun _ => Flushed w) (FlushStops w)) :
    Meets Open program (fun _ => Open) NotNull := by
  refine meets_iff.mpr fun w opened => ?_
  have both := (moves w).and (flushes w)
  cases ran : program.run w with
  | ok _ w' => exact (both.ok ⟨.refl w, rfl⟩ ran).1.isOpen.mpr opened
  | error fault w' =>
      obtain ⟨-, rfl | ⟨-, absent⟩, -⟩ := both.fault ⟨.refl w, rfl⟩ ran
      · exact nofun
      · exact absurd opened.present absent

theorem handleWrite_grounded : Meets Open (handleWrite σ self) (fun _ _ => True) NotNull := by
  have shakes := handleHandshake_anchored nested closes considerate
  have calls : Meets Open (callUser σ self .writable) (fun _ => Open) NotNull :=
    open_endures.callUser_kept σ considerate.writable
  have flushes : Meets Open (flushOutput : Act υ Unit) (fun _ => Open) NotNull :=
    flushes_grounded flushOutput_sends flushOutput_flushed
  have stops : Meets Open (stopWriting : Act υ Unit) (fun _ => Open) NotNull :=
    flushes_grounded stopWriting_sends stopWriting_flushed
  mvcgen [handleWrite, shakes, flushes, calls, stops]
  case vc1 w opened _ => exact opened.present

end Nested

theorem handleRead_anchored {σ : UserCode υ} (considerate : Considerate σ) (depth : ℕ) :
    Meets Anchored (handleRead σ depth) (fun _ => Anchored) NotNull := by
  induction depth with
  | zero =>
      mvcgen [handleRead]
      case vc1 => rintro ⟨⟩
  | succ depth ih => exact handleReadOnce_anchored ih (handleRead_closes σ depth) considerate

/-! ## The exit of the loop -/

/-- The decode loop will not reject anything that is left of the input. -/
def Harmless (w : World υ) : Prop :=
  w.con.readcb = some .msg → ∀ codec, w.con.codec = some codec →
    ∀ data, data <:+ w.con.input.contents → 0 ≤ (codec.tryDecode data).1

/-- Without a channel, with a rest of the given input. -/
structure Adrift (codec : Option Codec) (data : Bytes) (w : World υ) : Prop where
  gone : Gone w
  codec_eq : w.con.codec = codec
  rest : w.con.input.contents <:+ data

section Adrift

variable {codec : Option Codec} {data : Bytes} (self : Act υ Unit)

theorem Sends.adrift (sends : Sends w w') (input : w'.con.input = w.con.input)
    (adrift : Adrift codec data w) : Adrift codec data w' := by
  obtain ⟨channel, _, output, fd, con⟩ := sends.con
  refine ⟨⟨?_, sends.final adrift.gone.2⟩, by rw [con]; exact adrift.codec_eq, by rw [input]; exact adrift.rest⟩
  rw [adrift.gone.1, Option.map_none, Option.map_eq_none_iff] at fd
  rw [con]
  exact fd

theorem consume_adrift (len : ℕ) : Meets (Adrift codec data) (consume .input len : Act υ Unit)
    (fun _ => Adrift codec data) NotNull := by
  mvcgen [consume]
  case vc1 w adrift rest consumed _ =>
    refine ⟨adrift.gone, adrift.codec_eq, ?_⟩
    have contents := (Buffer.contents_of_consume consumed).2
    show rest.contents <:+ data
    rw [contents]
    exact (List.drop_suffix len _).trans adrift.rest
  case vc2 => rintro ⟨⟩

theorem adrift_endures : Endures (fun _ => True) self (Adrift codec data) NotNull where
  sends op sending _ := by
    cases spares : op.sparesInput with
    | true =>
        refine meets_iff.mpr fun w adrift => ?_
        have both := (runOp_sends self sending w).and (runOp_sent self sending w)
        cases ran : (runOp self op).run w with
        | ok _ w' =>
            obtain ⟨sends, sent⟩ := both.ok ⟨.refl w, rfl⟩ ran
            exact sends.adrift (sent.1 spares) adrift
        | error fault w' => exact sends_not_null (both.fault ⟨.refl w, rfl⟩ ran).2.1
    | false =>
        cases op with
        | sendInput =>
            refine meets_iff.mpr fun w adrift => ?_
            have ran : (runOp self .sendInput).run w = .ok () w := by
              simp [runOp, handOver, send, adrift.gone.1]
            rw [ran]
            exact adrift
        | consumeInput len => exact consume_adrift len
        | _ => cases spares
  closes _ := meets_iff.mpr fun w start => (start.2.not_null start.1.gone.1).elim
  tweaks w w' tweak _ adrift := by
    cases tweak <;> exact ⟨adrift.gone, adrift.codec_eq, adrift.rest⟩
  raises _ _ := nofun

/-- **The read callback without a channel** rejects nothing. -/
theorem callRead_adrift (σ : UserCode υ) :
    Meets (fun w => Gone w ∧ Harmless w) (callRead σ self) (fun _ => Final) NotNull := by
  refine meets_iff.mpr fun w start => ?_
  obtain ⟨gone, harmless⟩ := start
  have adrift : Adrift w.con.codec w.con.input.contents w := ⟨gone, rfl, List.suffix_rfl⟩
  have endures : Endures (fun _ => True) self (Adrift w.con.codec w.con.input.contents) NotNull :=
    adrift_endures self
  cases set : w.con.readcb with
  | none =>
      have ran : (callRead σ self).run w = .ok () w := by simp [callRead, set]
      rw [ran]
      exact gone.2
  | some kind =>
      cases kind with
      | read =>
          have ran : (callRead σ self).run w = (callUser σ self .read).run w := by
            simp [callRead, set]
          rw [ran]
          exact meets_iff.mp ((endures.callUser_kept σ fun _ _ _ _ => trivial).imp
            (fun _ start => start) (fun _ _ done => done.gone.2) fun _ _ stop => stop) w adrift
      | msg =>
          have ran : (callRead σ self).run w = (decodeLoop σ self (w.con.input.size + 1)).run w := by
            simp [callRead, set]
          rw [ran]
          refine meets_iff.mp (endures.decodeLoop_kept σ (fun _ _ _ _ _ => trivial) ?_ consume_adrift ?_
            (fun _ done => done.gone.2) (fun _ _ => ⟨(by rintro ⟨⟩), (by rintro ⟨⟩)⟩) _) w adrift
          · exact fun _ _ holds => ⟨holds.gone, holds.codec_eq, holds.rest⟩
          · refine meets_iff.mpr fun w' rejected => ?_
            obtain ⟨still, codec, same, negative⟩ := rejected
            have accepted := harmless set codec (still.codec_eq.symm.trans same) _ still.rest
            exact absurd negative (not_lt.mpr accepted)

theorem drainInput_adrift (σ : UserCode υ) :
    Meets (fun w => Gone w ∧ Harmless w) (drainInput σ self) (fun _ => Anchored) NotNull := by
  have reads := callRead_adrift self σ
  mvcgen [drainInput, setDraining, reads]
  case vc2 w final _ => exact fun used => absurd final used
  case vc3 w start _ => exact fun used => absurd start.1.2 used

end Adrift

/-! ## Runs -/

/-- When the loop exits while the connection waits for its reconnect, what is left of the
input is harmless. -/
def Tame (w : World υ) (event : Event) : Prop :=
  event = .loopExit → w.base.exited = true → w.base.reconnectConns = true → Harmless w

section Events

variable {σ : UserCode υ} (considerate : Considerate σ)

include considerate

theorem runTask_grounded (task : BaseTask) :
    Meets Settled (runTask σ task) (fun _ _ => True) NotNull := by
  have nested : Meets Anchored (onClose σ) (fun _ => Anchored) NotNull :=
    handleRead_anchored considerate maxNesting
  have shut := closeChannel_anchored nested
  cases task with
  | closeChannel => mvcgen [runTask, shut]
  | connectTimeout =>
      mvcgen [runTask, shut]
      case vc1 w settled shaking => exact settled.anchored fun final => final.1 shaking
  | callIdles => mvcgen [runTask]
  | reconnect =>
      refine meets_iff.mpr fun w settled => ?_
      have unfolded : (runTask σ .reconnect).run w =
          (connect (onClose σ) w.con.destPort w.con.connectTimeout).run
            { w with base := { w.base with reconnectConns := false } } := rfl
      rw [unfolded]
      exact meets_iff.mp ((connect_renews (onClose σ) w.con.destPort _ w.con.connectTimeout).imp
        (fun _ start => start) (fun _ _ _ => trivial) fun _ _ stop => stop.2.1) _ ⟨rfl, settled⟩

/-- **No event dereferences a null channel.** -/
theorem handleEvent_grounded (event : Event) :
    Meets (fun w => Settled w ∧ Tame w event) (handleEvent σ event) (fun _ _ => True) NotNull := by
  have nested : Meets Anchored (onClose σ) (fun _ => Anchored) NotNull :=
    handleRead_anchored considerate maxNesting
  have closes : Closes (onClose σ) := handleRead_closes σ maxNesting
  have shut := closeChannel_anchored nested
  have runs := runTask_grounded considerate
  cases event with
  | readable =>
      have reads := handleRead_anchored considerate (maxNesting + 1)
      mvcgen [handleEvent, reads]
      case vc1 w start _ => exact start.1.anchored
  | writable =>
      have writes := handleWrite_grounded nested closes considerate
      mvcgen [handleEvent, writes]
      case vc1 w _ reported => exact open_of_any reported
  | timer =>
      mvcgen [handleEvent, modifyBase, runs]
      case vc2 => rintro ⟨⟩
      case vc3 w start _ _ _ _ _ _ _ _ => exact start.1
  | task =>
      mvcgen [handleEvent, modifyBase, runs]
      case vc2 w start _ _ _ _ => exact start.1
  | call op =>
      exact ((anchored_endures nested).runOp_kept trivial).imp (fun _ start => start.1.anchored)
        (fun _ _ _ => trivial) fun _ _ stop => stop
  | elapse milli => mvcgen [handleEvent, modifyBase]
  | loopExit =>
      refine meets_iff.mpr fun w start => ?_
      obtain ⟨settled, tame⟩ := start
      rcases loopExit_run σ w with ⟨exited, waiting, ran⟩ | ⟨base, ran⟩
      · rw [ran]
        rcases settled with live | gone
        · exact meets_iff.mp ((cleanup_present nested closes considerate).imp (fun _ start => start)
            (fun _ _ _ => trivial) fun _ _ stop => stop) (exiting w) (Open.present live.1)
        · exact meets_iff.mp ((cleanup_anchored nested closes (drainInput_adrift _ σ)).imp
            (fun _ start => start) (fun _ _ _ => trivial) fun _ _ stop => stop) (exiting w)
            ⟨gone, tame rfl exited waiting⟩
      · rw [ran]
        trivial
  | destroyPoller =>
      mvcgen [handleEvent, shut]
      case vc1 w _ reported => exact (open_of_any reported).present

omit considerate in
/-- **Between events `channel_` is there exactly in the states `Handshaking` and `Connected`**, in
every run and for all callbacks. -/
theorem channel_present_iff {c : ConnConfig υ} (reachable : ConnReachable σ c)
    (running : c.stopped = none) : c.world.con.channel.isSome = true ↔
      c.world.con.state = .handshaking ∨ c.world.con.state = .connected := by
  have settled : Settled c.world := by
    have steady := reachable.steady
    obtain ⟨world, stopped⟩ := c
    cases running
    exact steady.2
  rcases settled with ⟨⟨ch, channel, -⟩, used⟩ | ⟨absent, final⟩
  · refine ⟨fun _ => ?_, fun _ => by rw [channel]; rfl⟩
    by_contra unused
    exact used ⟨fun shaking => unused (.inl shaking), fun connected => unused (.inr connected)⟩
  · refine ⟨fun present => ?_, ?_⟩
    · exact (Present.not_null present absent).elim
    rintro (shaking | connected)
    · exact absurd shaking final.1
    · exact absurd connected final.2

/-- **No handler dereferences a null channel**: in every run whose message and writable
callbacks do not close the open connection at once, and in which the loop does not exit on input
that its decode loop would reject, no `channel_` that is null is dereferenced; and in every
run, between events, `channel_` is there exactly in the states `Handshaking` and `Connected`. -/
theorem channel_never_null {c : ConnConfig υ} {events : List Event} (opened : Opened σ w)
    (run : LabelledRun (fun c event c' => ConnStep σ c event c' ∧ Tame c.world event)
      ⟨w, none⟩ events c) :
    c.stopped ≠ some .nullChannel ∧
      (c.stopped = none → (c.world.con.channel.isSome = true ↔
        c.world.con.state = .handshaking ∨ c.world.con.state = .connected)) := by
  have holds : c.Holds Settled NotNull := by
    refine run.invariant (fun c => c.Holds Settled NotNull) ?_ opened.steady.2
    rintro before event after holds ⟨⟨ran⟩ | ⟨ran⟩, tame⟩
    · exact (handleEvent_settled σ event).ok holds ran
    · exact (handleEvent_grounded considerate event).fault ⟨holds, tame⟩ ran
  refine ⟨fun null => ?_, channel_present_iff ⟨w, events, opened, run.mono fun _ _ _ _ step => step.1⟩⟩
  rw [ConnConfig.Holds, null] at holds
  exact holds rfl

end Events

end TcpConn

/-- A connection with a writable callback, and a socket that takes what it is given at the
second attempt. -/
def refilled (σ : UserCode Unit) : World Unit :=
  TcpConn.accepted σ (.new none true false none (-1))
    { writes := [.eagain, .accept 9], reads := [], polls := [true], peer := [], laterPeers := [],
      nextFd := 7 } ()

/-- The handshake completes, a byte is sent and has to wait, and then the socket is writable. -/
def refill : List Event := [.writable, .call (.sendOutput [1]), .writable]

theorem observer_considerate : TcpConn.Considerate observer where
  msg _ _ _ _ member := absurd member List.not_mem_nil
  writable _ _ _ member := absurd member List.not_mem_nil

theorem channel_never_null_refilled :
    let last := (TcpConn.execute observer (refilled observer) refill).world
    last.seen.wire = [1] ∧ last.con.channel.isSome = true := by
  intro last
  have run : LabelledRun (ConnStep observer) ⟨refilled observer, none⟩ refill ⟨last, none⟩ :=
    TcpConn.execute_completes (by decide +kernel)
  have tame : LabelledRun (fun c event c' => ConnStep observer c event c' ∧ TcpConn.Tame c.world event)
      ⟨refilled observer, none⟩ refill ⟨last, none⟩ := by
    refine run.mono fun _ event _ member step => ⟨step, ?_⟩
    rintro rfl
    simp [refill] at member
  have sent : last.seen.wire = [1] := by decide +kernel
  have connected : last.con.state = .connected := by decide +kernel
  clear_value last
  have safe := TcpConn.channel_never_null observer_considerate
    (TcpConn.accepted_opened observer none true false none (-1) _ ()) tame
  exact ⟨sent, (safe.2 rfl).mpr (.inr connected)⟩

/-- A writable callback that closes the connection. -/
def closeWhenSent : UserCode Unit := fun callback _ =>
  match callback with
  | .writable => ([.closeNow], ())
  | _ => ([], ())

/-- **A connection that is closed when its output is sent** is used once more. -/
theorem close_when_sent_dereferences_null : ∃ c : ConnConfig Unit, ConnReachable closeWhenSent c ∧
    c.stopped = some .nullChannel ∧ c.world.con.channel.isNone = true :=
  ⟨TcpConn.execute closeWhenSent (refilled closeWhenSent) refill,
    TcpConn.execute_reachable (TcpConn.accepted_opened closeWhenSent none true false none (-1) _ ()) _,
    by decide +kernel, by decide +kernel⟩

end Handy
