import Handy.Conn.Callbacks

/-!
# What has been recorded stays recorded

No handler takes an event back, whatever state it is called in (`handleRead_grows`).
-/

set_option autoImplicit false
set_option mvcgen.warning false

namespace Handy

namespace TcpConn

variable {υ α : Type} {w w' : World υ} {old : List ConnEvent}

/-- The events are among those recorded, the oldest of them. -/
def Recorded (old : List ConnEvent) (w : World υ) : Prop := old <:+ w.seen.events

/-- The program takes no event back. -/
abbrev Grows (program : Act υ α) : Prop :=
  ∀ old, Meets (Recorded old) program (fun _ => Recorded old) fun _ => Recorded old

theorem Recorded.record (recorded : Recorded old w) (event : ConnEvent) :
    Recorded old { w with seen := { w.seen with events := event :: w.seen.events } } :=
  recorded.trans (List.suffix_cons event _)

theorem record_grows (event : ConnEvent) : Grows (record event : Act υ Unit) := by
  intro old
  mvcgen [TcpConn.record]
  case vc1 w recorded _ => exact recorded.record event

theorem Sends.recorded_of (sends : Sends w w') (recorded : Recorded old w) : Recorded old w' := by
  obtain ⟨events, -, same⟩ := sends.events
  rw [Recorded, same]
  exact recorded.trans (List.suffix_append _ _)

section Nested

variable {self : Act υ Unit} (nested : Grows self) (σ : UserCode υ)

include nested

theorem closeChannel_grows : Grows (closeChannel self) := by
  intro old
  have later := nested old
  have records : ∀ event, Meets (Recorded old) (record event : Act υ Unit) _ _ :=
    fun event => record_grows event old
  mvcgen [closeChannel, getChannel, closeFd, records, modifyCon, modifyBase, later]

theorem recorded_withstands (old : List ConnEvent) :
    Withstands self (Recorded old) fun _ => Recorded old where
  sends op sending := (runOp_sends self sending).keeps Sends.refl
    fun w w' recorded sends => sends.recorded_of recorded
  closes := closeChannel_grows nested old
  tweaks w w' tweak recorded := by
    cases tweak with
    | message msg => exact recorded.record (.msgCalled msg)
    | _ => exact recorded
  stops _ _ _ _ recorded := recorded

theorem callState_grows : Grows (callState σ self) := fun old =>
  (recorded_withstands nested old).callState_kept σ (fun _ recorded _ => recorded.record _)
    fun _ recorded _ => recorded

theorem deleteChannel_grows : Grows (deleteChannel self) := by
  intro old
  have closes := closeChannel_grows nested old
  mvcgen [deleteChannel, modifyCon, closes]

theorem detachChannel_grows : Grows (detachChannel self) := by
  intro old
  have later := nested old
  have records : ∀ event, Meets (Recorded old) (record event : Act υ Unit) _ _ :=
    fun event => record_grows event old
  mvcgen [detachChannel, closeFd, records, modifyCon, modifyBase, later]

omit nested in
theorem unregisterIdles_grows (ids : List IdleId) : Grows (unregisterIdles ids : Act υ Unit) := by
  intro old
  have records : ∀ event, Meets (Recorded old) (record event : Act υ Unit) _ _ :=
    fun event => record_grows event old
  induction ids with
  | nil => mvcgen [unregisterIdles]
  | cons id rest ih => mvcgen [unregisterIdles, handyUnregisterIdle, records, ih]

theorem cleanup_grows : Grows (cleanup σ self) := by
  intro old
  have records : ∀ event, Meets (Recorded old) (record event : Act υ Unit) _ _ :=
    fun event => record_grows event old
  have reads := (recorded_withstands nested old).callRead_kept σ
  have calls := callState_grows nested σ old
  have unregisters : ∀ ids, Meets (Recorded old) (unregisterIdles ids : Act υ Unit) _ _ :=
    fun ids => unregisterIdles_grows ids old
  have deletes := deleteChannel_grows nested old
  have detaches := detachChannel_grows nested old
  mvcgen [cleanup, drainInput, setDraining, cancelTimeout, reconnect, records, modifyCon, modifyBase,
    reads, calls, unregisters, deletes, detaches]

theorem handleHandshake_grows : Grows (handleHandshake σ self) := by
  intro old
  have records : ∀ event, Meets (Recorded old) (record event : Act υ Unit) _ _ :=
    fun event => record_grows event old
  have calls := callState_grows nested σ old
  have cleans := cleanup_grows nested σ old
  mvcgen [handleHandshake, getChannel, poll, completeHandshake, enableReadWrite, updateChannel,
    records, modifyCon, modifyBase, calls, cleans]

omit nested in
theorem updateIdles_grows (ids : List IdleId) : Grows (updateIdles ids : Act υ Unit) := by
  intro old
  induction ids with
  | nil => mvcgen [updateIdles]
  | cons id rest ih => mvcgen [updateIdles, handyUpdateIdle, ih]

theorem handleReadOnce_grows : Grows (handleReadOnce σ self) := by
  intro old
  have shakes := handleHandshake_grows nested σ old
  have cleans := cleanup_grows nested σ old
  have updates : ∀ ids, Meets (Recorded old) (updateIdles ids : Act υ Unit) _ _ :=
    fun ids => updateIdles_grows ids old
  have reads := (recorded_withstands nested old).callRead_kept σ
  mvcgen [handleReadOnce, readConnected, getChannel, modifyCon, shakes, cleans, updates, reads]

end Nested

/-- **The read handler takes no event back.** -/
theorem handleRead_grows (σ : UserCode υ) (depth : ℕ) : Grows (handleRead σ depth) := by
  induction depth with
  | zero =>
      intro old
      mvcgen [handleRead]
  | succ depth ih => exact handleReadOnce_grows ih σ

end TcpConn

end Handy
