import Handy.Conn.Callbacks
import Handy.Conn.SendFaults

/-!
# User code that keeps to some operations

A property need not withstand everything that user code can do. `Endures allowed` asks of
it what callbacks need that perform allowed operations only; which operations a callback
performs may depend on the state in which it is called.
-/

set_option autoImplicit false
set_option mvcgen.warning false

namespace Handy

namespace TcpConn

variable {υ : Type}

/-- The channel is open. -/
def Open (w : World υ) : Prop := ∃ ch, w.con.channel = some ch ∧ 0 ≤ ch.fd

/-- The property is kept by the allowed operations; the channel that one of them closes is
there. -/
structure Endures (allowed : Op → Prop) (handler : Act υ Unit) (kept : World υ → Prop)
    (stopped : Fault → World υ → Prop) : Prop where
  sends : ∀ op : Op, op.sends = true → allowed op →
    Meets kept (runOp handler op) (fun _ => kept) stopped
  closes : allowed .closeNow →
    Meets (fun w => kept w ∧ Present w) (closeChannel handler) (fun _ => kept) stopped
  tweaks : ∀ w w', Tweaks w w' → w'.seen = w.seen → kept w → kept w'
  raises : ∀ w, kept w → stopped .raised w

namespace Endures

variable {allowed : Op → Prop} {self : Act υ Unit} {kept : World υ → Prop}
  {stopped : Fault → World υ → Prop} (endures : Endures allowed self kept stopped)

include endures

theorem runOp_kept {op : Op} (permitted : allowed op) :
    Meets kept (runOp self op) (fun _ => kept) stopped := by
  cases sending : op.sends with
  | true => exact endures.sends op sending permitted
  | false =>
      cases op with
      | close =>
          mvcgen [runOp, modifyBase]
          case vc1 w holds _ _ => exact endures.tweaks _ _ (.closeLater w) rfl holds
      | closeNow =>
          have closes := endures.closes permitted
          mvcgen [runOp, closes]
      | addIdleCB idle =>
          mvcgen [runOp, modifyCon]
          case vc1 w holds present _ _ =>
            exact endures.tweaks _ _ (.addIdle w idle present) rfl holds
      | setReconnectInterval milli =>
          mvcgen [runOp, modifyCon]
          case vc1 w holds _ => exact endures.tweaks _ _ (.interval w milli) rfl holds
      | exit =>
          mvcgen [runOp, modifyBase]
          case vc1 w holds _ => exact endures.tweaks _ _ (.exit w) rfl holds
      | raise =>
          mvcgen [runOp]
          case vc1 w holds => exact endures.raises w holds
      | _ => cases sending

theorem runOps_kept {ops : List Op} (permitted : ∀ op ∈ ops, allowed op) :
    Meets kept (runOps self ops) (fun _ => kept) stopped := by
  induction ops with
  | nil => mvcgen [runOps]
  | cons op rest ih =>
      have first := endures.runOp_kept (permitted op List.mem_cons_self)
      have others := ih fun op member => permitted op (List.mem_cons_of_mem _ member)
      mvcgen [runOps, first, others]

/-- **A callback keeps what endures the operations it performs.** -/
theorem callUser_kept (σ : UserCode υ) {callback : Callback}
    (permitted : ∀ w, kept w → ∀ op ∈ (σ callback w).1, allowed op) :
    Meets kept (callUser σ self callback) (fun _ => kept) stopped := by
  refine meets_iff.mpr fun w holds => ?_
  have performs := endures.runOps_kept (permitted w holds)
  have start : kept { w with user := (σ callback w).2 } :=
    endures.tweaks _ _ (.user w _) rfl holds
  have unfolded : (callUser σ self callback).run w =
      (runOps self (σ callback w).1).run { w with user := (σ callback w).2 } := rfl
  rw [unfolded]
  exact meets_iff.mp performs _ start

/-- The state callback, when the record of its call establishes the property. -/
theorem callState_kept (σ : UserCode υ) {before : World υ → Prop}
    (permitted : ∀ w, kept w → ∀ op ∈ (σ .state w).1, allowed op)
    (called : ∀ w, before w → w.con.statecb = true → kept { w with
      seen := { w.seen with events := .stateCalled w.con.state :: w.seen.events } })
    (unset : ∀ w, before w → w.con.statecb = false → kept w) :
    Meets before (callState σ self) (fun _ => kept) stopped := by
  have calls := endures.callUser_kept σ permitted
  mvcgen [callState, record, calls]
  case vc1 w start set _ => exact called w start set
  case vc2 w start not_set => exact unset w start (Bool.eq_false_iff.mpr not_set)

section ReadCallback

variable (σ : UserCode υ) {after : World υ → Prop}
  (permitted : ∀ msg w, kept w → ∀ op ∈ (σ (.msg msg) w).1, allowed op)
  (called : ∀ w msg, kept w → kept { w with
    seen := { w.seen with events := .msgCalled msg :: w.seen.events } })
  (consumes : ∀ len, Meets kept (consume .input len : Act υ Unit) (fun _ => kept) stopped)
  (rejects : Meets (fun w => kept w ∧ ∃ codec, w.con.codec = some codec ∧
    (codec.tryDecode w.con.input.contents).1 < 0) (closeChannel self) (fun _ => after) stopped)
  (ends : ∀ w, kept w → after w)
  (stops : ∀ w, kept w → stopped .nullCodec w ∧ stopped .outOfFuel w)

include permitted called consumes rejects ends stops

/-- The decode loop keeps what its callback, its `consume` and the record of a message keep;
it ends when a message is rejected. -/
theorem decodeLoop_kept (fuel : ℕ) :
    Meets kept (decodeLoop σ self fuel) (fun _ => after) stopped := by
  induction fuel with
  | zero =>
      mvcgen [decodeLoop]
      case vc1 w holds => exact (stops w holds).2
  | succ fuel ih =>
      have calls := fun msg => endures.callUser_kept σ (permitted msg)
      mvcgen [decodeLoop, record, rejects, calls, consumes, ih]
      case vc1 w holds _ => exact (stops w holds).1
      case vc2 w holds codec set _ rejected => exact ⟨holds, codec, set, rejected⟩
      case vc3 w holds _ _ _ _ _ _ => exact called w _ holds
      case vc6 w holds _ _ _ _ _ => exact ends w holds

/-- **So does the read callback, of either kind.** -/
theorem callRead_kept (reading : ∀ w, kept w → ∀ op ∈ (σ .read w).1, allowed op) :
    Meets kept (callRead σ self) (fun _ => after) stopped := by
  have calls := endures.callUser_kept σ reading
  have decodes := endures.decodeLoop_kept σ permitted called consumes rejects ends stops
  mvcgen [callRead, calls, decodes]
  case vc1 w holds _ => exact ends w holds
  case vc3 w => exact ends w

end ReadCallback

end Endures

end TcpConn

end Handy
