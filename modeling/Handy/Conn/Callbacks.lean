import Handy.Conn.Footprint

/-!
# What user code can do to an invariant

A callback performs a list of operations on the connection that called it. It can send,
it can close the channel, and it can change a few settings. A property that withstands
these (`Withstands`) is kept by every callback, and by the decode loop of `onMsg`,
whatever user code does.
-/

set_option autoImplicit false
set_option mvcgen.warning false

namespace Handy

namespace TcpConn

variable {υ : Type}

/-- The changes that user code makes without sending or closing, and the record of a
message. -/
inductive Tweaks : World υ → World υ → Prop where
  | user (w : World υ) (user : υ) : Tweaks w { w with user := user }
  | closeLater (w : World υ) : Tweaks w { w with base := w.base.safeCall .closeChannel }
  | addIdle (w : World υ) (idle : ℤ) (present : w.con.channel.isSome = true) : Tweaks w { w with
      base := (w.base.registerIdle idle).2
      con := { w.con with idleIds := w.con.idleIds ++ [(w.base.registerIdle idle).1] } }
  | interval (w : World υ) (milli : ℤ) :
      Tweaks w { w with con := { w.con with reconnectInterval := milli } }
  | exit (w : World υ) : Tweaks w { w with base := w.base.exit }
  | message (w : World υ) (msg : Bytes) : Tweaks w { w with
      seen := { w.seen with events := .msgCalled msg :: w.seen.events } }

/-- The property is kept by everything user code can do, and when that faults, what is
asked of the fault holds. -/
structure Withstands (handler : Act υ Unit) (kept : World υ → Prop)
    (stopped : Fault → World υ → Prop) : Prop where
  sends : ∀ op : Op, op.sends = true → Meets kept (runOp handler op) (fun _ => kept) stopped
  closes : Meets kept (closeChannel handler) (fun _ => kept) stopped
  tweaks : ∀ w w', Tweaks w w' → kept w → kept w'
  stops : ∀ fault w, fault ≠ .nesting → fault ≠ .epollCtlMod → kept w → stopped fault w

namespace Withstands

variable {self : Act υ Unit} {kept : World υ → Prop} {stopped : Fault → World υ → Prop}
  (withstands : Withstands self kept stopped) (σ : UserCode υ)

include withstands

theorem runOp_kept (op : Op) : Meets kept (runOp self op) (fun _ => kept) stopped := by
  cases sending : op.sends with
  | true => exact withstands.sends op sending
  | false =>
      have closes := withstands.closes
      cases op with
      | close =>
          mvcgen [runOp, modifyBase]
          case vc1 w holds _ _ => exact withstands.tweaks _ _ (.closeLater w) holds
      | closeNow => mvcgen [runOp, closes]
      | addIdleCB idle =>
          mvcgen [runOp, modifyCon]
          case vc1 w holds present _ _ => exact withstands.tweaks _ _ (.addIdle w idle present) holds
      | setReconnectInterval milli =>
          mvcgen [runOp, modifyCon]
          case vc1 w holds _ => exact withstands.tweaks _ _ (.interval w milli) holds
      | exit =>
          mvcgen [runOp, modifyBase]
          case vc1 w holds _ => exact withstands.tweaks _ _ (.exit w) holds
      | raise =>
          mvcgen [runOp]
          case vc1 w holds => exact withstands.stops _ w (by decide) (by decide) holds
      | _ => cases sending

theorem runOps_kept (ops : List Op) : Meets kept (runOps self ops) (fun _ => kept) stopped := by
  induction ops with
  | nil => mvcgen [runOps]
  | cons op rest ih =>
      have first := withstands.runOp_kept op
      mvcgen [runOps, first, ih]

/-- **A callback keeps what withstands its operations.** -/
theorem callUser_kept (callback : Callback) :
    Meets kept (callUser σ self callback) (fun _ => kept) stopped := by
  have performs := withstands.runOps_kept
  mvcgen [callUser, performs]
  case vc1 w holds _ => exact withstands.tweaks _ _ (Tweaks.user w _) holds

theorem decodeLoop_kept (fuel : ℕ) : Meets kept (decodeLoop σ self fuel) (fun _ => kept) stopped := by
  induction fuel with
  | zero =>
      mvcgen [decodeLoop]
      case vc1 w holds => exact withstands.stops _ w (by decide) (by decide) holds
  | succ fuel ih =>
      have closes := withstands.closes
      have calls := withstands.callUser_kept σ
      have consumes : ∀ len, Meets kept (consume .input len : Act υ Unit) (fun _ => kept) stopped :=
        fun len => withstands.sends (.consumeInput len) rfl
      mvcgen [decodeLoop, record, closes, calls, consumes, ih]
      case vc1 w holds _ => exact withstands.stops _ w (by decide) (by decide) holds
      case vc3 w holds _ _ _ _ _ _ => exact withstands.tweaks _ _ (.message w _) holds

/-- **So does the read callback, of either kind.** -/
theorem callRead_kept : Meets kept (callRead σ self) (fun _ => kept) stopped := by
  have calls := withstands.callUser_kept σ
  have decodes := withstands.decodeLoop_kept σ
  mvcgen [callRead, calls, decodes]

/-- The state callback, when the record of its call establishes the property. -/
theorem callState_kept {before : World υ → Prop}
    (called : ∀ w, before w → w.con.statecb = true → kept { w with
      seen := { w.seen with events := .stateCalled w.con.state :: w.seen.events } })
    (unset : ∀ w, before w → w.con.statecb = false → kept w) :
    Meets before (callState σ self) (fun _ => kept) stopped := by
  have calls := withstands.callUser_kept σ
  mvcgen [callState, record, calls]
  case vc1 w start set _ => exact called w start set
  case vc2 w start not_set => exact unset w start (Bool.eq_false_iff.mpr not_set)

end Withstands

end TcpConn

end Handy
