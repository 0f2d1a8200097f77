import Handy.Buffer.Sequence
import Handy.Lib.LabelledRun

/-!
# The room of a buffer

How much storage a buffer has, over every run of operations on a set of buffers. What the
operations keep of each buffer they keep of all of them (`Closed.run`). Two properties are kept:
that the suggested size is positive, and that the storage is at least as large as the suggested
size once there is some (`Buffer.Roomy`). The second one is lost when buffers of different suggested
sizes take over each other's storage.
-/

set_option autoImplicit false

namespace Handy

namespace Buffer

variable {buffer other rest : Buffer} {e : ℕ}

/-! ## Storage -/

@[simp] theorem cap_clear (buffer : Buffer) : buffer.clear.cap = 0 := rfl

@[simp] theorem cap_moveHead (buffer : Buffer) : buffer.moveHead.cap = buffer.cap := by
  have sizes := buffer.size_le_cap
  unfold cap at sizes
  simp only [cap, moveHead, List.length_append, length_contents, List.length_drop]
  omega

@[simp] theorem cap_expand (buffer : Buffer) (len : ℕ) : (buffer.expand len).cap =
    max buffer.exp (max (2 * buffer.cap) (buffer.size + len)) := by
  have sizes := buffer.size_le_cap
  simp only [cap, expand, List.length_append, length_contents, List.length_replicate]
  unfold cap at sizes
  omega

@[simp] theorem cap_fill (buffer : Buffer) (bytes : Bytes) (fits : bytes.length ≤ buffer.space) :
    (buffer.fill bytes fits).cap = buffer.cap := by
  have inside := buffer.end_le
  unfold space cap at fits
  simp only [cap, fill, List.length_append, List.length_take, List.length_drop]
  omega

@[simp] theorem cap_copyFrom (src : Buffer) : src.copyFrom.cap = src.cap := by
  have begins := src.begin_le
  have ends := src.end_le
  simp only [cap, copyFrom, List.length_append, List.length_replicate, length_contents, size]
  omega

/-! ## Storage for the suggested size -/

/-- The suggested size is `e`, and there is no storage or at least as much. -/
structure Roomy (e : ℕ) (buffer : Buffer) : Prop where
  exp : buffer.exp = e
  cap : buffer.cap = 0 ∨ e ≤ buffer.cap

namespace Roomy

theorem expand (roomy : Roomy e buffer) (len : ℕ) : Roomy e (buffer.expand len) := by
  refine ⟨roomy.exp, .inr ?_⟩
  rw [cap_expand, roomy.exp]
  exact le_max_left _ _

theorem makeRoomFor (roomy : Roomy e buffer) (len : ℕ) : Roomy e (buffer.makeRoomFor len) := by
  unfold Buffer.makeRoomFor
  split_ifs
  · exact roomy
  · exact ⟨roomy.exp, buffer.cap_moveHead ▸ roomy.cap⟩
  · exact roomy.expand len

theorem makeRoom (roomy : Roomy e buffer) : Roomy e buffer.makeRoom := by
  unfold Buffer.makeRoom
  split_ifs
  · exact roomy.expand 0
  · exact roomy

theorem clear (roomy : Roomy e buffer) : Roomy e buffer.clear := ⟨roomy.exp, .inl rfl⟩

theorem consume (roomy : Roomy e buffer) {len : ℕ} (consumed : buffer.consume len = some rest) :
    Roomy e rest := by
  unfold Buffer.consume at consumed
  split at consumed
  · cases consumed
    split_ifs
    · exact ⟨roomy.exp, .inl rfl⟩
    · exact ⟨roomy.exp, roomy.cap⟩
  · cases consumed

/-- **`makeRoom()` leaves room for the suggested size.** When the storage is doubled, what was
all of it before is free after it. -/
theorem le_space_makeRoom (roomy : Roomy e buffer) : e ≤ buffer.makeRoom.space := by
  have sizes := buffer.size_le_cap
  have exp := roomy.exp
  have cap := roomy.cap
  unfold Buffer.makeRoom
  split_ifs with full
  · have ends : (buffer.expand 0).e = buffer.size := rfl
    rw [space, cap_expand, ends]
    omega
  · omega

end Roomy

/-- A buffer that takes over the storage of one with a smaller suggested size has less space. -/
example :
    ((new.setSuggestSize 5).absorb ((new.setSuggestSize 2).append [1])).1.makeRoom.space = 4 := by
  decide

end Buffer

/-! ## Runs of operations -/

/-- What happens to a set of buffers: an operation, or bytes are written into the free space,
as `read` does, and `addSize` is called. -/
inductive StoreEvent (ι : Type) where
  | perform (op : BufferOp ι)
  | fill (dst : ι) (bytes : Bytes)

namespace StoreEvent

variable {ι : Type} [DecidableEq ι] {store after : ι → Buffer} {good : ℕ → Prop}
  {holds : Buffer → Prop}

def step (store : ι → Buffer) : StoreEvent ι → Option (ι → Buffer)
  | perform op => op.step store
  | fill dst bytes =>
      if fits : bytes.length ≤ (store dst).space then
        some (Function.update store dst ((store dst).fill bytes fits))
      else none

def run (store : ι → Buffer) : List (StoreEvent ι) → Option (ι → Buffer)
  | [] => some store
  | event :: rest => (event.step store).bind fun store => run store rest

/-- A size given to `setSuggestSize` is `good`. -/
def Suggests (good : ℕ → Prop) : StoreEvent ι → Prop
  | perform (.setSuggestSize _ size) => good size
  | _ => True

/-- Empty buffers with their suggested sizes. -/
def fresh (sizes : ι → ℕ) (i : ι) : Buffer := Buffer.new.setSuggestSize (sizes i)

/-- Some events, in which the sizes suggested are `good`, lead from a set of buffers to another. -/
def Reaches (good : ℕ → Prop) (store after : ι → Buffer) : Prop :=
  ∃ events : List (StoreEvent ι), (∀ event ∈ events, event.Suggests good) ∧
    run store events = some after

theorem Reaches.refl : Reaches good store store :=
  ⟨[], fun _ member => absurd member List.not_mem_nil, rfl⟩

theorem Reaches.cons (event : StoreEvent ι) {middle : ι → Buffer} (suggests : event.Suggests good)
    (stepped : event.step store = some middle) (reaches : Reaches good middle after) :
    Reaches good store after := by
  obtain ⟨rest, allowed, ran⟩ := reaches
  refine ⟨event :: rest, List.forall_mem_cons.mpr ⟨suggests, allowed⟩, ?_⟩
  rw [run, stepped, Option.bind_some, ran]

theorem step_fill (store : ι → Buffer) (dst : ι) {buffer : Buffer} {bytes : Bytes}
    (fits : bytes.length ≤ buffer.space) :
    step (Function.update store dst buffer) (.fill dst bytes) =
      some (Function.update store dst (buffer.fill bytes fits)) := by
  simp [step, fits]

/-- What every operation keeps, where the sizes suggested are `good`. -/
structure Closed (good : ℕ → Prop) (holds : Buffer → Prop) : Prop where
  makeRoomFor : ∀ ⦃buffer⦄ (len : ℕ), holds buffer → holds (buffer.makeRoomFor len)
  makeRoom : ∀ ⦃buffer⦄, holds buffer → holds buffer.makeRoom
  fill : ∀ ⦃buffer⦄ (bytes : Bytes) (fits : bytes.length ≤ buffer.space), holds buffer →
    holds (buffer.fill bytes fits)
  consume : ∀ ⦃buffer rest⦄ (len : ℕ), holds buffer → buffer.consume len = some rest → holds rest
  clear : ∀ ⦃buffer⦄, holds buffer → holds buffer.clear
  /-- The storage of another buffer is taken over. -/
  takeOver : ∀ ⦃buffer other⦄, holds buffer → holds other → holds { other with exp := buffer.exp }
  setSuggestSize : ∀ ⦃buffer⦄ (size : ℕ), good size → holds buffer →
    holds (buffer.setSuggestSize size)
  copyFrom : ∀ ⦃src⦄, holds src → holds src.copyFrom

namespace Closed

theorem append (closed : Closed good holds) {buffer : Buffer} (bytes : Bytes)
    (before : holds buffer) : holds (buffer.append bytes) :=
  closed.fill bytes _ (closed.makeRoomFor bytes.length before)

theorem absorb (closed : Closed good holds) {buffer other : Buffer} (first : holds buffer)
    (second : holds other) :
    holds (buffer.absorb other).1 ∧ holds (buffer.absorb other).2 := by
  unfold Buffer.absorb
  split_ifs
  · exact ⟨closed.takeOver first second, closed.takeOver second first⟩
  · exact ⟨closed.append other.contents first, closed.clear second⟩

theorem update {buffer : Buffer} (all : ∀ i, holds (store i)) (dst : ι) (here : holds buffer)
    (i : ι) : holds (Function.update store dst buffer i) := by
  by_cases same : i = dst
  · subst same
    rwa [Function.update_self]
  · rw [Function.update_of_ne same]
    exact all i

/-- One operation. -/
theorem perform (closed : Closed good holds) {op : BufferOp ι}
    (suggests : (StoreEvent.perform op).Suggests good) (all : ∀ i, holds (store i))
    (stepped : op.step store = some after) : ∀ i, holds (after i) := by
  cases op with
  | append dst bytes =>
      cases stepped
      exact update all dst (closed.append bytes (all dst))
  | appendValue dst value =>
      cases stepped
      exact update all dst (closed.append value (all dst))
  | allocRoom dst bytes =>
      cases stepped
      exact update all dst (closed.append bytes (all dst))
  | makeRoomFor dst len bytes =>
      simp only [BufferOp.step] at stepped
      split at stepped
      · cases stepped
        exact update all dst (closed.fill bytes _ (closed.makeRoomFor len (all dst)))
      · cases stepped
  | makeRoom dst =>
      cases stepped
      exact update all dst (closed.makeRoom (all dst))
  | consume dst len =>
      obtain ⟨rest, consumed, rfl⟩ := Option.map_eq_some_iff.mp stepped
      exact update all dst (closed.consume len (all dst) consumed)
  | clear dst =>
      cases stepped
      exact update all dst (closed.clear (all dst))
  | absorb dst src =>
      simp only [BufferOp.step] at stepped
      split at stepped
      · cases stepped
        exact all
      · cases stepped
        obtain ⟨first, second⟩ := closed.absorb (all dst) (all src)
        exact update (update all dst first) src second
  | setSuggestSize dst size =>
      cases stepped
      exact update all dst (closed.setSuggestSize size suggests (all dst))
  | construct dst src =>
      simp only [BufferOp.step] at stepped
      split at stepped
      · cases stepped
      · cases stepped
        exact update all dst (closed.copyFrom (all src))
  | assign dst src =>
      simp only [BufferOp.step] at stepped
      split at stepped
      · cases stepped
        exact all
      · cases stepped
        exact update all dst (closed.copyFrom (all src))

/-- One event. -/
theorem step (closed : Closed good holds) {event : StoreEvent ι} (suggests : event.Suggests good)
    (all : ∀ i, holds (store i)) (stepped : event.step store = some after) :
    ∀ i, holds (after i) := by
  cases event with
  | perform op => exact closed.perform suggests all stepped
  | fill dst bytes =>
      simp only [StoreEvent.step] at stepped
      split at stepped
      · cases stepped
        exact update all dst (closed.fill bytes _ (all dst))
      · cases stepped

/-- **What every operation keeps holds of all the buffers after every run.** -/
theorem run (closed : Closed good holds) (reaches : Reaches good store after)
    (all : ∀ i, holds (store i)) : ∀ i, holds (after i) := by
  obtain ⟨events, suggests, ran⟩ := reaches
  induction events generalizing store with
  | nil =>
      cases ran
      exact all
  | cons event rest ih =>
      obtain ⟨middle, stepped, others⟩ := Option.bind_eq_some_iff.mp ran
      refine ih ?_ (fun event member => suggests event (List.mem_cons_of_mem _ member)) others
      exact closed.step (suggests event List.mem_cons_self) all stepped

end Closed

/-- Suggested sizes stay positive. -/
theorem closed_positive : Closed (1 ≤ ·) fun buffer => 0 < buffer.exp where
  makeRoomFor := fun buffer len before => (buffer.exp_makeRoomFor len).symm ▸ before
  makeRoom := fun buffer before => buffer.exp_makeRoom.symm ▸ before
  fill := fun _ _ _ before => before
  consume := fun _ _ _ before consumed => (Buffer.exp_of_consume consumed).symm ▸ before
  clear := fun _ before => before
  takeOver := fun _ _ before _ => before
  setSuggestSize := fun _ _ good _ => good
  copyFrom := fun _ before => before

/-- Where all suggested sizes are the same, every storage is large enough for it. -/
theorem closed_roomy (e : ℕ) : Closed (· = e) (Buffer.Roomy e) where
  makeRoomFor := fun _ len before => before.makeRoomFor len
  makeRoom := fun _ before => before.makeRoom
  fill := fun buffer bytes fits before => ⟨before.exp, buffer.cap_fill bytes fits ▸ before.cap⟩
  consume := fun _ _ _ before consumed => before.consume consumed
  clear := fun _ before => before.clear
  takeOver := fun _ _ first second => ⟨first.exp, second.cap⟩
  setSuggestSize := fun _ _ good before => ⟨good, before.cap⟩
  copyFrom := fun src before => ⟨before.exp, src.cap_copyFrom ▸ before.cap⟩

end StoreEvent

end Handy
