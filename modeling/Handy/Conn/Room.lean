import Handy.Buffer.Room
import Handy.Conn.Chunks

/-!
# Room to read into

`handleRead` calls `makeRoom()` and reads as many bytes as there is room for. A read of no bytes
would return `0`, which `handleRead` takes for the end of the stream. `readLengths` are the lengths
it gives to `read`, and `makeRoom_leaves_room` says that none of them is zero on a buffer that any
operations have led to, as long as the suggested sizes are positive.
-/

set_option autoImplicit false

namespace Handy

namespace TcpConn

/-- The lengths that the loop of `handleRead` gives to `read`. -/
def readLengths : List ReadOutcome → Bytes → Buffer → List ℕ
  | [], _, input => [input.makeRoom.space]
  | .eintr :: reads, peer, input =>
      let input := input.makeRoom
      input.space :: readLengths reads peer input
  | .data n :: reads, peer, input =>
      let input := input.makeRoom
      if input.space = 0 ∨ peer = [] then [input.space]
      else
        let rd := min (n + 1) input.space
        input.space :: readLengths reads (peer.drop rd) (input.fill (peer.take rd) (by
          rw [List.length_take]
          omega))
  | _ :: _, _, input => [input.makeRoom.space]

/-- **Where the suggested size is positive, `read` is never called for no bytes.** -/
theorem readLengths_pos (reads : List ReadOutcome) (peer : Bytes) {input : Buffer}
    (positive : 0 < input.exp) : ∀ length ∈ readLengths reads peer input, 0 < length := by
  have here : 0 < input.makeRoom.space := Buffer.space_makeRoom_pos positive
  fun_induction readLengths reads peer input with
  | case1 peer input | case3 n reads peer input room | case5 outcome reads peer input =>
      intro length member
      rw [List.mem_singleton.mp member]
      exact here
  | case2 reads peer input room ih =>
      have kept : 0 < room.exp := input.exp_makeRoom.symm ▸ positive
      intro length member
      rcases List.mem_cons.mp member with rfl | later
      · exact here
      · exact ih kept (Buffer.space_makeRoom_pos kept) length later
  | case4 n reads peer input room going rd ih =>
      have kept : 0 < room.exp := input.exp_makeRoom.symm ▸ positive
      intro length member
      rcases List.mem_cons.mp member with rfl | later
      · exact here
      · exact ih kept (Buffer.space_makeRoom_pos kept) length later

/-- The loop ends for `cleanup` only where a read found the end of the stream or failed. -/
theorem readLoop_closed (reads : List ReadOutcome) (peer : Bytes) {input : Buffer}
    (positive : 0 < input.exp) (closed : (readLoop reads peer input).1 = .closed) :
    .eof ∈ reads ∨ .error ∈ reads := by
  have lasting : ¬∀ outcome ∈ reads, outcome ≠ .eof ∧ outcome ≠ .error := by
    intro lasting
    have again := (readLoop_again peer lasting positive).1
    rw [again] at closed
    cases closed
  push Not at lasting
  obtain ⟨outcome, member, ends⟩ := lasting
  by_cases eof : outcome = .eof
  · exact .inl (eof ▸ member)
  · exact .inr (ends eof ▸ member)

variable {ι : Type} [DecidableEq ι]

/-- What the loop does to its buffer are operations. -/
theorem reaches_readLoop (good : ℕ → Prop) (store : ι → Buffer) (i : ι) (reads : List ReadOutcome)
    (peer : Bytes) (input : Buffer) :
    StoreEvent.Reaches good (Function.update store i input)
      (Function.update store i (readLoop reads peer input).2.2.2) := by
  have made : ∀ {input : Buffer} {after : ι → Buffer},
      StoreEvent.Reaches good (Function.update store i input.makeRoom) after →
        StoreEvent.Reaches good (Function.update store i input) after := by
    intro input after rest
    refine .cons (.perform (.makeRoom i)) trivial ?_ rest
    rw [StoreEvent.step, BufferOp.step, Function.update_self, Function.update_idem]
  fun_induction readLoop reads peer input with
  | case1 peer input | case3 reads peer input room | case4 reads peer input room
  | case5 reads peer input room | case6 reads peer input room | case7 reads input room =>
      exact made .refl
  | case2 reads peer input room ih => exact made ih
  | case8 reads peer input room n _ _ rd ih =>
      exact made (.cons (.fill i (peer.take rd)) trivial (StoreEvent.step_fill store i _) ih)

/-- **There is always room to read into**: whatever operations lead to a set of buffers whose
suggested sizes are positive, `makeRoom()` leaves the contents of each of them as they are and some
space, so that `handleRead` never calls `read` for no bytes and closes the connection only when
`read` finds the end of the stream or fails. Where all of them keep the same suggested size, that
much space is left. -/
theorem makeRoom_leaves_room (store : ι → Buffer) (i : ι) :
    (∀ sizes : ι → ℕ, (∀ j, 1 ≤ sizes j) →
      StoreEvent.Reaches (1 ≤ ·) (StoreEvent.fresh sizes) store →
        (store i).makeRoom.contents = (store i).contents ∧ 0 < (store i).makeRoom.space ∧
          ∀ reads peer, (∀ length ∈ readLengths reads peer (store i), 0 < length) ∧
            ((readLoop reads peer (store i)).1 = .closed → .eof ∈ reads ∨ .error ∈ reads)) ∧
    ∀ e, StoreEvent.Reaches (· = e) (StoreEvent.fresh fun _ => e) store →
      e ≤ (store i).makeRoom.space := by
  refine ⟨fun sizes positive reaches => ?_, fun e reaches => ?_⟩
  · have exp : 0 < (store i).exp := StoreEvent.closed_positive.run reaches positive i
    refine ⟨(store i).contents_makeRoom, Buffer.space_makeRoom_pos exp, fun reads peer => ?_⟩
    exact ⟨readLengths_pos reads peer exp, readLoop_closed reads peer exp⟩
  · have roomy : ∀ j, Buffer.Roomy e (store j) :=
      (StoreEvent.closed_roomy e).run reaches fun _ => ⟨rfl, .inl rfl⟩
    exact (roomy i).le_space_makeRoom

/-- A buffer of suggested size `5` takes over the storage of one of suggested size `2`. -/
def takeOver : List (StoreEvent Bool) :=
  [.perform (.append false [1]), .perform (.absorb true false)]

theorem makeRoom_leaves_room_takeOver :
    ∃ store after,
      StoreEvent.run (StoreEvent.fresh fun larger => if larger then 5 else 2) takeOver = some store ∧
      (∀ length ∈ readLengths [.eintr, .data 8, .eof] [2, 3] (store true), 0 < length) ∧
      StoreEvent.run (StoreEvent.fresh fun _ => 5) takeOver = some after ∧
      5 ≤ (after true).makeRoom.space := by
  have suggests : ∀ good : ℕ → Prop, ∀ event ∈ takeOver, event.Suggests good := by
    intro good
    exact List.forall_mem_cons.mpr ⟨trivial, List.forall_mem_singleton.mpr trivial⟩
  refine ⟨_, _, rfl, ?_, rfl, ?_⟩
  · exact (((makeRoom_leaves_room _ true).1 (fun larger => if larger then 5 else 2) (by decide)
      ⟨takeOver, suggests _, rfl⟩).2.2 [.eintr, .data 8, .eof] [2, 3]).1
  · exact (makeRoom_leaves_room _ true).2 5 ⟨takeOver, suggests _, rfl⟩

end TcpConn

end Handy
