import Mathlib

/-!
# A queue of work and those who work it off

Pieces of work are accepted into a queue, taken from its front by workers and finished by
them, in any order of these events. Every piece of work that was accepted is in exactly one
place, and pieces are taken in the order in which they were accepted (`Conserved`). A single
worker also finishes them in this order (`Sequential`).
-/

set_option autoImplicit false

/-- A queue of work: what waits in it, what each worker has in its hands, and the histories of
what was accepted, taken and finished. -/
@[ext]
structure WorkQueue (ω π : Type*) where
  queued : List π
  held : ω → Option π
  accepted : List π
  dequeued : List π
  executed : List π

namespace WorkQueue

variable {ω π : Type*} [DecidableEq ω]

/-- Nothing has happened yet. -/
def empty : WorkQueue ω π :=
  ⟨[], fun _ => none, [], [], []⟩

/-- What can happen to a queue of work. -/
inductive Move (queue : WorkQueue ω π) : WorkQueue ω π → Prop where
  | idle : Move queue queue
  | accept {p : π} (fresh : p ∉ queue.accepted) :
      Move queue { queue with queued := queue.queued ++ [p], accepted := queue.accepted ++ [p] }
  | take {w : ω} {p : π} {rest : List π} (free : queue.held w = none)
      (first : queue.queued = p :: rest) :
      Move queue { queue with
        queued := rest
        held := Function.update queue.held w (some p)
        dequeued := queue.dequeued ++ [p] }
  | finish {w : ω} {p : π} (holding : queue.held w = some p) :
      Move queue { queue with
        held := Function.update queue.held w none
        executed := queue.executed ++ [p] }

/-- Every accepted piece of work is queued, in the hands of one worker or finished once. -/
structure Conserved (queue : WorkQueue ω π) : Prop where
  order : queue.accepted = queue.dequeued ++ queue.queued
  distinct : queue.accepted.Nodup
  gone : ∀ p, p ∈ queue.dequeued ↔ p ∈ queue.executed ∨ ∃ w, queue.held w = some p
  once : queue.executed.Nodup
  single : ∀ {v w : ω} {p : π}, queue.held v = some p → queue.held w = some p → v = w
  unfinished : ∀ {w : ω} {p : π}, queue.held w = some p → p ∉ queue.executed

variable {queue after : WorkQueue ω π}

omit [DecidableEq ω] in
theorem conserved_empty : (empty : WorkQueue ω π).Conserved :=
  { order := rfl
    distinct := List.nodup_nil
    gone := by simp [empty]
    once := List.nodup_nil
    single := nofun
    unfinished := nofun }

namespace Conserved

omit [DecidableEq ω] in
theorem accept (conserved : queue.Conserved) {p : π} (fresh : p ∉ queue.accepted) :
    Conserved { queue with
      queued := queue.queued ++ [p], accepted := queue.accepted ++ [p] } :=
  { conserved with
    order := by simp [conserved.order]
    distinct := by simpa only [List.concat_eq_append] using conserved.distinct.concat fresh }

omit [DecidableEq ω] in
/-- The first in the queue has not been taken before. -/
theorem front_not_dequeued (conserved : queue.Conserved) {p : π} {rest : List π}
    (first : queue.queued = p :: rest) : p ∉ queue.dequeued := by
  have distinct := conserved.distinct
  rw [conserved.order, first] at distinct
  intro before
  exact (List.nodup_append.mp distinct).2.2 p before p List.mem_cons_self rfl

theorem take (conserved : queue.Conserved) {w : ω} {p : π} {rest : List π}
    (free : queue.held w = none) (first : queue.queued = p :: rest) :
    Conserved { queue with
      queued := rest
      held := Function.update queue.held w (some p)
      dequeued := queue.dequeued ++ [p] } := by
  have fresh := conserved.front_not_dequeued first
  have untouched : ∀ v, queue.held v ≠ some p := fun v holding =>
    fresh ((conserved.gone p).mpr (.inr ⟨v, holding⟩))
  have unexecuted : p ∉ queue.executed := fun done => fresh ((conserved.gone p).mpr (.inl done))
  refine ⟨by simp [conserved.order, first], conserved.distinct, fun q => ?_, conserved.once,
    fun {u v q} one other => ?_, fun {v q} holding => ?_⟩
  · have others : (∃ v, Function.update queue.held w (some p) v = some q) ↔
        q = p ∨ ∃ v, queue.held v = some q := by
      constructor
      · rintro ⟨v, holding⟩
        by_cases same : v = w
        · subst same
          rw [Function.update_self] at holding
          exact .inl (Option.some.inj holding).symm
        · rw [Function.update_of_ne same] at holding
          exact .inr ⟨v, holding⟩
      · rintro (rfl | ⟨v, holding⟩)
        · exact ⟨w, Function.update_self ..⟩
        · refine ⟨v, ?_⟩
          rwa [Function.update_of_ne]
          rintro rfl
          rw [free] at holding
          cases holding
    rw [List.mem_append, conserved.gone, List.mem_singleton]
    dsimp only
    rw [others]
    tauto
  · simp only [Function.update_apply] at one other
    split at one <;> split at other
    · rename_i sameU sameV
      rw [sameU, sameV]
    · cases one
      exact absurd other (untouched v)
    · cases other
      exact absurd one (untouched u)
    · exact conserved.single one other
  · simp only [Function.update_apply] at holding
    split at holding
    · cases holding
      exact unexecuted
    · exact conserved.unfinished holding

theorem finish (conserved : queue.Conserved) {w : ω} {p : π} (holding : queue.held w = some p) :
    Conserved { queue with
      held := Function.update queue.held w none
      executed := queue.executed ++ [p] } := by
  have once := conserved.once.concat (conserved.unfinished holding)
  rw [List.concat_eq_append] at once
  refine ⟨conserved.order, conserved.distinct, fun q => ?_, once, fun {u v q} one other => ?_,
    fun {v q} still => ?_⟩
  · have others : (∃ v, Function.update queue.held w none v = some q) ∨ q = p ↔
        ∃ v, queue.held v = some q := by
      constructor
      · rintro (⟨v, still⟩ | rfl)
        · by_cases same : v = w
          · subst same
            rw [Function.update_self] at still
            cases still
          · rw [Function.update_of_ne same] at still
            exact ⟨v, still⟩
        · exact ⟨w, holding⟩
      · rintro ⟨v, still⟩
        by_cases same : v = w
        · subst same
          rw [holding] at still
          exact .inr (Option.some.inj still).symm
        · exact .inl ⟨v, by rwa [Function.update_of_ne same]⟩
    rw [List.mem_append, conserved.gone, List.mem_singleton, ← others]
    tauto
  · simp only [Function.update_apply] at one other
    split at one
    · cases one
    · split at other
      · cases other
      · exact conserved.single one other
  · simp only [Function.update_apply] at still
    split at still
    · cases still
    · rename_i different
      rw [List.mem_append, List.mem_singleton]
      rintro (done | rfl)
      · exact conserved.unfinished still done
      · exact different (conserved.single still holding)

/-- **Nothing that happens to a queue of work loses or doubles a piece of it.** -/
theorem move (conserved : queue.Conserved) (step : Move queue after) : after.Conserved := by
  cases step with
  | idle => exact conserved
  | accept fresh => exact conserved.accept fresh
  | take free first => exact conserved.take free first
  | finish holding => exact conserved.finish holding

end Conserved

theorem Move.dequeued_subset (step : Move queue after) : queue.dequeued ⊆ after.dequeued := by
  cases step with
  | idle | accept _ | finish _ => exact List.Subset.refl _
  | take _ _ => exact List.subset_append_left ..

/-- A single worker finishes what it has taken before it takes more. -/
def Sequential (queue : WorkQueue Unit π) : Prop :=
  queue.dequeued = queue.executed ++ (queue.held ()).toList

theorem Sequential.move {queue after : WorkQueue Unit π} (sequential : queue.Sequential)
    (step : Move queue after) : after.Sequential := by
  unfold Sequential at sequential
  cases step with
  | idle | accept _ => exact sequential
  | @take _ p rest free first => simp [Sequential, sequential, free]
  | @finish _ p holding => simp [Sequential, sequential, holding]

end WorkQueue
