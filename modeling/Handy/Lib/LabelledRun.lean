import Mathlib

/-!
# Runs of a labelled transition system

A transition system is a relation between a state, the label of a step and the
state after it. A run is a finite sequence of steps, recorded by its labels.

The two rules of this module are the ones invariants are proved by: a property
that every step keeps holds at the end of every run (`LabelledRun.invariant`),
and if in addition the property restricts the label of the next step, then every
label of the run is so restricted (`LabelledRun.forall_labels`). A history that each
step writes is read off the labels (`LabelledRun.history`).
-/

set_option autoImplicit false

universe u v

/-- A finite run, with the labels of its steps in order. -/
inductive LabelledRun {State : Type u} {Label : Type v} (step : State → Label → State → Prop) :
    State → List Label → State → Prop where
  | refl (state : State) : LabelledRun step state [] state
  | cons {first middle last : State} {label : Label} {rest : List Label}
      (head : step first label middle) (tail : LabelledRun step middle rest last) :
      LabelledRun step first (label :: rest) last

namespace LabelledRun

variable {State : Type u} {Label : Type v} {step : State → Label → State → Prop}
  {first middle last : State} {labels more : List Label}

theorem single {label : Label} (taken : step first label last) :
    LabelledRun step first [label] last :=
  .cons taken (.refl last)

theorem step_of_single {label : Label} (run : LabelledRun step first [label] last) :
    step first label last := by
  cases run with
  | cons head tail =>
      cases tail
      exact head

theorem append (earlier : LabelledRun step first labels middle)
    (later : LabelledRun step middle more last) :
    LabelledRun step first (labels ++ more) last := by
  induction earlier with
  | refl => exact later
  | cons head _ ih => exact .cons head (ih later)

/-- A run goes through the step of each of its labels. -/
theorem split {label : Label} (run : LabelledRun step first labels last) (member : label ∈ labels) :
    ∃ earlier before after later, labels = earlier ++ label :: later ∧
      LabelledRun step first earlier before ∧ step before label after ∧
      LabelledRun step after later last := by
  induction run with
  | refl => cases member
  | @cons first middle last taken rest head tail ih =>
      rcases List.mem_cons.mp member with rfl | among
      · exact ⟨[], first, middle, rest, rfl, .refl first, head, tail⟩
      · obtain ⟨earlier, before, after, later, shape, reached, stepped, goes⟩ := ih among
        exact ⟨taken :: earlier, before, after, later, by rw [shape, List.cons_append],
          .cons head reached, stepped, goes⟩

/-- A run of some steps is a run of more steps. -/
theorem mono {other : State → Label → State → Prop} (run : LabelledRun step first labels last)
    (implies : ∀ ⦃before label after⦄, label ∈ labels → step before label after →
      other before label after) : LabelledRun other first labels last := by
  induction run with
  | refl => exact .refl _
  | cons head _ ih =>
      refine .cons (implies List.mem_cons_self head) (ih fun _ _ _ member => ?_)
      exact implies (List.mem_cons_of_mem _ member)

/-- **A property that every step with an allowed label keeps holds at the end of every run
with allowed labels.** -/
theorem invariant_of_allowed (holds : State → Prop) (allowed : Label → Prop)
    (keeps : ∀ ⦃before label after⦄, allowed label → holds before → step before label after →
      holds after)
    (run : LabelledRun step first labels last) (permitted : ∀ label ∈ labels, allowed label)
    (start : holds first) : holds last := by
  induction run with
  | refl => exact start
  | cons head _ ih =>
      refine ih (fun label member => permitted label (List.mem_cons_of_mem _ member)) ?_
      exact keeps (permitted _ List.mem_cons_self) start head

/-- **A property that every step keeps holds at the end of every run.** -/
theorem invariant (holds : State → Prop)
    (keeps : ∀ ⦃before label after⦄, holds before → step before label after → holds after)
    (run : LabelledRun step first labels last) (start : holds first) : holds last :=
  run.invariant_of_allowed holds (fun _ => True) (fun _ _ _ _ before taken => keeps before taken)
    (fun _ _ => trivial) start

/-- **An invariant that restricts the next label restricts every label.** -/
theorem forall_labels (holds : State → Prop) (allowed : Label → Prop)
    (keeps : ∀ ⦃before label after⦄, holds before → step before label after → holds after)
    (restricts : ∀ ⦃before label after⦄, holds before → step before label after → allowed label)
    (run : LabelledRun step first labels last) (start : holds first) :
    ∀ label ∈ labels, allowed label := by
  induction run with
  | refl => intro label member; cases member
  | cons head _ ih =>
      intro label member
      rcases List.mem_cons.mp member with rfl | later
      · exact restricts start head
      · exact ih (keeps start head) label later

/-- A history that every step writes on by what its label says is what the labels say. -/
theorem history {α : Type*} (written : State → List α) (said : Label → Option α)
    (writes : ∀ ⦃before label after⦄, step before label after →
      written after = written before ++ (said label).toList)
    (run : LabelledRun step first labels last) :
    written last = written first ++ labels.filterMap said := by
  induction run with
  | refl => rw [List.filterMap_nil, List.append_nil]
  | @cons first middle last label rest head _ ih =>
      rw [ih, writes head, List.append_assoc]
      congr 1
      rw [List.filterMap_cons]
      cases said label <;> rfl

end LabelledRun

/-! ## Runs of a function -/

section Befores

variable {σ : Type u} {α : Type v}

/-- The states in which the steps of a run are taken. -/
def befores (step : σ → α → σ) : σ → List α → List σ
  | _, [] => []
  | s, a :: rest => s :: befores step (step s a) rest

theorem befores_concat (step : σ → α → σ) (s : σ) (list : List α) (a : α) :
    befores step s (list ++ [a]) = befores step s list ++ [list.foldl step s] := by
  induction list generalizing s with
  | nil => rfl
  | cons first rest ih => rw [List.cons_append, befores, befores, ih, List.foldl_cons, List.cons_append]

end Befores
