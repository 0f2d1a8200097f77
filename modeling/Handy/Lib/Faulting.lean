import Mathlib

/-!
# Programs that may stop with a fault

A program of `EStateM ε σ` either returns a value or stops with a fault, and has a
state in both cases. `Meets before program after stopped` is the Hoare triple with one
postcondition for each of the two ways to end, in the form that `mvcgen` uses: lemmas
of this shape about the parts of a program are all that a proof about the whole needs.

`Moves relation program` says that a program moves along a relation between states, in
whichever way it ends; for a preorder this composes like a triple, and a property that
the relation preserves is kept by the program (`Moves.keeps`).

`Meets.ok` and `Meets.fault` turn a triple into a statement about a run.
-/

set_option autoImplicit false

open Std.Do

section

variable {ε σ α : Type}

/-- From states in `before`, the program ends in `after` if it returns and in `stopped`
if it faults. -/
abbrev Meets (before : σ → Prop) (program : EStateM ε σ α) (after : α → σ → Prop)
    (stopped : ε → σ → Prop) : Prop :=
  ⦃fun s => ⌜before s⌝⦄ program ⦃post⟨fun a s => ⌜after a s⌝, fun e s => ⌜stopped e s⌝⟩⦄

variable {before : σ → Prop} {program : EStateM ε σ α} {after : α → σ → Prop}
  {stopped : ε → σ → Prop}

/-- The outcome of a program that meets a specification. -/
theorem meets_iff :
    Meets before program after stopped ↔ ∀ s, before s →
      match program.run s with
      | .ok a s' => after a s'
      | .error e s' => stopped e s' := by
  refine forall_congr' fun s => imp_congr Iff.rfl ?_
  simp only [wp, PredTrans.apply]
  cases program.run s with
  | ok a s' => exact Iff.rfl
  | error e s' => exact Iff.rfl

-- `Iff.mp meets_iff` below: the name `meets_iff.mp` is looked up only when the proof above is done.

theorem Meets.ok (meets : Meets before program after stopped) {s s' : σ} {a : α}
    (start : before s) (ran : program.run s = .ok a s') : after a s' := by
  have outcome := Iff.mp meets_iff meets s start
  rwa [ran] at outcome

theorem Meets.fault (meets : Meets before program after stopped) {s s' : σ} {e : ε}
    (start : before s) (ran : program.run s = .error e s') : stopped e s' := by
  have outcome := Iff.mp meets_iff meets s start
  rwa [ran] at outcome

/-- A weaker specification. -/
theorem Meets.imp (meets : Meets before program after stopped) {before' : σ → Prop}
    {after' : α → σ → Prop} {stopped' : ε → σ → Prop} (pre : ∀ s, before' s → before s)
    (post : ∀ a s, after a s → after' a s) (fault : ∀ e s, stopped e s → stopped' e s) :
    Meets before' program after' stopped' := by
  refine Iff.mpr meets_iff fun s start => ?_
  have outcome := Iff.mp meets_iff meets s (pre s start)
  cases ran : program.run s with
  | ok a s' =>
      rw [ran] at outcome
      exact post a s' outcome
  | error e s' =>
      rw [ran] at outcome
      exact fault e s' outcome

/-- Two specifications at once. -/
theorem Meets.and (meets : Meets before program after stopped) {before' : σ → Prop}
    {after' : α → σ → Prop} {stopped' : ε → σ → Prop} (other : Meets before' program after' stopped') :
    Meets (fun s => before s ∧ before' s) program (fun a s => after a s ∧ after' a s)
      (fun e s => stopped e s ∧ stopped' e s) := by
  refine Iff.mpr meets_iff fun s start => ?_
  have first := Iff.mp meets_iff meets s start.1
  have second := Iff.mp meets_iff other s start.2
  cases ran : program.run s with
  | ok a s' =>
      rw [ran] at first second
      exact ⟨first, second⟩
  | error e s' =>
      rw [ran] at first second
      exact ⟨first, second⟩

/-- A specification shown in two cases. -/
theorem Meets.by_cases (split : σ → Prop)
    (yes : Meets (fun s => before s ∧ split s) program after stopped)
    (no : Meets (fun s => before s ∧ ¬ split s) program after stopped) :
    Meets before program after stopped := by
  refine Iff.mpr meets_iff fun s start => ?_
  by_cases holds : split s
  · exact Iff.mp meets_iff yes s ⟨start, holds⟩
  · exact Iff.mp meets_iff no s ⟨start, holds⟩

/-- Every program meets a specification that says nothing. -/
theorem Meets.trivial : Meets before program (fun _ _ => True) fun _ _ => True := by
  refine Iff.mpr meets_iff fun s _ => ?_
  cases program.run s <;> exact True.intro

/-- The program moves along a relation, whether it returns or faults. -/
abbrev Moves (relation : σ → σ → Prop) (program : EStateM ε σ α) : Prop :=
  ∀ s₀, Meets (fun s => relation s₀ s) program (fun _ s => relation s₀ s) fun _ s => relation s₀ s

theorem Moves.keeps {relation : σ → σ → Prop} (moves : Moves relation program)
    (refl : ∀ s, relation s s) {holds : σ → Prop}
    (preserved : ∀ s s', holds s → relation s s' → holds s') :
    Meets holds program (fun _ => holds) fun _ => holds := by
  refine Iff.mpr meets_iff fun s start => ?_
  have outcome := Iff.mp meets_iff (moves s) s (refl s)
  cases ran : program.run s with
  | ok a s' =>
      rw [ran] at outcome
      exact preserved s s' start outcome
  | error e s' =>
      rw [ran] at outcome
      exact preserved s s' start outcome

end
