import Mathlib

/-!
# What happens at most once between two separators

A list of events is cut into segments by the events that separate. `OnceBetween` says
that in no segment more than one event is counted. When an event is put in front of the
list, only the first segment matters (`OnceBetween.cons`).
-/

set_option autoImplicit false

universe u

variable {α : Type u} {separates counts : α → Bool} {list : List α}

/-- Between two elements that separate, at most one element is counted. -/
def OnceBetween (separates counts : α → Bool) (list : List α) : Prop :=
  ∀ segment, segment <:+: list → segment.any separates = false → segment.countP counts ≤ 1

/-- The elements that are counted in the first segment. -/
def countFirst (separates counts : α → Bool) (list : List α) : ℕ :=
  (list.takeWhile fun element => !separates element).countP counts

@[simp] theorem countFirst_nil : countFirst separates counts [] = 0 := rfl

theorem countFirst_cons_of_separates {element : α} (separate : separates element = true) :
    countFirst separates counts (element :: list) = 0 := by
  simp [countFirst, separate]

theorem countFirst_cons_of_not_counts {element : α} (separate : separates element = false)
    (count : counts element = false) :
    countFirst separates counts (element :: list) = countFirst separates counts list := by
  simp [countFirst, separate, count]

/-- A segment at the front is part of the first segment. -/
theorem countP_le_countFirst {segment : List α} (front : segment <+: list)
    (whole : segment.any separates = false) :
    segment.countP counts ≤ countFirst separates counts list := by
  obtain ⟨rest, rfl⟩ := front
  refine List.Sublist.countP_le ?_
  rw [List.takeWhile_append_of_pos]
  · exact List.sublist_append_left _ _
  · intro element member
    simpa using List.any_eq_false.mp whole element member

theorem onceBetween_nil : OnceBetween separates counts [] := by
  intro segment inside _
  rw [List.infix_nil.mp inside]
  exact Nat.zero_le 1

/-- **An element in front** must separate, or not be counted, or be the first of its
segment to be counted. -/
theorem OnceBetween.cons {element : α} (once : OnceBetween separates counts list)
    (first : separates element = true ∨ counts element = false ∨
      countFirst separates counts list = 0) :
    OnceBetween separates counts (element :: list) := by
  intro segment inside whole
  rcases List.infix_cons_iff.mp inside with front | later
  · cases segment with
    | nil => exact Nat.zero_le 1
    | cons head rest =>
        obtain ⟨rfl, front'⟩ := List.cons_prefix_cons.mp front
        simp only [List.any_cons, Bool.or_eq_false_iff] at whole
        rcases first with separate | uncounted | none_yet
        · rw [whole.1] at separate
          cases separate
        · rw [List.countP_cons_of_neg (by simp [uncounted])]
          exact once rest front'.isInfix whole.2
        · have none_later : rest.countP counts ≤ countFirst separates counts list :=
            countP_le_countFirst front' whole.2
          rw [none_yet] at none_later
          rw [List.countP_cons]
          split_ifs <;> omega
  · exact once segment later whole
