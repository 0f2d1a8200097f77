import Mathlib

/-!
# Pieces of work and the threads that owe them

A condition variable is used correctly when nobody sleeps on work. The threads that have yet to
look for work, or to wake somebody who will, each owe one piece of it. Work is covered when there
are at least as many threads that owe as there are pieces (`Covered`). A piece that is added makes
a thread owe, a notification hands the debt on, and a piece that is taken pays one debt. When
nobody owes anything, there is no work.
-/

set_option autoImplicit false

namespace Wakeup

variable {τ : Type*}

/-- There are at least as many threads that owe a piece of work as there are pieces. -/
def Covered (pieces : ℕ) (owing : Set τ) : Prop := (pieces : ℕ∞) ≤ owing.encard

namespace Covered

variable {pieces fewer : ℕ} {owing after : Set τ}

/-- When nobody owes anything, there is no work. -/
theorem none_left (covered : Covered pieces owing) (nobody : owing = ∅) : pieces = 0 := by
  rw [Covered, nobody, Set.encard_empty] at covered
  exact_mod_cast nonpos_iff_eq_zero.mp covered

theorem nothing (owing : Set τ) : Covered 0 owing := bot_le

theorem mono (covered : Covered pieces owing) (less : fewer ≤ pieces) (more : owing ⊆ after) :
    Covered fewer after :=
  (Nat.cast_le.mpr less).trans (covered.trans (Set.encard_le_encard more))

/-- A piece is added, and a thread that owed nothing owes it. -/
theorem add (covered : Covered pieces owing) (thread : τ) (fresh : thread ∉ owing)
    (more : insert thread owing ⊆ after) : Covered (pieces + 1) after := by
  have counted := Set.encard_le_encard more
  rw [Set.encard_insert_of_notMem fresh] at counted
  refine le_trans ?_ counted
  rw [Nat.cast_add, Nat.cast_one]
  gcongr
  exact covered

/-- A thread hands its debt on to one that owed nothing. -/
theorem hand_on (covered : Covered pieces owing) (thread other : τ) (fresh : other ∉ owing)
    (handed : insert other (owing \ {thread}) ⊆ after) : Covered pieces after := by
  refine covered.trans (le_trans ?_ (Set.encard_le_encard handed))
  by_cases owed : thread ∈ owing
  · rw [Set.encard_exchange fresh owed]
  · rw [Set.sdiff_singleton_eq_self owed]
    exact Set.encard_le_encard (Set.subset_insert other owing)

/-- A piece is taken, and one thread may be quit of its debt. -/
theorem pay (covered : Covered (pieces + 1) owing) (thread : τ) (paid : owing \ {thread} ⊆ after) :
    Covered pieces after := by
  refine le_trans ?_ (Set.encard_le_encard paid)
  refine le_trans ?_ (Set.encard_tsub_one_le_encard_sdiff_singleton owing thread)
  rw [Covered, Nat.cast_add, Nat.cast_one] at covered
  exact ENat.le_sub_of_add_le_right ENat.one_ne_top covered

/-- Work of which every piece has its own thread is covered. -/
theorem of_each {work : Type*} {list : List work} (distinct : list.Nodup) (owes : work → τ)
    (own : Function.Injective owes) (each : ∀ piece ∈ list, owes piece ∈ owing) :
    Covered list.length owing := by
  classical
  have inside : (((list.map owes).toFinset : Finset τ) : Set τ) ⊆ owing := by
    intro thread member
    rw [Finset.mem_coe, List.mem_toFinset, List.mem_map] at member
    obtain ⟨piece, listed, rfl⟩ := member
    exact each piece listed
  have counted := Set.encard_le_encard inside
  rwa [Set.encard_coe_eq_coe_finsetCard, List.toFinset_card_of_nodup (distinct.map own),
    List.length_map] at counted

end Covered

end Wakeup
