import Mathlib

/-!
# Ordered multimaps

An ordered multimap keeps its entries in the order of their keys, and entries with equal keys in
the order in which they were emplaced. If the values are ranked, and each is emplaced with a
higher rank than those before it, then the entries are in the order of their keys and ranks
(`OrderedMultimap.ranked_emplace`).
-/

set_option autoImplicit false

universe u v

/-- An ordered multimap, as the list of its entries. -/
structure OrderedMultimap (κ : Type u) (ν : Type v) [LinearOrder κ] where
  entries : List (κ × ν)
  sorted : entries.Pairwise fun first second => first.1 ≤ second.1

namespace OrderedMultimap

variable {κ : Type u} {ν : Type v} [LinearOrder κ]

def empty : OrderedMultimap κ ν := ⟨[], List.Pairwise.nil⟩

/-- The entries before the upper bound of a key. -/
def upTo (map : OrderedMultimap κ ν) (key : κ) : List (κ × ν) :=
  map.entries.takeWhile fun entry => entry.1 ≤ key

/-- The entries from the upper bound of a key on. -/
def above (map : OrderedMultimap κ ν) (key : κ) : List (κ × ν) :=
  map.entries.dropWhile fun entry => entry.1 ≤ key

variable (map : OrderedMultimap κ ν) {key : κ} {value : ν} {entry : κ × ν}

theorem upTo_append_above (key : κ) : map.upTo key ++ map.above key = map.entries :=
  List.takeWhile_append_dropWhile

theorem le_of_mem_upTo (member : entry ∈ map.upTo key) : entry.1 ≤ key := by
  simpa using List.mem_takeWhile_imp member

theorem lt_of_mem_above (member : entry ∈ map.above key) : key < entry.1 := by
  have ordered : (map.above key).Pairwise fun first second => first.1 ≤ second.1 :=
    map.sorted.sublist (List.dropWhile_sublist _)
  cases shape : map.above key with
  | nil =>
      rw [shape] at member
      cases member
  | cons first rest =>
      have fails := List.head?_dropWhile_not (fun entry : κ × ν => decide (entry.1 ≤ key)) map.entries
      rw [← above, shape] at fails
      rw [shape] at member ordered
      have low : key < first.1 := by simpa using fails
      rcases List.mem_cons.mp member with rfl | among
      · exact low
      · exact low.trans_le (List.rel_of_pairwise_cons ordered among)

theorem mem_upTo : entry ∈ map.upTo key ↔ entry ∈ map.entries ∧ entry.1 ≤ key := by
  constructor
  · intro member
    exact ⟨(List.takeWhile_sublist _).subset member, map.le_of_mem_upTo member⟩
  · rintro ⟨member, le⟩
    rw [← map.upTo_append_above key] at member
    rcases List.mem_append.mp member with low | high
    · exact low
    · exact absurd le (not_le.mpr (map.lt_of_mem_above high))

theorem mem_above : entry ∈ map.above key ↔ entry ∈ map.entries ∧ key < entry.1 := by
  constructor
  · intro member
    exact ⟨(List.dropWhile_sublist _).subset member, map.lt_of_mem_above member⟩
  · rintro ⟨member, lt⟩
    rw [← map.upTo_append_above key] at member
    rcases List.mem_append.mp member with low | high
    · exact absurd lt (not_lt.mpr (map.le_of_mem_upTo low))
    · exact high

/-! ## Changes -/

/-- A relation that orders the entries with a new one, if it orders them without it and the new
entry stands between those before its upper bound and those behind. -/
theorem pairwise_between {related : κ × ν → κ × ν → Prop} (ordered : map.entries.Pairwise related)
    (before : ∀ other ∈ map.upTo key, related other (key, value))
    (after : ∀ other ∈ map.above key, related (key, value) other) :
    (map.upTo key ++ (key, value) :: map.above key).Pairwise related := by
  rw [← map.upTo_append_above key, List.pairwise_append] at ordered
  obtain ⟨low, high, across⟩ := ordered
  refine List.pairwise_append.mpr ⟨low, List.pairwise_cons.mpr ⟨after, high⟩, ?_⟩
  intro first lower second member
  rcases List.mem_cons.mp member with rfl | upper
  · exact before first lower
  · exact across first lower second upper

/-- `emplace` puts a new entry behind those with the same key. -/
def emplace (key : κ) (value : ν) : OrderedMultimap κ ν where
  entries := map.upTo key ++ (key, value) :: map.above key
  sorted := map.pairwise_between map.sorted (fun _ => map.le_of_mem_upTo)
    fun _ member => (map.lt_of_mem_above member).le

/-- The entries before the upper bound of a key are erased. -/
def eraseUpTo (key : κ) : OrderedMultimap κ ν where
  entries := map.above key
  sorted := map.sorted.sublist (List.dropWhile_sublist _)

theorem emplace_perm (key : κ) (value : ν) :
    (map.emplace key value).entries.Perm ((key, value) :: map.entries) := by
  have middle : (map.upTo key ++ (key, value) :: map.above key).Perm
      ((key, value) :: (map.upTo key ++ map.above key)) := List.perm_middle
  rwa [upTo_append_above] at middle

/-! ## Ranks -/

/-- The first entry stands before the second: its key is smaller, or the keys are equal and its
rank is. -/
def Precedes (rank : ν → ℕ) (first second : κ × ν) : Prop :=
  first.1 < second.1 ∨ first.1 = second.1 ∧ rank first.2 < rank second.2

/-- The entries are in the order of their keys and ranks. -/
def Ranked (rank : ν → ℕ) (map : OrderedMultimap κ ν) : Prop :=
  map.entries.Pairwise (Precedes rank)

variable {map} {rank : ν → ℕ}

theorem ranked_emplace (ranked : map.Ranked rank)
    (higher : ∀ entry ∈ map.entries, rank entry.2 < rank value) :
    (map.emplace key value).Ranked rank := by
  refine map.pairwise_between ranked (fun other member => ?_) fun other member => ?_
  · obtain ⟨present, le⟩ := map.mem_upTo.mp member
    exact le.lt_or_eq.imp_right fun same => ⟨same, higher other present⟩
  · exact .inl (map.lt_of_mem_above member)

theorem ranked_eraseUpTo (ranked : map.Ranked rank) (key : κ) : (map.eraseUpTo key).Ranked rank :=
  ranked.sublist (List.dropWhile_sublist _)

theorem ranked_upTo (ranked : map.Ranked rank) (key : κ) :
    (map.upTo key).Pairwise (Precedes rank) :=
  ranked.sublist (List.takeWhile_sublist _)

end OrderedMultimap
