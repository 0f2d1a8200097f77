import Mathlib

/-!
# Ordered maps as sorted entry lists

A finite map over a linear order, kept as the list of its entries in strictly
increasing key order. The sortedness is a field, so a value of the type cannot
be out of order and the first entry is always the least one.

Two insertions are provided. `set` replaces an existing entry, `insert` keeps
it. Lookup through either of them, and through `erase`, is described by the
simp lemmas of this module; `entries_set_perm` and `entries_erase_perm` say
what happens to the entries as a multiset, which is what sums over all entries
need.
-/

set_option autoImplicit false

universe u v

/-- A finite map whose entries are listed in strictly increasing key order. -/
structure OrderedMap (κ : Type u) (ν : Type v) [LinearOrder κ] where
  entries : List (κ × ν)
  sorted : entries.Pairwise fun first second => first.1 < second.1

namespace OrderedMap

variable {κ : Type u} {ν : Type v} [LinearOrder κ]

@[ext] theorem ext_entries {left right : OrderedMap κ ν} (same : left.entries = right.entries) :
    left = right := by
  cases left
  cases right
  cases same
  rfl

/-! ## Operations on entry lists -/

/-- The value stored under a key. -/
def lookup (key : κ) : List (κ × ν) → Option ν
  | [] => none
  | (k, v) :: rest => if k = key then some v else lookup key rest

/-- Put an entry at its place, replacing an entry with the same key. -/
def place (key : κ) (value : ν) : List (κ × ν) → List (κ × ν)
  | [] => [(key, value)]
  | (k, v) :: rest =>
      if key < k then (key, value) :: (k, v) :: rest
      else if key = k then (key, value) :: rest
      else (k, v) :: place key value rest

theorem mem_place {key : κ} {value : ν} {entry : κ × ν} {list : List (κ × ν)}
    (member : entry ∈ place key value list) : entry = (key, value) ∨ entry ∈ list := by
  induction list with
  | nil => simpa [place] using member
  | cons head tail ih =>
      obtain ⟨k, v⟩ := head
      simp only [place] at member
      split_ifs at member
      · simpa using member
      · rcases List.mem_cons.mp member with same | later
        · exact .inl same
        · exact .inr (List.mem_cons_of_mem _ later)
      · rcases List.mem_cons.mp member with same | later
        · exact .inr (same ▸ List.mem_cons_self ..)
        · exact (ih later).imp_right (List.mem_cons_of_mem _)

theorem place_sorted (key : κ) (value : ν) {list : List (κ × ν)}
    (sorted : list.Pairwise fun first second => first.1 < second.1) :
    (place key value list).Pairwise fun first second => first.1 < second.1 := by
  induction list with
  | nil => simp [place]
  | cons head tail ih =>
      obtain ⟨k, v⟩ := head
      obtain ⟨below, tailSorted⟩ := List.pairwise_cons.mp sorted
      simp only [place]
      split_ifs with before same
      · refine List.pairwise_cons.mpr ⟨fun entry member => ?_, sorted⟩
        rcases List.mem_cons.mp member with rfl | later
        · exact before
        · exact before.trans (below entry later)
      · subst same
        exact List.pairwise_cons.mpr ⟨below, tailSorted⟩
      · refine List.pairwise_cons.mpr ⟨fun entry member => ?_, ih tailSorted⟩
        rcases mem_place member with rfl | later
        · exact lt_of_le_of_ne (not_lt.mp before) (Ne.symm same)
        · exact below entry later

theorem lookup_place (key other : κ) (value : ν) (list : List (κ × ν)) :
    lookup other (place key value list) = if key = other then some value else lookup other list := by
  induction list with
  | nil => simp [place, lookup]
  | cons head tail ih =>
      obtain ⟨k, v⟩ := head
      by_cases before : key < k
      · simp [place, lookup, before]
      by_cases same : key = k
      · subst same
        by_cases here : key = other <;> simp [place, lookup, here]
      · by_cases here : k = other
        · subst here
          simp [place, lookup, before, same]
        · simp [place, lookup, before, same, here, ih]

theorem mem_of_lookup {key : κ} {value : ν} {list : List (κ × ν)}
    (found : lookup key list = some value) : (key, value) ∈ list := by
  induction list with
  | nil => simp [lookup] at found
  | cons head tail ih =>
      obtain ⟨k, v⟩ := head
      simp only [lookup] at found
      split_ifs at found with same
      · cases found
        cases same
        exact List.mem_cons_self ..
      · exact List.mem_cons_of_mem _ (ih found)

theorem lookup_of_mem {key : κ} {value : ν} {list : List (κ × ν)}
    (sorted : list.Pairwise fun first second => first.1 < second.1)
    (member : (key, value) ∈ list) : lookup key list = some value := by
  induction list with
  | nil => cases member
  | cons head tail ih =>
      obtain ⟨k, v⟩ := head
      obtain ⟨below, tailSorted⟩ := List.pairwise_cons.mp sorted
      rcases List.mem_cons.mp member with same | later
      · cases same
        simp [lookup]
      · have apart : k ≠ key := (below _ later).ne
        simp only [lookup, if_neg apart]
        exact ih tailSorted later

theorem lookup_filter_ne (key other : κ) (list : List (κ × ν)) :
    lookup other (list.filter fun entry => entry.1 ≠ key) =
      if key = other then none else lookup other list := by
  induction list with
  | nil => simp [lookup]
  | cons head tail ih =>
      obtain ⟨k, v⟩ := head
      by_cases same : k = key
      · subst same
        by_cases here : k = other <;> simp_all [lookup]
      · by_cases here : k = other
        · subst here
          simp [lookup, same, Ne.symm same]
        · simp_all [lookup]

theorem place_perm {key : κ} {value : ν} {list : List (κ × ν)}
    (fresh : lookup key list = none) : (place key value list).Perm ((key, value) :: list) := by
  induction list with
  | nil => exact .refl _
  | cons head tail ih =>
      obtain ⟨k, v⟩ := head
      simp only [lookup] at fresh
      split_ifs at fresh with same
      simp only [place]
      split_ifs with before equal
      · exact .refl _
      · exact absurd equal.symm same
      · exact ((ih fresh).cons _).trans (.swap ..)

/-! ## The map operations -/

/-- The map with no entries. -/
def empty : OrderedMap κ ν := ⟨[], List.Pairwise.nil⟩

/-- The value stored under a key. -/
def find? (map : OrderedMap κ ν) (key : κ) : Option ν := lookup key map.entries

/-- Store a value under a key, replacing the entry that is there. -/
def set (map : OrderedMap κ ν) (key : κ) (value : ν) : OrderedMap κ ν :=
  ⟨place key value map.entries, place_sorted key value map.sorted⟩

/-- Store a value under a key unless the key has an entry. -/
def insert (map : OrderedMap κ ν) (key : κ) (value : ν) : OrderedMap κ ν :=
  if (map.find? key).isSome then map else map.set key value

/-- Remove the entry of a key. -/
def erase (map : OrderedMap κ ν) (key : κ) : OrderedMap κ ν :=
  ⟨map.entries.filter fun entry => entry.1 ≠ key, map.sorted.filter _⟩

/-- The least entry. -/
def first? (map : OrderedMap κ ν) : Option (κ × ν) := map.entries.head?

@[simp] theorem entries_empty : (empty : OrderedMap κ ν).entries = [] := rfl

@[simp] theorem find?_empty (key : κ) : (empty : OrderedMap κ ν).find? key = none := rfl

@[simp] theorem find?_set (map : OrderedMap κ ν) (key other : κ) (value : ν) :
    (map.set key value).find? other = if key = other then some value else map.find? other :=
  lookup_place key other value map.entries

@[simp] theorem find?_erase (map : OrderedMap κ ν) (key other : κ) :
    (map.erase key).find? other = if key = other then none else map.find? other :=
  lookup_filter_ne key other map.entries

/-- Erasing a key before storing under it changes nothing. -/
theorem set_erase_self {map : OrderedMap κ ν} {key : κ} {value : ν} :
    (map.erase key).set key value = map.set key value := by
  refine ext_entries ?_
  obtain ⟨entries, sorted⟩ := map
  simp only [set, erase]
  induction entries with
  | nil => rfl
  | cons head tail ih =>
      obtain ⟨k, v⟩ := head
      obtain ⟨below, tailSorted⟩ := List.pairwise_cons.mp sorted
      have above : key ≤ k → tail.filter (fun entry => entry.1 ≠ key) = tail := by
        intro le
        refine List.filter_eq_self.mpr fun entry member => ?_
        simpa using (le.trans_lt (below entry member)).ne'
      rcases lt_trichotomy key k with before | same | after
      · rw [List.filter_cons, if_pos (by simpa using before.ne'), above before.le]
      · subst same
        rw [List.filter_cons, if_neg (by simp), above le_rfl]
        cases tail with
        | nil => simp [place]
        | cons next rest =>
            have lower : key < next.1 := below next (List.mem_cons_self ..)
            simp [place, lower]
      · rw [List.filter_cons, if_pos (by simpa using after.ne)]
        simp only [place, if_neg (lt_asymm after), if_neg after.ne']
        rw [ih tailSorted]

theorem insert_of_fresh {map : OrderedMap κ ν} {key : κ} (fresh : map.find? key = none)
    (value : ν) : map.insert key value = map.set key value := by
  simp [insert, fresh]

theorem mem_entries_iff {map : OrderedMap κ ν} {key : κ} {value : ν} :
    (key, value) ∈ map.entries ↔ map.find? key = some value :=
  ⟨lookup_of_mem map.sorted, mem_of_lookup⟩

theorem find?_of_first? {map : OrderedMap κ ν} {key : κ} {value : ν}
    (least : map.first? = some (key, value)) : map.find? key = some value :=
  mem_entries_iff.mp (List.mem_of_mem_head? least)

/-- The first entry has the least key. -/
theorem first?_le {map : OrderedMap κ ν} {key other : κ} {value found : ν}
    (least : map.first? = some (key, value)) (present : map.find? other = some found) :
    key ≤ other := by
  have member : (other, found) ∈ map.entries := mem_entries_iff.mpr present
  have sorted := map.sorted
  rw [first?] at least
  cases shape : map.entries with
  | nil => simp [shape] at least
  | cons head tail =>
      rw [shape] at least sorted member
      cases least
      rcases List.mem_cons.mp member with same | later
      · cases same
        exact le_refl _
      · exact ((List.pairwise_cons.mp sorted).1 _ later).le

theorem first?_eq_none {map : OrderedMap κ ν} : map.first? = none ↔ map.entries = [] := by
  simp [first?]

/-- Storing under a fresh key adds one entry. -/
theorem entries_set_perm {map : OrderedMap κ ν} {key : κ} (fresh : map.find? key = none)
    (value : ν) : (map.set key value).entries.Perm ((key, value) :: map.entries) :=
  place_perm fresh

/-- Erasing a key that is present removes its one entry. -/
theorem entries_erase_perm {map : OrderedMap κ ν} {key : κ} {value : ν}
    (present : map.find? key = some value) :
    map.entries.Perm ((key, value) :: (map.erase key).entries) := by
  obtain ⟨entries, sorted⟩ := map
  simp only [find?, erase] at present ⊢
  induction entries with
  | nil => simp [lookup] at present
  | cons head tail ih =>
      obtain ⟨k, v⟩ := head
      obtain ⟨below, tailSorted⟩ := List.pairwise_cons.mp sorted
      simp only [lookup] at present
      split_ifs at present with same
      · cases present
        cases same
        have others : tail.filter (fun entry => !decide (entry.1 = key)) = tail := by
          refine List.filter_eq_self.mpr fun entry member => ?_
          simpa using (below entry member).ne'
        simp [others]
      · have rest := ih tailSorted present
        simp only [List.filter_cons, ne_eq, same, not_false_eq_true, decide_true, if_true]
        exact (rest.cons _).trans (.swap ..)

/-! ## Building a map from its entries -/

theorem place_of_forall_lt {key : κ} {list : List (κ × ν)} (above : ∀ entry ∈ list, entry.1 < key)
    (value : ν) : place key value list = list ++ [(key, value)] := by
  induction list with
  | nil => rfl
  | cons head tail ih =>
      have less := above head List.mem_cons_self
      rw [place, if_neg (lt_asymm less), if_neg less.ne',
        ih fun entry member => above entry (List.mem_cons_of_mem _ member), List.cons_append]

theorem entries_foldl_set {list : List (κ × ν)}
    (sorted : list.Pairwise fun first second => first.1 < second.1) :
    (list.foldl (fun map entry => map.set entry.1 entry.2) empty).entries = list := by
  induction list using List.reverseRecOn with
  | nil => rfl
  | append_singleton front last ih =>
      obtain ⟨front_sorted, -, below⟩ := List.pairwise_append.mp sorted
      have above : ∀ entry ∈ front, entry.1 < last.1 := fun entry member =>
        below entry member last List.mem_cons_self
      rw [List.foldl_append]
      show place last.1 last.2 (front.foldl _ empty).entries = _
      rw [ih front_sorted, place_of_forall_lt above]

/-- **Storing the entries of a map one after the other makes the map.** -/
theorem foldl_set_entries (map : OrderedMap κ ν) :
    map.entries.foldl (fun map entry => map.set entry.1 entry.2) empty = map :=
  ext_entries (entries_foldl_set map.sorted)

/-! ## Counting entries -/

section Count

variable (map : OrderedMap κ ν) (key : κ) (value : ν) (counts : κ × ν → Bool)

theorem countP_place_le (list : List (κ × ν)) :
    (place key value list).countP counts ≤
      list.countP counts + if counts (key, value) then 1 else 0 := by
  induction list with
  | nil => simp [place, List.countP_cons]
  | cons head tail ih =>
      simp only [place]
      split_ifs with before same counted
      all_goals simp only [List.countP_cons] at *
      all_goals split_ifs at * <;> omega

theorem countP_set_le : (map.set key value).entries.countP counts ≤
    map.entries.countP counts + if counts (key, value) then 1 else 0 :=
  countP_place_le key value counts map.entries

theorem countP_insert_le : (map.insert key value).entries.countP counts ≤
    map.entries.countP counts + if counts (key, value) then 1 else 0 := by
  unfold insert
  split_ifs
  · omega
  · omega
  · exact countP_set_le map key value counts |>.trans (by simp [*])
  · exact countP_set_le map key value counts |>.trans (by simp [*])

theorem countP_erase_le : (map.erase key).entries.countP counts ≤ map.entries.countP counts :=
  List.Sublist.countP_le List.filter_sublist

theorem countP_erase {map : OrderedMap κ ν} {key : κ} {value : ν}
    (present : map.find? key = some value) (counted : counts (key, value) = true) :
    (map.erase key).entries.countP counts + 1 = map.entries.countP counts := by
  rw [(entries_erase_perm present).countP_eq, List.countP_cons_of_pos counted]

end Count

theorem mem_of_mem_set {map : OrderedMap κ ν} {key : κ} {value : ν} {entry : κ × ν}
    (member : entry ∈ (map.set key value).entries) :
    entry = (key, value) ∨ entry ∈ map.entries :=
  mem_place member

theorem mem_of_mem_erase {map : OrderedMap κ ν} {key : κ} {entry : κ × ν}
    (member : entry ∈ (map.erase key).entries) : entry ∈ map.entries :=
  List.mem_of_mem_filter member

end OrderedMap
