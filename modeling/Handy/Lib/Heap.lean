import Mathlib

/-!
# Blocks of memory and their owners

A heap is a set of blocks under addresses. Reads and writes outside of a block, and the release of
a block that is not there, are faults. Addresses are not used again, so that a pointer to a block
that was released stays dangling.

Some objects own blocks (`OwnedBy`): every block is owned, by one object. What the operations of
the heap do to the contents of the objects is said without addresses, as for objects that hold
their contents as a value: a new block for an object that has none (`OwnedBy.put`), the release
of its block (`OwnedBy.free`), and the transfer of its block to another object (`OwnedBy.move`).
-/

set_option autoImplicit false

universe u v

/-- Blocks under addresses; `next` is the next address, and `junk` is what a new block holds at an
offset before something is written there. -/
@[ext] structure Heap (α : Type u) where
  blocks : ℕ → Option (List α)
  next : ℕ
  junk : ℕ → ℕ → α
  below_next : ∀ {address : ℕ}, (blocks address).isSome → address < next

/-- Some elements of a list are replaced. -/
def List.overwrite {α : Type u} (block : List α) (offset : ℕ) (new : List α) : List α :=
  block.take offset ++ new ++ block.drop (offset + new.length)

/-- Writing goes on where the last write ended. -/
theorem List.overwrite_append {α : Type u} (front rest new : List α) :
    (front ++ rest).overwrite front.length new = front ++ new ++ rest.drop new.length := by
  have behind : (front ++ rest).drop (front.length + new.length) = rest.drop new.length := by
    rw [← drop_drop, drop_left]
  rw [overwrite, behind, take_left]

namespace Heap

variable {α : Type u} {heap after : Heap α} {address : ℕ} {block : List α}

/-- A heap without blocks. -/
def empty (junk : ℕ → ℕ → α) : Heap α := ⟨fun _ => none, 0, junk, fun h => by cases h⟩

theorem below_next_put (heap : Heap α) (block : List α) {address : ℕ}
    (there : (Function.update heap.blocks heap.next (some block) address).isSome) :
    address < heap.next + 1 := by
  by_cases same : address = heap.next
  · omega
  · rw [Function.update_of_ne same] at there
    exact (heap.below_next there).trans (Nat.lt_succ_self _)

/-- A new block with some contents, at the address `next`. -/
def put (heap : Heap α) (block : List α) : Heap α where
  blocks := Function.update heap.blocks heap.next (some block)
  next := heap.next + 1
  junk := heap.junk
  below_next := heap.below_next_put block

/-- What a new block holds before something is written. -/
def fresh (heap : Heap α) (size : ℕ) : List α := (List.range size).map (heap.junk heap.next)

/-- A new block, with its address. -/
def alloc (heap : Heap α) (size : ℕ) : ℕ × Heap α := (heap.next, heap.put (heap.fresh size))

theorem below_next_free (heap : Heap α) {released address : ℕ}
    (there : (Function.update heap.blocks released none address).isSome) : address < heap.next := by
  by_cases same : address = released
  · subst same
    rw [Function.update_self] at there
    cases there
  · rw [Function.update_of_ne same] at there
    exact heap.below_next there

/-- A block is released. -/
def free (heap : Heap α) (address : ℕ) : Option (Heap α) :=
  if (heap.blocks address).isSome then
    some ⟨Function.update heap.blocks address none, heap.next, heap.junk, heap.below_next_free⟩
  else none

/-- So many elements of a block. -/
def read (heap : Heap α) (address offset len : ℕ) : Option (List α) := do
  let block ← heap.blocks address
  if offset + len ≤ block.length then some ((block.drop offset).take len) else none

theorem below_next_modify (heap : Heap α) {modified address : ℕ} {f : List α → List α}
    (there : (Function.update heap.blocks modified ((heap.blocks modified).map f) address).isSome) :
    address < heap.next := by
  by_cases same : address = modified
  · subst same
    rw [Function.update_self, Option.isSome_map] at there
    exact heap.below_next there
  · rw [Function.update_of_ne same] at there
    exact heap.below_next there

/-- The contents of a block become others. -/
def modify (heap : Heap α) (address : ℕ) (f : List α → List α) : Heap α where
  blocks := Function.update heap.blocks address ((heap.blocks address).map f)
  next := heap.next
  junk := heap.junk
  below_next := heap.below_next_modify

/-- Some elements of a block are overwritten. -/
def write (heap : Heap α) (address offset : ℕ) (new : List α) : Option (Heap α) := do
  let block ← heap.blocks address
  if offset + new.length ≤ block.length then
    some (heap.modify address fun block => block.overwrite offset new)
  else none

/-! ## A new block -/

theorem blocks_next (heap : Heap α) : heap.blocks heap.next = none := by
  by_contra there
  exact (heap.below_next (Option.isSome_iff_ne_none.mpr there)).false

@[simp] theorem blocks_put_next (heap : Heap α) (block : List α) :
    (heap.put block).blocks heap.next = some block := Function.update_self ..

theorem blocks_put_of_ne (heap : Heap α) (block : List α) (other : address ≠ heap.next) :
    (heap.put block).blocks address = heap.blocks address := Function.update_of_ne other ..

/-- A new block is not one that is there. -/
theorem blocks_put_of_eq_some {new : List α} (found : heap.blocks address = some block) :
    (heap.put new).blocks address = some block := by
  refine (heap.blocks_put_of_ne new ?_).trans found
  rintro rfl
  rw [heap.blocks_next] at found
  cases found

@[simp] theorem length_fresh (heap : Heap α) (size : ℕ) : (heap.fresh size).length = size := by
  rw [fresh, List.length_map, List.length_range]

/-- Writing to a new block. -/
theorem write_put (heap : Heap α) (front rest new : List α) {offset : ℕ}
    (ended : front.length = offset) (inside : new.length ≤ rest.length) :
    (heap.put (front ++ rest)).write heap.next offset new =
      some (heap.put (front ++ new ++ rest.drop new.length)) := by
  subst ended
  have found := heap.blocks_put_next (front ++ rest)
  have fits : front.length + new.length ≤ (front ++ rest).length := by
    rw [List.length_append]
    exact Nat.add_le_add_left inside _
  rw [write, found, Option.bind_eq_bind, Option.bind_some, if_pos fits]
  congr 1
  refine Heap.ext ?_ rfl rfl
  show Function.update (heap.put (front ++ rest)).blocks heap.next
    (((heap.put (front ++ rest)).blocks heap.next).map _) = _
  rw [found, Option.map_some, List.overwrite_append]
  exact Function.update_idem ..

/-- A write that leaves a new block. -/
theorem write_put_eq_none (heap : Heap α) {block new : List α} {offset : ℕ}
    (leaves : block.length < offset + new.length) :
    (heap.put block).write heap.next offset new = none := by
  rw [write, heap.blocks_put_next block, Option.bind_eq_bind, Option.bind_some,
    if_neg (not_le.mpr leaves)]

theorem read_eq_some {offset len : ℕ} (found : heap.blocks address = some block)
    (inside : offset + len ≤ block.length) :
    heap.read address offset len = some ((block.drop offset).take len) := by
  rw [read, found, Option.bind_eq_bind, Option.bind_some, if_pos inside]

/-! ## Owners -/

section Owners

variable {ι : Type v}

/-- The blocks are those of some objects, and each of them belongs to one object. -/
structure OwnedBy (heap : Heap α) (owner : ι → Option ℕ) : Prop where
  allocated : ∀ ⦃i address⦄, owner i = some address → (heap.blocks address).isSome
  single : ∀ ⦃i j address⦄, owner i = some address → owner j = some address → i = j
  owned : ∀ ⦃address⦄, (heap.blocks address).isSome → ∃ i, owner i = some address

/-- The contents of the block of each object. -/
def contents (heap : Heap α) (owner : ι → Option ℕ) (i : ι) : Option (List α) :=
  (owner i).bind heap.blocks

/-- What an object has after one object was given something, or nothing. -/
theorem update_eq_some [DecidableEq ι] {β : Type*} {has : ι → Option β} {given : Option β}
    {i k : ι} {b : β} :
    Function.update has i given k = some b ↔ k = i ∧ given = some b ∨ k ≠ i ∧ has k = some b := by
  by_cases same : k = i
  · simp [same]
  · simp [same]

theorem contents_congr {owner owner' : ι → Option ℕ} {i : ι} (same : owner' i = owner i)
    (kept : ∀ address, owner i = some address → after.blocks address = heap.blocks address) :
    after.contents owner' i = heap.contents owner i := by
  rw [contents, contents, same]
  cases here : owner i with
  | none => rfl
  | some address => exact kept address here

namespace OwnedBy

variable {owner : ι → Option ℕ} {i j : ι}

theorem empty (junk : ℕ → ℕ → α) : OwnedBy (empty junk) (fun _ : ι => none) where
  allocated := fun _ _ owns => by cases owns
  single := fun _ _ _ owns => by cases owns
  owned := fun _ there => by cases there

theorem contents_eq_some (owns : OwnedBy heap owner) (here : owner i = some address) :
    ∃ block, heap.blocks address = some block ∧ heap.contents owner i = some block := by
  obtain ⟨block, found⟩ := Option.isSome_iff_exists.mp (owns.allocated here)
  exact ⟨block, found, by rw [contents, here, Option.bind_some, found]⟩

/-- The contents are missing only where there is no block. -/
theorem contents_eq_none_iff (owns : OwnedBy heap owner) :
    heap.contents owner i = none ↔ owner i = none := by
  cases here : owner i with
  | none => simp [contents, here]
  | some address =>
      obtain ⟨block, -, same⟩ := owns.contents_eq_some here
      simp [same]

theorem ne_next (owns : OwnedBy heap owner) (here : owner i = some address) :
    address ≠ heap.next := (heap.below_next (owns.allocated here)).ne

theorem free_eq_some (owns : OwnedBy heap owner) (here : owner i = some address) :
    ∃ after, heap.free address = some after ∧
      after.blocks = Function.update heap.blocks address none :=
  ⟨_, if_pos (owns.allocated here), rfl⟩

variable [DecidableEq ι]

/-- **A new block** for an object that has none. -/
theorem put (owns : OwnedBy heap owner) (nothing : owner i = none) (block : List α) :
    OwnedBy (heap.put block) (Function.update owner i (some heap.next)) where
  allocated := by
    intro k address here
    rcases update_eq_some.mp here with ⟨-, new⟩ | ⟨-, here⟩
    · cases new
      rw [blocks_put_next, Option.isSome_some]
    · rw [heap.blocks_put_of_ne block (owns.ne_next here)]
      exact owns.allocated here
  single := by
    intro k l address first second
    rcases update_eq_some.mp first with ⟨rfl, new⟩ | ⟨-, here⟩
    · rcases update_eq_some.mp second with ⟨rfl, -⟩ | ⟨-, there⟩
      · rfl
      · cases new
        exact absurd rfl (owns.ne_next there)
    · rcases update_eq_some.mp second with ⟨rfl, new⟩ | ⟨-, there⟩
      · cases new
        exact absurd rfl (owns.ne_next here)
      · exact owns.single here there
  owned := by
    intro address there
    by_cases new : address = heap.next
    · exact ⟨i, update_eq_some.mpr (.inl ⟨rfl, new ▸ rfl⟩)⟩
    · rw [heap.blocks_put_of_ne block new] at there
      obtain ⟨k, here⟩ := owns.owned there
      have other : k ≠ i := by
        rintro rfl
        rw [nothing] at here
        cases here
      exact ⟨k, update_eq_some.mpr (.inr ⟨other, here⟩)⟩

theorem contents_put (owns : OwnedBy heap owner) (block : List α) :
    (heap.put block).contents (Function.update owner i (some heap.next)) =
      Function.update (heap.contents owner) i (some block) := by
  funext k
  by_cases same : k = i
  · rw [same, Function.update_self, contents, Function.update_self, Option.bind_some,
      blocks_put_next]
  · rw [Function.update_of_ne same]
    refine contents_congr (Function.update_of_ne same ..) ?_
    intro address here
    exact heap.blocks_put_of_ne block (owns.ne_next here)

/-- **The block of an object is released.** -/
theorem free (owns : OwnedBy heap owner) (here : owner i = some address)
    (released : after.blocks = Function.update heap.blocks address none) :
    OwnedBy after (Function.update owner i none) where
  allocated := by
    intro k other there
    rcases update_eq_some.mp there with ⟨-, impossible⟩ | ⟨different, there⟩
    · cases impossible
    · have kept : other ≠ address := by
        rintro rfl
        exact different (owns.single there here)
      rw [released, Function.update_of_ne kept]
      exact owns.allocated there
  single := by
    intro k l other first second
    rcases update_eq_some.mp first with ⟨-, impossible⟩ | ⟨-, first⟩
    · cases impossible
    · rcases update_eq_some.mp second with ⟨-, impossible⟩ | ⟨-, second⟩
      · cases impossible
      · exact owns.single first second
  owned := by
    intro other there
    have kept : other ≠ address := by
      rintro rfl
      rw [released, Function.update_self] at there
      cases there
    rw [released, Function.update_of_ne kept] at there
    obtain ⟨k, owner_k⟩ := owns.owned there
    have different : k ≠ i := by
      rintro rfl
      rw [here] at owner_k
      exact kept (Option.some.inj owner_k).symm
    exact ⟨k, update_eq_some.mpr (.inr ⟨different, owner_k⟩)⟩

theorem contents_free (owns : OwnedBy heap owner) (here : owner i = some address)
    (released : after.blocks = Function.update heap.blocks address none) :
    after.contents (Function.update owner i none) =
      Function.update (heap.contents owner) i none := by
  funext k
  by_cases same : k = i
  · rw [same, Function.update_self, contents, Function.update_self, Option.bind_none]
  · rw [Function.update_of_ne same]
    refine contents_congr (Function.update_of_ne same ..) ?_
    intro other there
    rw [released]
    refine Function.update_of_ne ?_ ..
    rintro rfl
    exact same (owns.single there here)

/-- **An object takes over the block of another one.** -/
theorem move (owns : OwnedBy heap owner) (nothing : owner i = none) (different : i ≠ j) :
    OwnedBy heap (Function.update (Function.update owner i (owner j)) j none) := by
  have given : ∀ {k address},
      Function.update (Function.update owner i (owner j)) j none k = some address →
        k = i ∧ owner j = some address ∨ k ≠ i ∧ k ≠ j ∧ owner k = some address := by
    intro k address here
    rcases update_eq_some.mp here with ⟨-, impossible⟩ | ⟨last, here⟩
    · cases impossible
    · rcases update_eq_some.mp here with ⟨first, here⟩ | ⟨first, here⟩
      · exact .inl ⟨first, here⟩
      · exact .inr ⟨first, last, here⟩
  constructor
  · intro k address here
    rcases given here with ⟨-, here⟩ | ⟨-, -, here⟩
    · exact owns.allocated here
    · exact owns.allocated here
  · intro k l address first second
    rcases given first with ⟨rfl, here⟩ | ⟨-, other, here⟩
    · rcases given second with ⟨rfl, -⟩ | ⟨-, also, there⟩
      · rfl
      · exact absurd (owns.single there here) also
    · rcases given second with ⟨rfl, there⟩ | ⟨-, -, there⟩
      · exact absurd (owns.single here there) other
      · exact owns.single here there
  · intro address there
    obtain ⟨k, here⟩ := owns.owned there
    by_cases last : k = j
    · subst last
      exact ⟨i, update_eq_some.mpr (.inr ⟨different, update_eq_some.mpr (.inl ⟨rfl, here⟩)⟩)⟩
    · have first : k ≠ i := by
        rintro rfl
        rw [nothing] at here
        cases here
      exact ⟨k, update_eq_some.mpr (.inr ⟨last, update_eq_some.mpr (.inr ⟨first, here⟩)⟩)⟩

theorem contents_move (heap : Heap α) (owner : ι → Option ℕ) (i j : ι) :
    heap.contents (Function.update (Function.update owner i (owner j)) j none) =
      Function.update (Function.update (heap.contents owner) i (heap.contents owner j)) j none := by
  funext k
  by_cases last : k = j
  · rw [last, Function.update_self, contents, Function.update_self, Option.bind_none]
  · rw [Function.update_of_ne last, contents, Function.update_of_ne last]
    by_cases first : k = i
    · rw [first, Function.update_self, Function.update_self, contents]
    · rw [Function.update_of_ne first, Function.update_of_ne first, contents]

end OwnedBy

end Owners

end Heap
