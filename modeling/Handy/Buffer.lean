import Mathlib

/-!
# `Buffer`

A buffer is a block of storage with two offsets: the bytes between `b_` and `e_`
are its contents, those after `e_` are free. The storage is modelled as the list
of its bytes, so that `cap_` is its length, and the offsets carry the
representation invariant `b_ ≤ e_ ≤ cap_`. Fresh storage is filled with zeros; no
function below returns a byte that was not written before.

Every operation is characterised by what it does to `contents`; the storage is
not looked at outside of this module except for the free space that a read may
use.
-/

set_option autoImplicit false

namespace Handy

/-- A byte string. -/
abbrev Bytes := List UInt8

/-- `Buffer`. -/
structure Buffer where
  buf : Bytes
  b : ℕ
  e : ℕ
  exp : ℕ
  begin_le : b ≤ e
  end_le : e ≤ buf.length
  deriving DecidableEq, Repr

namespace Buffer

/-- The default constructor, with the suggested size 512. -/
def new : Buffer := ⟨[], 0, 0, 512, le_rfl, le_rfl⟩

instance : Inhabited Buffer := ⟨new⟩

def cap (buffer : Buffer) : ℕ := buffer.buf.length

def size (buffer : Buffer) : ℕ := buffer.e - buffer.b

/-- The bytes from `begin()` to `end()`. -/
def contents (buffer : Buffer) : Bytes := (buffer.buf.take buffer.e).drop buffer.b

def empty (buffer : Buffer) : Bool := buffer.e == buffer.b

def space (buffer : Buffer) : ℕ := buffer.cap - buffer.e

def clear (buffer : Buffer) : Buffer := ⟨[], 0, 0, buffer.exp, le_rfl, le_rfl⟩

@[simp] theorem length_contents (buffer : Buffer) : buffer.contents.length = buffer.size := by
  have := buffer.end_le
  simp only [contents, size, List.length_drop, List.length_take]
  omega

theorem size_le_cap (buffer : Buffer) : buffer.size ≤ buffer.cap := by
  have := buffer.end_le
  unfold size cap
  omega

/-- `moveHead`: the contents are copied to the start of the storage. -/
def moveHead (buffer : Buffer) : Buffer where
  buf := buffer.contents ++ buffer.buf.drop buffer.size
  b := 0
  e := buffer.size
  exp := buffer.exp
  begin_le := Nat.zero_le _
  end_le := by simp

/-- `expand`: the contents are copied to a new and larger block. -/
def expand (buffer : Buffer) (len : ℕ) : Buffer where
  buf := buffer.contents ++ List.replicate
    (max buffer.exp (max (2 * buffer.cap) (buffer.size + len)) - buffer.size) 0
  b := 0
  e := buffer.size
  exp := buffer.exp
  begin_le := Nat.zero_le _
  end_le := by simp

/-- `makeRoom(size_t len)`. -/
def makeRoomFor (buffer : Buffer) (len : ℕ) : Buffer :=
  if buffer.e + len ≤ buffer.cap then buffer
  else if buffer.size + len < buffer.cap / 2 then buffer.moveHead
  else buffer.expand len

/-- `makeRoom()`. -/
def makeRoom (buffer : Buffer) : Buffer :=
  if buffer.space < buffer.exp then buffer.expand 0 else buffer

/-- Bytes written at `end()`, followed by `addSize`: the effect of a `memcpy` or a
`read` into the free space. -/
def fill (buffer : Buffer) (bytes : Bytes) (_fits : bytes.length ≤ buffer.space) :
    Buffer where
  buf := buffer.buf.take buffer.e ++ bytes ++ buffer.buf.drop (buffer.e + bytes.length)
  b := buffer.b
  e := buffer.e + bytes.length
  exp := buffer.exp
  begin_le := buffer.begin_le.trans (Nat.le_add_right _ _)
  end_le := by
    have := buffer.end_le
    simp only [List.length_append, List.length_take, List.length_drop]
    omega

/-! ## Room -/

@[simp] theorem contents_new : new.contents = [] := rfl

@[simp] theorem size_new : new.size = 0 := rfl

@[simp] theorem contents_clear (buffer : Buffer) : buffer.clear.contents = [] := rfl

@[simp] theorem size_clear (buffer : Buffer) : buffer.clear.size = 0 := rfl

@[simp] theorem contents_moveHead (buffer : Buffer) :
    buffer.moveHead.contents = buffer.contents := by
  have : buffer.contents.length = buffer.size := buffer.length_contents
  simp [contents, moveHead, ← this]

@[simp] theorem contents_expand (buffer : Buffer) (len : ℕ) :
    (buffer.expand len).contents = buffer.contents := by
  have : buffer.contents.length = buffer.size := buffer.length_contents
  simp [contents, expand, ← this]

/-- A buffer with the contents of another one has its size. -/
theorem size_eq_of_contents {first second : Buffer} (same : first.contents = second.contents) :
    first.size = second.size := by
  rw [← length_contents, ← length_contents, same]

@[simp] theorem contents_makeRoomFor (buffer : Buffer) (len : ℕ) :
    (buffer.makeRoomFor len).contents = buffer.contents := by
  unfold makeRoomFor
  split_ifs
  · rfl
  · exact buffer.contents_moveHead
  · exact buffer.contents_expand len

@[simp] theorem contents_makeRoom (buffer : Buffer) :
    buffer.makeRoom.contents = buffer.contents := by
  unfold makeRoom
  split_ifs
  · exact buffer.contents_expand 0
  · rfl

@[simp] theorem size_makeRoom (buffer : Buffer) : buffer.makeRoom.size = buffer.size :=
  size_eq_of_contents buffer.contents_makeRoom

/-- **`makeRoom(len)` leaves room for `len` bytes.** -/
theorem le_space_makeRoomFor (buffer : Buffer) (len : ℕ) :
    len ≤ (buffer.makeRoomFor len).space := by
  have := buffer.end_le
  have sizes := buffer.size_le_cap
  unfold makeRoomFor
  split_ifs with fits half
  · unfold space
    omega
  · have : buffer.moveHead.cap = buffer.cap := by
      simp only [cap, moveHead, List.length_append, length_contents, List.length_drop]
      have : buffer.size ≤ buffer.buf.length := sizes
      omega
    have end_eq : buffer.moveHead.e = buffer.size := rfl
    rw [space, this, end_eq]
    omega
  · simp only [space, cap, expand, List.length_append, length_contents, List.length_replicate]
    omega

/-! ## Appending and consuming -/

@[simp] theorem contents_fill (buffer : Buffer) (bytes : Bytes)
    (fits : bytes.length ≤ buffer.space) :
    (buffer.fill bytes fits).contents = buffer.contents ++ bytes := by
  have length_take : (buffer.buf.take buffer.e).length = buffer.e := by
    rw [List.length_take]
    exact min_eq_left buffer.end_le
  have below : (buffer.buf.take buffer.e ++ bytes ++ buffer.buf.drop (buffer.e + bytes.length)).take
      (buffer.e + bytes.length) = buffer.buf.take buffer.e ++ bytes := by
    refine List.take_left' ?_
    rw [List.length_append, length_take]
  simp only [contents, fill, below]
  exact List.drop_append_of_le_length (length_take.symm ▸ buffer.begin_le)

/-- `append(const char *p, size_t len)`. -/
def append (buffer : Buffer) (bytes : Bytes) : Buffer :=
  (buffer.makeRoomFor bytes.length).fill bytes (buffer.le_space_makeRoomFor bytes.length)

@[simp] theorem contents_append (buffer : Buffer) (bytes : Bytes) :
    (buffer.append bytes).contents = buffer.contents ++ bytes := by
  simp [append]

/-- `consume(size_t len)`; `none` when `len` exceeds the size and `b_` would pass
`e_`. -/
def consume (buffer : Buffer) (len : ℕ) : Option Buffer :=
  if fits : len ≤ buffer.size then
    let rest : Buffer := ⟨buffer.buf, buffer.b + len, buffer.e, buffer.exp, by
      have := buffer.begin_le
      unfold size at fits
      omega, buffer.end_le⟩
    some (if rest.size = 0 then rest.clear else rest)
  else none

theorem consume_spec {buffer : Buffer} {len : ℕ} (fits : len ≤ buffer.size) :
    ∃ rest, buffer.consume len = some rest ∧ rest.contents = buffer.contents.drop len := by
  have tail : buffer.contents.drop len = (buffer.buf.take buffer.e).drop (buffer.b + len) := by
    rw [contents, List.drop_drop]
  refine ⟨_, dif_pos fits, ?_⟩
  split_ifs with nothing
  · have : buffer.contents.drop len = [] := by
      refine List.drop_eq_nil_of_le ?_
      rw [length_contents]
      simp only [size] at nothing ⊢
      omega
    rw [contents_clear, this]
  · rw [tail]
    rfl

theorem consume_eq_none {buffer : Buffer} {len : ℕ} :
    buffer.consume len = none ↔ buffer.size < len := by
  unfold consume
  split_ifs with fits
  · simp only [false_iff]
    omega
  · simp only [true_iff]
    omega

theorem contents_of_consume {buffer rest : Buffer} {len : ℕ}
    (consumed : buffer.consume len = some rest) :
    len ≤ buffer.size ∧ rest.contents = buffer.contents.drop len := by
  have fits : len ≤ buffer.size := by
    by_contra exceeds
    rw [consume_eq_none.mpr (not_le.mp exceeds)] at consumed
    cases consumed
  obtain ⟨other, same, contents_eq⟩ := consume_spec fits
  rw [consumed] at same
  cases same
  exact ⟨fits, contents_eq⟩

/-! ## Moving contents between buffers -/

/-- `absorb` of another buffer, with both buffers after it. An empty buffer takes
over the storage of the other one, and each keeps its own suggested size. -/
def absorb (buffer other : Buffer) : Buffer × Buffer :=
  if buffer.size = 0 then ({ other with exp := buffer.exp }, { buffer with exp := other.exp })
  else (buffer.append other.contents, other.clear)

theorem contents_eq_nil_iff {buffer : Buffer} : buffer.contents = [] ↔ buffer.size = 0 := by
  rw [← List.length_eq_zero_iff, length_contents]

@[simp] theorem contents_absorb_fst (buffer other : Buffer) :
    (buffer.absorb other).1.contents = buffer.contents ++ other.contents := by
  unfold absorb
  split_ifs with nothing
  · rw [contents_eq_nil_iff.mpr nothing, List.nil_append]
    rfl
  · exact buffer.contents_append other.contents

@[simp] theorem contents_absorb_snd (buffer other : Buffer) :
    (buffer.absorb other).2.contents = [] := by
  unfold absorb
  split_ifs with nothing
  · exact contents_eq_nil_iff.mpr nothing
  · exact other.contents_clear

theorem empty_iff {buffer : Buffer} : buffer.empty = true ↔ buffer.contents = [] := by
  have := buffer.begin_le
  rw [contents_eq_nil_iff, size, empty, beq_iff_eq]
  omega

/-! ## The suggested size -/

@[simp] theorem exp_makeRoom (buffer : Buffer) : buffer.makeRoom.exp = buffer.exp := by
  unfold makeRoom
  split_ifs <;> rfl

@[simp] theorem exp_fill (buffer : Buffer) (bytes : Bytes) (fits : bytes.length ≤ buffer.space) :
    (buffer.fill bytes fits).exp = buffer.exp := rfl

theorem exp_of_consume {buffer rest : Buffer} {len : ℕ} (consumed : buffer.consume len = some rest) :
    rest.exp = buffer.exp := by
  unfold consume at consumed
  split at consumed
  · cases consumed
    split_ifs <;> rfl
  · cases consumed

/-- **`makeRoom()` leaves room**, as long as the suggested size is positive. -/
theorem space_makeRoom_pos {buffer : Buffer} (positive : 0 < buffer.exp) :
    0 < buffer.makeRoom.space := by
  have sizes := buffer.size_le_cap
  unfold makeRoom
  split_ifs with full
  · simp only [space, cap, expand, List.length_append, length_contents, List.length_replicate]
    unfold cap at sizes
    omega
  · omega

end Buffer

end Handy
