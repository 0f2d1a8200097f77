import Handy.Buffer

/-!
# Buffers as byte sequences

A set of buffers under the operations of `Buffer`, against the same set of byte sequences
with their suggested sizes. `BufferOp.run` executes operations on the representation and
`BufferOp.meaning` says what they mean: concatenation, dropping, emptying, moving to the end
of another sequence and copying. `buffers_refine_sequences` says that they agree after every
list of operations, and that there is room wherever it is asked for.
-/

set_option autoImplicit false

namespace Handy

namespace Buffer

/-! ## The remaining operations -/

/-- `addSize(len)`, within the free space. -/
def addSize (buffer : Buffer) (len : ℕ) (fits : len ≤ buffer.space) : Buffer where
  buf := buffer.buf
  b := buffer.b
  e := buffer.e + len
  exp := buffer.exp
  begin_le := buffer.begin_le.trans (Nat.le_add_right _ _)
  end_le := by
    have := buffer.end_le
    unfold space cap at fits
    omega

/-- Bytes are written at an offset of the storage. -/
def write (buffer : Buffer) (offset : ℕ) (bytes : Bytes)
    (inside : offset + bytes.length ≤ buffer.cap) : Buffer where
  buf := buffer.buf.take offset ++ bytes ++ buffer.buf.drop (offset + bytes.length)
  b := buffer.b
  e := buffer.e
  exp := buffer.exp
  begin_le := buffer.begin_le
  end_le := by
    have := buffer.end_le
    unfold cap at inside
    simp only [List.length_append, List.length_take, List.length_drop]
    omega

theorem length_le_space (buffer : Buffer) (bytes : Bytes) :
    bytes.length ≤ (buffer.makeRoomFor bytes.length).space := buffer.le_space_makeRoomFor bytes.length

theorem room_inside (buffer : Buffer) (bytes : Bytes) :
    (buffer.makeRoomFor bytes.length).e + bytes.length ≤ (buffer.makeRoomFor bytes.length).cap := by
  have fits := buffer.length_le_space bytes
  have := (buffer.makeRoomFor bytes.length).end_le
  unfold space cap at fits
  unfold cap
  omega

/-- `allocRoom(len)`, after which the caller writes `len` bytes at the address returned. -/
def allocRoom (buffer : Buffer) (bytes : Bytes) : Buffer :=
  let room := buffer.makeRoomFor bytes.length
  (room.addSize bytes.length (buffer.length_le_space bytes)).write room.e bytes
    (buffer.room_inside bytes)

/-- Writing into room that was allocated is appending. -/
theorem allocRoom_eq (buffer : Buffer) (bytes : Bytes) :
    buffer.allocRoom bytes = buffer.append bytes := rfl

/-- `makeRoom(len)`, after which the caller writes at `end()` and calls `addSize`. -/
def makeRoomAndWrite (buffer : Buffer) (len : ℕ) (bytes : Bytes) (fits : bytes.length ≤ len) :
    Buffer :=
  (buffer.makeRoomFor len).fill bytes (fits.trans (buffer.le_space_makeRoomFor len))

/-- `setSuggestSize`. -/
def setSuggestSize (buffer : Buffer) (size : ℕ) : Buffer := { buffer with exp := size }

theorem end_le_copy (src : Buffer) : src.e ≤
    (List.replicate src.b 0 ++ src.contents ++ List.replicate (src.cap - src.e) 0).length := by
  have := src.begin_le
  simp only [List.length_append, List.length_replicate, length_contents, size]
  omega

/-- `copyFrom`: the offsets are kept, and the contents are copied to a new block. -/
def copyFrom (src : Buffer) : Buffer where
  buf := List.replicate src.b 0 ++ src.contents ++ List.replicate (src.cap - src.e) 0
  b := src.b
  e := src.e
  exp := src.exp
  begin_le := src.begin_le
  end_le := src.end_le_copy

@[simp] theorem contents_copyFrom (src : Buffer) : src.copyFrom.contents = src.contents := by
  have inside := src.begin_le
  have length : (List.replicate src.b (0 : UInt8) ++ src.contents).length = src.e := by
    rw [List.length_append, List.length_replicate, length_contents, size]
    omega
  show ((List.replicate src.b 0 ++ src.contents ++ _).take src.e).drop src.b = _
  rw [List.take_left' length, List.drop_left' (List.length_replicate ..)]

/-! ## The suggested size -/

theorem exp_makeRoomFor (buffer : Buffer) (len : ℕ) : (buffer.makeRoomFor len).exp = buffer.exp := by
  unfold makeRoomFor
  split_ifs <;> rfl

theorem exp_append (buffer : Buffer) (bytes : Bytes) : (buffer.append bytes).exp = buffer.exp :=
  buffer.exp_makeRoomFor bytes.length

theorem exp_absorb (buffer other : Buffer) :
    (buffer.absorb other).1.exp = buffer.exp ∧ (buffer.absorb other).2.exp = other.exp := by
  unfold absorb
  split_ifs
  · exact ⟨rfl, rfl⟩
  · exact ⟨buffer.exp_append other.contents, rfl⟩

end Buffer

/-! ## The two machines -/

/-- The operations on a set of buffers. -/
inductive BufferOp (ι : Type) where
  | append (dst : ι) (bytes : Bytes)
  /-- `appendValue`, with the bytes of the value. -/
  | appendValue (dst : ι) (value : Bytes)
  /-- `allocRoom(len)`, then `len` bytes are written. -/
  | allocRoom (dst : ι) (bytes : Bytes)
  /-- `makeRoom(len)`, then at most `len` bytes are written and `addSize` is called. -/
  | makeRoomFor (dst : ι) (len : ℕ) (bytes : Bytes)
  | makeRoom (dst : ι)
  | consume (dst : ι) (len : ℕ)
  | clear (dst : ι)
  | absorb (dst src : ι)
  | setSuggestSize (dst : ι) (size : ℕ)
  /-- The copy constructor makes `dst`. -/
  | construct (dst src : ι)
  | assign (dst src : ι)

/-- What a buffer stands for. -/
@[ext] structure ByteSequence where
  contents : Bytes
  exp : ℕ
  deriving DecidableEq, Repr

/-- The sequence in a buffer. -/
def Buffer.sequence (buffer : Buffer) : ByteSequence := ⟨buffer.contents, buffer.exp⟩

theorem Buffer.sequence_copyFrom (src : Buffer) : src.copyFrom.sequence = src.sequence := by
  rw [sequence, contents_copyFrom]
  rfl

namespace BufferOp

variable {ι : Type} [DecidableEq ι]

/-- An operation on the representation; `none` when its caller breaks a precondition. -/
def step (store : ι → Buffer) : BufferOp ι → Option (ι → Buffer)
  | append dst bytes => some (Function.update store dst ((store dst).append bytes))
  | appendValue dst value => some (Function.update store dst ((store dst).append value))
  | allocRoom dst bytes => some (Function.update store dst ((store dst).allocRoom bytes))
  | makeRoomFor dst len bytes =>
      if fits : bytes.length ≤ len then
        some (Function.update store dst ((store dst).makeRoomAndWrite len bytes fits))
      else none
  | makeRoom dst => some (Function.update store dst (store dst).makeRoom)
  | consume dst len => ((store dst).consume len).map (Function.update store dst)
  | clear dst => some (Function.update store dst (store dst).clear)
  | absorb dst src =>
      if dst = src then some store
      else
        let (buffer, other) := (store dst).absorb (store src)
        some (Function.update (Function.update store dst buffer) src other)
  | setSuggestSize dst size => some (Function.update store dst ((store dst).setSuggestSize size))
  | construct dst src =>
      if dst = src then none else some (Function.update store dst (store src).copyFrom)
  | assign dst src =>
      if dst = src then some store else some (Function.update store dst (store src).copyFrom)

/-- Operations one after the other. -/
def run (store : ι → Buffer) : List (BufferOp ι) → Option (ι → Buffer)
  | [] => some store
  | op :: rest => (op.step store).bind fun store => run store rest

/-- What the caller of an operation has to observe. -/
def Admissible (sequences : ι → ByteSequence) : BufferOp ι → Prop
  | makeRoomFor _ len bytes => bytes.length ≤ len
  | consume dst len => len ≤ (sequences dst).contents.length
  | construct dst src => dst ≠ src
  | _ => True

/-- What an operation means. -/
def meaning (sequences : ι → ByteSequence) : BufferOp ι → ι → ByteSequence
  | append dst bytes | appendValue dst bytes | allocRoom dst bytes | makeRoomFor dst _ bytes =>
      Function.update sequences dst
        ⟨(sequences dst).contents ++ bytes, (sequences dst).exp⟩
  | makeRoom _ => sequences
  | consume dst len => Function.update sequences dst
      ⟨(sequences dst).contents.drop len, (sequences dst).exp⟩
  | clear dst => Function.update sequences dst ⟨[], (sequences dst).exp⟩
  | absorb dst src =>
      if dst = src then sequences
      else Function.update (Function.update sequences dst
        ⟨(sequences dst).contents ++ (sequences src).contents, (sequences dst).exp⟩) src
        ⟨[], (sequences src).exp⟩
  | setSuggestSize dst size => Function.update sequences dst ⟨(sequences dst).contents, size⟩
  | construct dst src | assign dst src => Function.update sequences dst (sequences src)

/-- What a list of operations means. -/
def meanings (sequences : ι → ByteSequence) : List (BufferOp ι) → ι → ByteSequence
  | [] => sequences
  | op :: rest => meanings (op.meaning sequences) rest

/-- Every operation of the list is admissible in its turn. -/
def AllAdmissible (sequences : ι → ByteSequence) : List (BufferOp ι) → Prop
  | [] => True
  | op :: rest => op.Admissible sequences ∧ AllAdmissible (op.meaning sequences) rest

/-! ## Their agreement -/

/-- The sequences in a set of buffers. -/
def sequences (store : ι → Buffer) (i : ι) : ByteSequence := (store i).sequence

theorem sequences_update (store : ι → Buffer) (dst : ι) (buffer : Buffer) :
    sequences (Function.update store dst buffer) =
      Function.update (sequences store) dst buffer.sequence := by
  funext i
  by_cases same : i = dst
  · subst same
    simp [sequences]
  · simp [sequences, same]

/-- One operation. -/
theorem step_meaning {store : ι → Buffer} {op : BufferOp ι}
    (admissible : op.Admissible (sequences store)) :
    ∃ after, op.step store = some after ∧ sequences after = op.meaning (sequences store) := by
  have appended : ∀ dst bytes, sequences (Function.update store dst ((store dst).append bytes)) =
      Function.update (sequences store) dst
        ⟨(sequences store dst).contents ++ bytes, (sequences store dst).exp⟩ := by
    intro dst bytes
    rw [sequences_update]
    simp [Buffer.sequence, sequences, Buffer.exp_append]
  cases op with
  | append dst bytes => exact ⟨_, rfl, appended dst bytes⟩
  | appendValue dst value => exact ⟨_, rfl, appended dst value⟩
  | allocRoom dst bytes => exact ⟨_, rfl, appended dst bytes⟩
  | makeRoomFor dst len bytes =>
      refine ⟨_, dif_pos admissible, ?_⟩
      rw [sequences_update]
      simp [meaning, Buffer.sequence, sequences, Buffer.makeRoomAndWrite, Buffer.exp_makeRoomFor]
  | makeRoom dst =>
      refine ⟨_, rfl, ?_⟩
      rw [sequences_update]
      simp [meaning, Buffer.sequence, Buffer.exp_makeRoom, sequences]
  | consume dst len =>
      have fits : len ≤ (store dst).size := by
        rw [← Buffer.length_contents]
        exact admissible
      obtain ⟨rest, consumed, contents⟩ := Buffer.consume_spec fits
      refine ⟨_, by rw [step, consumed, Option.map_some], ?_⟩
      rw [sequences_update]
      simp [meaning, Buffer.sequence, sequences, contents, Buffer.exp_of_consume consumed]
  | clear dst =>
      refine ⟨_, rfl, ?_⟩
      rw [sequences_update]
      rfl
  | absorb dst src =>
      by_cases same : dst = src
      · exact ⟨store, if_pos same, by rw [meaning, if_pos same]⟩
      · refine ⟨Function.update (Function.update store dst ((store dst).absorb (store src)).1) src
          ((store dst).absorb (store src)).2, if_neg same, ?_⟩
        obtain ⟨exp, other_exp⟩ := (store dst).exp_absorb (store src)
        rw [sequences_update, sequences_update, meaning, if_neg same]
        simp only [Buffer.sequence, sequences, exp, other_exp, Buffer.contents_absorb_fst,
          Buffer.contents_absorb_snd]
  | setSuggestSize dst size =>
      refine ⟨_, rfl, ?_⟩
      rw [sequences_update]
      rfl
  | construct dst src =>
      refine ⟨_, if_neg admissible, ?_⟩
      rw [sequences_update, Buffer.sequence_copyFrom]
      rfl
  | assign dst src =>
      by_cases same : dst = src
      · refine ⟨store, if_pos same, ?_⟩
        subst same
        rw [meaning, Function.update_eq_self]
      · refine ⟨_, if_neg same, ?_⟩
        rw [sequences_update, Buffer.sequence_copyFrom]
        rfl

/-- **Buffers refine byte sequences**: whatever operations are performed on a set of buffers,
as long as nobody consumes more than there is, they do not fail, the offsets of every buffer
stay within its storage, its contents and its suggested size are those of the sequences, and
`makeRoom(len)` would leave room for `len` bytes without changing them. -/
theorem buffers_refine_sequences (store : ι → Buffer) (ops : List (BufferOp ι))
    (admissible : AllAdmissible (sequences store) ops) :
    ∃ after, run store ops = some after ∧
      sequences after = meanings (sequences store) ops ∧
      ∀ i, (after i).b ≤ (after i).e ∧ (after i).e ≤ (after i).cap ∧
        ∀ len, len ≤ ((after i).makeRoomFor len).space ∧
          ((after i).makeRoomFor len).sequence = (after i).sequence := by
  induction ops generalizing store with
  | nil =>
      refine ⟨store, rfl, rfl, fun i => ⟨(store i).begin_le, (store i).end_le, fun len => ?_⟩⟩
      refine ⟨(store i).le_space_makeRoomFor len, ?_⟩
      rw [Buffer.sequence, Buffer.contents_makeRoomFor, Buffer.exp_makeRoomFor, Buffer.sequence]
  | cons op rest ih =>
      obtain ⟨first, others⟩ := admissible
      obtain ⟨next, stepped, same⟩ := step_meaning first
      rw [← same] at others
      obtain ⟨after, ran, meant, room⟩ := ih next others
      refine ⟨after, ?_, ?_, room⟩
      · rw [run, stepped, Option.bind_some, ran]
      · rw [meanings, meant, same]

/-- Two buffers: one is filled and partly consumed, copied over, and absorbed. -/
def exchange : List (BufferOp Bool) :=
  [.append true [1, 2, 3], .consume true 1, .assign false true, .append false [4],
    .makeRoomFor true 5 [6, 7], .setSuggestSize true 9, .absorb false true]

theorem buffers_refine_sequences_exchange :
    ∃ after, run (fun _ => .new) exchange = some after ∧
      (after false).contents = [2, 3, 4, 2, 3, 6, 7] ∧ (after true).contents = [] ∧
      (after true).exp = 9 := by
  obtain ⟨after, ran, same, -⟩ := buffers_refine_sequences (fun _ : Bool => Buffer.new) exchange
    ⟨trivial, show 1 ≤ 3 by decide, trivial, trivial, show 2 ≤ 5 by decide, trivial, trivial, trivial⟩
  have emptied : sequences after true = ⟨[], 9⟩ := by
    rw [same]
    decide
  have filled : sequences after false = ⟨[2, 3, 4, 2, 3, 6, 7], 512⟩ := by
    rw [same]
    decide
  exact ⟨after, ran, congrArg ByteSequence.contents filled, congrArg ByteSequence.contents emptied,
    congrArg ByteSequence.exp emptied⟩

end BufferOp

end Handy
