import Handy.File
import Handy.Lib.Heap
import Handy.Proto

/-!
# `Status`

The objects of `status.h` with the memory they own. What a status says is in a block of memory:
four bytes with the size of the block, four bytes with the code, and the message. A copy is a copy
of as many bytes as the block says, and a move takes the pointer.

The two ways to make a status differ in the end of the message: `fromFormat` allocates a byte for
the terminating zero, and `Status(int, const char *)` does not. `status_reports_iff` says when the
reader of a status, and of whatever copies of it there are, gets the message without leaving the
block. The statuses of the functions on files are made by `fromFormat`
(`StatusStore.Follows.ioError_reports`).
-/

set_option autoImplicit false

namespace Handy

/-- Some `Status` objects: the heap, and the `state_` of each. Where there is no object, the
pointer is null. -/
structure StatusStore (ι : Type) where
  heap : Heap UInt8
  state_ : ι → Option ℕ

/-! ## Making a status -/

/-- The functions that make a status. -/
inductive Maker where
  /-- `Status(int code, const char *msg)`, and with it `Status(int, const std::string &)`. -/
  | status
  /-- `fromFormat(int code, const char *fmt, ...)`. -/
  | fromFormat
  deriving DecidableEq, Repr

/-- A call of one of them; `msg` is the message, or what the format says. -/
structure Making where
  maker : Maker
  code : Int32
  msg : Bytes
  deriving DecidableEq

/-- The `int32_t` at an address. -/
def loadI32 (memory : Bytes) : Int32 := (UInt32.ofNat (loadU32 memory)).toInt32

/-- An `int32_t` as it is stored. -/
def storeI32 (value : Int32) : Bytes := storeU32 value.toUInt32.toNat

/-- A block of memory is allocated and its three parts are written. -/
def fillState (heap : Heap UInt8) (size : ℕ) (code : Int32) (text : Bytes) :
    Option (ℕ × Heap UInt8) := do
  let (p, heap) := heap.alloc size
  let heap ← heap.write p 0 (storeU32 size)
  let heap ← heap.write p 4 (storeI32 code)
  let heap ← heap.write p 8 text
  return (p, heap)

/-- `vsnprintf`: at most `size - 1` bytes and the terminating zero are written. -/
def vsnprintf (size : ℕ) (msg : Bytes) : Bytes :=
  if size = 0 then [] else msg.take (size - 1) ++ [0]

/-- What `vsnprintf` returns; a length that is no `int` is an error. -/
def vsnprintfLength (msg : Bytes) : ℤ := if msg.length < 2 ^ 31 then msg.length else -1

namespace Making

/-- `Status::Status`; the differences are those of `uint32_t`. -/
def status (heap : Heap UInt8) (code : Int32) (msg : Bytes) : Option (ℕ × Heap UInt8) :=
  let sz := (msg.length + 8) % 2 ^ 32
  fillState heap sz code (msg.take ((sz + 2 ^ 32 - 8) % 2 ^ 32))

/-- `Status::fromFormat`; an `int` that overflows is undefined. -/
def fromFormat (heap : Heap UInt8) (code : Int32) (msg : Bytes) : Option (ℕ × Heap UInt8) :=
  let n := vsnprintfLength msg
  if 2 ^ 31 ≤ 8 + n + 1 then none
  else
    let size := (8 + n + 1).toNat
    fillState heap size code (vsnprintf (size - 8) msg)

/-- A status is made: its `state_`, and the heap after it. -/
def run (making : Making) (heap : Heap UInt8) : Option (ℕ × Heap UInt8) :=
  match making.maker with
  | .status => status heap making.code making.msg
  | .fromFormat => fromFormat heap making.code making.msg

end Making

/-! ## Copies and moves -/

/-- `Status::copyState`. -/
def copyState (heap : Heap UInt8) : Option ℕ → Option (Option ℕ × Heap UInt8)
  | none => some (none, heap)
  | some state => do
      let size := loadU32 (← heap.read state 0 4)
      let (res, heap) := heap.alloc size
      let bytes ← heap.read state 0 size
      let heap ← heap.write res 0 bytes
      return (some res, heap)

/-- `delete[] state_`. -/
def deleteState (heap : Heap UInt8) : Option ℕ → Option (Heap UInt8)
  | none => some heap
  | some state => heap.free state

/-- What happens to the objects. -/
inductive StatusOp (ι : Type) where
  /-- `Status()`. -/
  | default (dst : ι)
  | make (dst : ι) (making : Making)
  /-- `Status(const Status &)`. -/
  | copy (dst src : ι)
  /-- `Status(Status &&)`. -/
  | move (dst src : ι)
  /-- `operator=(const Status &)`. -/
  | assign (dst src : ι)
  /-- `operator=(Status &&)`. -/
  | moveAssign (dst src : ι)
  /-- `~Status`. -/
  | destroy (dst : ι)

namespace StatusOp

variable {ι : Type} [DecidableEq ι]

/-- One operation; `none` where memory is used that is not there. -/
def step (store : StatusStore ι) : StatusOp ι → Option (StatusStore ι)
  | default dst => some { store with state_ := Function.update store.state_ dst none }
  | make dst making => do
      let (state, heap) ← making.run store.heap
      return ⟨heap, Function.update store.state_ dst (some state)⟩
  | copy dst src => do
      let (state, heap) ← copyState store.heap (store.state_ src)
      return ⟨heap, Function.update store.state_ dst state⟩
  | move dst src => some { store with
      state_ := Function.update (Function.update store.state_ dst (store.state_ src)) src none }
  | assign dst src => do
      let heap ← deleteState store.heap (store.state_ dst)
      let (state, heap) ← copyState heap (store.state_ src)
      return ⟨heap, Function.update store.state_ dst state⟩
  | moveAssign dst src => do
      let heap ← deleteState store.heap (store.state_ dst)
      return ⟨heap, Function.update (Function.update store.state_ dst (store.state_ src)) src none⟩
  | destroy dst => do
      let heap ← deleteState store.heap (store.state_ dst)
      return ⟨heap, Function.update store.state_ dst none⟩

/-- Operations one after the other. -/
def run (store : StatusStore ι) : List (StatusOp ι) → Option (StatusStore ι)
  | [] => some store
  | op :: rest => (op.step store).bind fun store => run store rest

/-! ## Where a status comes from -/

/-- By which call the status in each object was made. -/
def originsAfter (origins : ι → Option Making) : StatusOp ι → ι → Option Making
  | default dst | destroy dst => Function.update origins dst none
  | make dst making => Function.update origins dst (some making)
  | copy dst src | assign dst src => Function.update origins dst (origins src)
  | move dst src | moveAssign dst src =>
      Function.update (Function.update origins dst (origins src)) src none

/-- By which call the status in each object was made, after some operations. -/
def origins (before : ι → Option Making) : List (StatusOp ι) → ι → Option Making
  | [] => before
  | op :: rest => origins (op.originsAfter before) rest

/-- An object is made where there is none, and an operation is between distinct objects. -/
def Admissible (origins : ι → Option Making) : StatusOp ι → Prop
  | default dst | make dst _ => origins dst = none
  | copy dst src | move dst src => dst ≠ src ∧ origins dst = none
  | assign dst src | moveAssign dst src => dst ≠ src
  | destroy _ => True

/-- Every operation is admissible in its turn. -/
def AllAdmissible (origins : ι → Option Making) : List (StatusOp ι) → Prop
  | [] => True
  | op :: rest => op.Admissible origins ∧ AllAdmissible (op.originsAfter origins) rest

end StatusOp

/-! ## Reading a status -/

namespace StatusStore

variable {ι : Type}

/-- No objects. -/
def empty (junk : ℕ → ℕ → UInt8) : StatusStore ι := ⟨.empty junk, fun _ => none⟩

/-- `code()`. -/
def code (store : StatusStore ι) (i : ι) : Option Int32 :=
  match store.state_ i with
  | none => some 0
  | some state => (store.heap.read state 4 4).map loadI32

/-- The string at the start of some bytes; `none` if no zero ends it there. -/
def stringIn (bytes : Bytes) : Option Bytes :=
  if 0 ∈ bytes then some (bytes.takeWhile fun byte => byte ≠ 0) else none

/-- `msg()`, up to the terminating zero; `none` if there is none within the size that the first
four bytes of the block say. -/
def msg (store : StatusStore ι) (i : ι) : Option Bytes :=
  match store.state_ i with
  | none => some []
  | some state => do
      let size := loadU32 (← store.heap.read state 0 4)
      let bytes ← store.heap.read state 8 (size - 8)
      stringIn bytes

/-- What the status in an object says. -/
def Reports (store : StatusStore ι) (i : ι) (code : Int32) (msg : Bytes) : Prop :=
  store.code i = some code ∧ store.msg i = some msg

end StatusStore

/-! ## The blocks -/

theorem length_storeI32 (value : Int32) : (storeI32 value).length = 4 := rfl

theorem loadI32_storeI32 (value : Int32) (rest : Bytes) : loadI32 (storeI32 value ++ rest) = value := by
  rw [loadI32, storeI32, loadU32_storeU32 (UInt32.toNat_lt _), UInt32.ofNat_toNat,
    Int32.toInt32_toUInt32]

/-- A block with its three parts. -/
def stateBlock (size : ℕ) (code : Int32) (text : Bytes) : Bytes :=
  storeU32 size ++ (storeI32 code ++ text)

@[simp] theorem length_stateBlock (size : ℕ) (code : Int32) (text : Bytes) :
    (stateBlock size code text).length = 8 + text.length := by
  rw [stateBlock, List.length_append, List.length_append, length_storeI32]
  exact (Nat.add_assoc 4 4 _).symm

/-- The three writes fill the block. -/
theorem fillState_eq (heap : Heap UInt8) {size : ℕ} (code : Int32) {text : Bytes}
    (fits : 8 + text.length = size) :
    fillState heap size code text = some (heap.next, heap.put (stateBlock size code text)) := by
  have length : (heap.fresh size).length = size := heap.length_fresh size
  have header : (storeU32 size).length = 4 := rfl
  have head : (storeU32 size ++ storeI32 code).length = 8 := rfl
  have first : (heap.put (heap.fresh size)).write heap.next 0 (storeU32 size) =
      some (heap.put (storeU32 size ++ (heap.fresh size).drop 4)) := by
    refine heap.write_put [] (heap.fresh size) (storeU32 size) rfl ?_
    show 4 ≤ (heap.fresh size).length
    omega
  have second : (heap.put (storeU32 size ++ (heap.fresh size).drop 4)).write heap.next 4
      (storeI32 code) = some (heap.put
        (storeU32 size ++ storeI32 code ++ (heap.fresh size).drop 8)) := by
    rw [heap.write_put (storeU32 size) ((heap.fresh size).drop 4) (storeI32 code) header,
      length_storeI32, List.drop_drop]
    rw [length_storeI32, List.length_drop]
    omega
  have third : (heap.put (storeU32 size ++ storeI32 code ++ (heap.fresh size).drop 8)).write
      heap.next 8 text = some (heap.put (stateBlock size code text)) := by
    have nothing : ((heap.fresh size).drop 8).drop text.length = [] := by
      rw [List.drop_drop]
      exact List.drop_eq_nil_of_le (by omega)
    rw [heap.write_put (storeU32 size ++ storeI32 code) ((heap.fresh size).drop 8) text head,
      nothing, List.append_nil, List.append_assoc, stateBlock]
    rw [List.length_drop]
    omega
  simp only [fillState, Heap.alloc, first, second, third, Option.bind_eq_bind, Option.bind_some,
    Option.pure_def]

/-- A block of fewer than eight bytes has no room for the size and the code. -/
theorem fillState_eq_none (heap : Heap UInt8) {size : ℕ} (code : Int32) (text : Bytes)
    (small : size < 8) : fillState heap size code text = none := by
  have length : (heap.fresh size).length = size := heap.length_fresh size
  simp only [fillState, Heap.alloc, Option.bind_eq_bind]
  by_cases header : 4 ≤ size
  · have first := heap.write_put [] (heap.fresh size) (storeU32 size) List.length_nil
      (length.symm ▸ header)
    have rest : ((heap.fresh size).drop 4).length = size - 4 := by rw [List.length_drop, length]
    rw [List.nil_append, List.nil_append] at first
    rw [first, Option.bind_some, heap.write_put_eq_none, Option.bind_none]
    rw [List.length_append, length_storeI32]
    show 4 + ((heap.fresh size).drop 4).length < 4 + 4
    omega
  · rw [heap.write_put_eq_none, Option.bind_none]
    show (heap.fresh size).length < 0 + 4
    omega

namespace Making

variable {making : Making}

/-- The size of the block. -/
def size (making : Making) : ℕ :=
  match making.maker with
  | .status => (making.msg.length + 8) % 2 ^ 32
  | .fromFormat => (8 + vsnprintfLength making.msg + 1).toNat

/-- What is written behind the code. -/
def text (making : Making) : Bytes :=
  match making.maker with
  | .status => making.msg.take (making.size - 8)
  | .fromFormat => vsnprintf (making.size - 8) making.msg

/-- The block that the status has. -/
def block (making : Making) : Bytes := stateBlock making.size making.code making.text

/-- There is room for what is written, and no `int` overflows. -/
def Defined (making : Making) : Prop :=
  match making.maker with
  | .status => 8 ≤ making.size
  | .fromFormat => 8 + vsnprintfLength making.msg + 1 < 2 ^ 31

theorem le_vsnprintfLength (msg : Bytes) : -1 ≤ vsnprintfLength msg := by
  unfold vsnprintfLength
  split_ifs
  · omega
  · omega

theorem vsnprintfLength_le (msg : Bytes) : vsnprintfLength msg ≤ msg.length := by
  unfold vsnprintfLength
  split_ifs
  · omega
  · omega

theorem defined_of_fromFormat (made : making.maker = .fromFormat)
    (small : making.msg.length + 9 < 2 ^ 31) : making.Defined := by
  have length := vsnprintfLength_le making.msg
  have bound : 8 + vsnprintfLength making.msg + 1 < 2 ^ 31 := by omega
  rw [Defined, made]
  exact bound

theorem size_lt (defined : making.Defined) : making.size < 2 ^ 32 := by
  rcases making with ⟨maker, code, msg⟩
  cases maker with
  | status => exact Nat.mod_lt _ (by decide)
  | fromFormat =>
      have bound : 8 + vsnprintfLength msg + 1 < 2 ^ 31 := defined
      show (8 + vsnprintfLength msg + 1).toNat < 2 ^ 32
      omega

/-- The parts fill the block. -/
theorem length_text (defined : making.Defined) : 8 + making.text.length = making.size := by
  rcases making with ⟨maker, code, msg⟩
  cases maker with
  | status =>
      have room : 8 ≤ (msg.length + 8) % 2 ^ 32 := defined
      show 8 + (msg.take ((msg.length + 8) % 2 ^ 32 - 8)).length = (msg.length + 8) % 2 ^ 32
      rw [List.length_take]
      omega
  | fromFormat =>
      have low := le_vsnprintfLength msg
      have high := vsnprintfLength_le msg
      show 8 + (vsnprintf ((8 + vsnprintfLength msg + 1).toNat - 8) msg).length =
        (8 + vsnprintfLength msg + 1).toNat
      unfold vsnprintf
      split_ifs with nothing
      · rw [List.length_nil]
        omega
      · rw [List.length_append, List.length_take, List.length_singleton]
        omega

theorem run_eq (defined : making.Defined) (heap : Heap UInt8) :
    making.run heap = some (heap.next, heap.put making.block) := by
  have fits := length_text defined
  rcases making with ⟨maker, code, msg⟩
  cases maker with
  | status =>
      have room : 8 ≤ (msg.length + 8) % 2 ^ 32 := defined
      have wraps : ((msg.length + 8) % 2 ^ 32 + 2 ^ 32 - 8) % 2 ^ 32 =
          (msg.length + 8) % 2 ^ 32 - 8 := by omega
      show fillState heap _ code (msg.take (_ % 2 ^ 32)) = _
      rw [wraps]
      exact fillState_eq heap code fits
  | fromFormat =>
      have bound : 8 + vsnprintfLength msg + 1 < 2 ^ 31 := defined
      exact (if_neg (not_le.mpr bound)).trans (fillState_eq heap code fits)

theorem run_eq_none (undefined : ¬making.Defined) (heap : Heap UInt8) :
    making.run heap = none := by
  rcases making with ⟨maker, code, msg⟩
  cases maker with
  | status => exact fillState_eq_none heap code _ (not_le.mp undefined)
  | fromFormat => exact if_pos (not_lt.mp undefined)

/-! ## What is in a block -/

theorem length_block (defined : making.Defined) : making.block.length = making.size := by
  rw [block, length_stateBlock, length_text defined]

section Reads

variable {heap : Heap UInt8} {state : ℕ} (defined : making.Defined)
  (found : heap.blocks state = some making.block)

include defined found

/-- The first four bytes are the size. -/
theorem read_size : ∃ bytes, heap.read state 0 4 = some bytes ∧ loadU32 bytes = making.size := by
  have length := length_block defined
  have fits := length_text defined
  refine ⟨_, Heap.read_eq_some found (by omega), ?_⟩
  show loadU32 (storeU32 making.size) = making.size
  have loaded := loadU32_storeU32 (size_lt defined) []
  rwa [List.append_nil] at loaded

theorem read_block : heap.read state 0 making.size = some making.block := by
  have length := length_block defined
  rw [Heap.read_eq_some found (by omega), List.drop_zero, List.take_of_length_le length.le]

theorem read_code : (heap.read state 4 4).map loadI32 = some making.code := by
  have length := length_block defined
  have fits := length_text defined
  rw [Heap.read_eq_some found (by omega)]
  have loaded := loadI32_storeI32 making.code []
  rw [List.append_nil] at loaded
  exact congrArg some loaded

theorem read_text : heap.read state 8 (making.size - 8) = some making.text := by
  have length := length_block defined
  have fits := length_text defined
  rw [Heap.read_eq_some found (by omega)]
  show some (making.text.take _) = _
  rw [List.take_of_length_le (by omega)]

/-- **A copy has the same block.** -/
theorem copyState_eq : copyState heap (some state) =
    some (some heap.next, heap.put making.block) := by
  obtain ⟨bytes, header, size⟩ := read_size defined found
  have length := length_block defined
  have room : (heap.fresh making.size).length = making.size := heap.length_fresh making.size
  have read : (heap.put (heap.fresh making.size)).read state 0 making.size = some making.block :=
    read_block defined (heap.blocks_put_of_eq_some found)
  have written := heap.write_put [] (heap.fresh making.size) making.block List.length_nil (by omega)
  have nothing : (heap.fresh making.size).drop making.block.length = [] :=
    List.drop_eq_nil_of_le (by omega)
  rw [nothing, List.append_nil, List.nil_append, List.nil_append] at written
  simp only [copyState, Heap.alloc, header, size, read, written, Option.bind_eq_bind,
    Option.bind_some, Option.pure_def]

end Reads

/-- Without the terminating zero there is no end. -/
theorem text_status {code : Int32} {msg : Bytes} (nul : 0 ∉ msg) :
    StatusStore.stringIn (text ⟨.status, code, msg⟩) = none :=
  if_neg fun member => nul (List.mem_of_mem_take member)

/-- With room for it, the terminating zero is written. -/
theorem text_fromFormat {code : Int32} {msg : Bytes} (int : msg.length < 2 ^ 31) :
    text ⟨.fromFormat, code, msg⟩ = msg ++ [0] := by
  have length : vsnprintfLength msg = msg.length := if_pos int
  show vsnprintf ((8 + vsnprintfLength msg + 1).toNat - 8) msg = msg ++ [0]
  rw [length, vsnprintf, if_neg (by omega), List.take_of_length_le (by omega)]

/-- Where the length is an error, nothing is written. -/
theorem text_fromFormat_error {code : Int32} {msg : Bytes} (error : 2 ^ 31 ≤ msg.length) :
    text ⟨.fromFormat, code, msg⟩ = [] := by
  have length : vsnprintfLength msg = -1 := if_neg (not_lt.mpr error)
  show vsnprintf ((8 + vsnprintfLength msg + 1).toNat - 8) msg = []
  rw [length]
  rfl

theorem stringIn_append_zero {msg : Bytes} (nul : 0 ∉ msg) :
    StatusStore.stringIn (msg ++ [0]) = some msg := by
  have all : ∀ byte ∈ msg, decide (byte ≠ 0) = true := by
    intro byte member
    refine decide_eq_true ?_
    rintro rfl
    exact nul member
  have ended : (0 : UInt8) ∈ msg ++ [0] := List.mem_append_right _ (List.mem_singleton.mpr rfl)
  rw [StatusStore.stringIn, if_pos ended, List.takeWhile_append_of_pos all]
  exact congrArg some (List.append_nil msg)

/-- **The message can be read exactly if `fromFormat` has allocated room for its end.** -/
theorem text_iff (defined : making.Defined) (nul : 0 ∉ making.msg) :
    StatusStore.stringIn making.text = some making.msg ↔
      making.maker = .fromFormat ∧ making.msg.length + 9 < 2 ^ 31 := by
  rcases making with ⟨maker, code, msg⟩
  cases maker with
  | status =>
      rw [text_status nul]
      simp
  | fromFormat =>
      have bound : 8 + vsnprintfLength msg + 1 < 2 ^ 31 := defined
      by_cases int : msg.length < 2 ^ 31
      · have length : vsnprintfLength msg = msg.length := if_pos int
        rw [text_fromFormat int, stringIn_append_zero nul]
        simp only [true_and, true_iff]
        omega
      · rw [text_fromFormat_error (not_lt.mp int)]
        constructor
        · intro ended
          cases ended
        · rintro ⟨-, small⟩
          exact absurd ((Nat.le_add_right _ _).trans_lt small) int

end Making

/-! ## Objects and their blocks -/

namespace StatusStore

variable {ι : Type} {store : StatusStore ι} {origins : ι → Option Making} {i dst src : ι}
  {making : Making}

/-- The blocks of statuses that were made by some calls. -/
def blocksOf (origins : ι → Option Making) (i : ι) : Option Bytes := (origins i).map Making.block

/-- Each object owns a block as the call has made it from which its status comes. -/
structure Follows (store : StatusStore ι) (origins : ι → Option Making) : Prop where
  owns : store.heap.OwnedBy store.state_
  contents : store.heap.contents store.state_ = blocksOf origins
  defined : ∀ ⦃i making⦄, origins i = some making → making.Defined

namespace Follows

theorem empty (junk : ℕ → ℕ → UInt8) : Follows (empty junk : StatusStore ι) fun _ => none where
  owns := .empty junk
  contents := rfl
  defined := fun _ _ made => by cases made

theorem null_iff (follows : Follows store origins) : store.state_ i = none ↔ origins i = none := by
  rw [← follows.owns.contents_eq_none_iff, follows.contents, blocksOf, Option.map_eq_none_iff]

theorem found (follows : Follows store origins) (made : origins i = some making) :
    ∃ state, store.state_ i = some state ∧ store.heap.blocks state = some making.block := by
  have there : store.state_ i ≠ none := by
    intro nothing
    rw [follows.null_iff.mp nothing] at made
    cases made
  obtain ⟨state, here⟩ := Option.ne_none_iff_exists'.mp there
  obtain ⟨block, found, contents⟩ := follows.owns.contents_eq_some here
  rw [follows.contents, blocksOf, made, Option.map_some] at contents
  cases contents
  exact ⟨state, here, found⟩

/-- **What a status says** depends on how it was made. -/
theorem reports_iff (follows : Follows store origins) (made : origins i = some making)
    (nul : 0 ∉ making.msg) :
    store.Reports i making.code making.msg ↔
      making.maker = .fromFormat ∧ making.msg.length + 9 < 2 ^ 31 := by
  have defined := follows.defined made
  obtain ⟨state, here, block⟩ := follows.found made
  obtain ⟨bytes, read, size⟩ := Making.read_size defined block
  have code : store.code i = some making.code := by
    rw [StatusStore.code, here]
    exact Making.read_code defined block
  have msg : store.msg i = stringIn making.text := by
    simp only [StatusStore.msg, here, read, size, Making.read_text defined block,
      Option.bind_eq_bind, Option.bind_some]
  rw [Reports, code, msg, ← Making.text_iff defined nul]
  simp only [true_and]

variable [DecidableEq ι]

theorem blocksOf_update (origins : ι → Option Making) (dst : ι) (given : Option Making) :
    blocksOf (Function.update origins dst given) =
      Function.update (blocksOf origins) dst (given.map Making.block) := by
  funext i
  by_cases same : i = dst
  · rw [blocksOf, same, Function.update_self, Function.update_self]
  · rw [blocksOf, Function.update_of_ne same, Function.update_of_ne same, blocksOf]

/-- Every status in the objects was made by a call that is defined. -/
theorem defined_update (follows : Follows store origins) {given : Option Making}
    (defined : ∀ making, given = some making → making.Defined) ⦃i : ι⦄ ⦃making : Making⦄
    (made : Function.update origins dst given i = some making) : making.Defined := by
  by_cases same : i = dst
  · rw [same, Function.update_self] at made
    exact defined making made
  · rw [Function.update_of_ne same] at made
    exact follows.defined made

/-- `delete[] state_`. -/
theorem deleted (follows : Follows store origins) (dst : ι) :
    ∃ heap, deleteState store.heap (store.state_ dst) = some heap ∧
      Follows ⟨heap, Function.update store.state_ dst none⟩ (Function.update origins dst none) := by
  cases here : store.state_ dst with
  | none =>
      have nothing := follows.null_iff.mp here
      refine ⟨store.heap, rfl, ?_⟩
      rw [Function.update_eq_self_iff.mpr here.symm, Function.update_eq_self_iff.mpr nothing.symm]
      exact follows
  | some state =>
      obtain ⟨after, freed, released⟩ := follows.owns.free_eq_some here
      refine ⟨after, freed, follows.owns.free here released, ?_, ?_⟩
      · rw [blocksOf_update, ← follows.contents]
        exact follows.owns.contents_free here released
      · exact follows.defined_update fun _ impossible => by cases impossible

/-- A new block. -/
theorem made (follows : Follows store origins) (nothing : origins dst = none)
    (defined : making.Defined) :
    Follows ⟨store.heap.put making.block, Function.update store.state_ dst (some store.heap.next)⟩
      (Function.update origins dst (some making)) where
  owns := follows.owns.put (follows.null_iff.mpr nothing) making.block
  contents := by
    rw [blocksOf_update, ← follows.contents]
    exact follows.owns.contents_put making.block
  defined := by
    refine follows.defined_update ?_
    intro other same
    cases same
    exact defined

/-- A copy. -/
theorem copied (follows : Follows store origins) (nothing : origins dst = none) (src : ι) :
    ∃ state heap, copyState store.heap (store.state_ src) = some (state, heap) ∧
      Follows ⟨heap, Function.update store.state_ dst state⟩
        (Function.update origins dst (origins src)) := by
  cases from_src : origins src with
  | none =>
      have null := follows.null_iff.mpr nothing
      refine ⟨none, store.heap, ?_, ?_⟩
      · rw [follows.null_iff.mpr from_src]
        rfl
      · rw [Function.update_eq_self_iff.mpr null.symm, Function.update_eq_self_iff.mpr nothing.symm]
        exact follows
  | some making =>
      have defined := follows.defined from_src
      obtain ⟨state, here, block⟩ := follows.found from_src
      refine ⟨some store.heap.next, store.heap.put making.block, ?_, follows.made nothing defined⟩
      rw [here]
      exact Making.copyState_eq defined block

/-- A move. -/
theorem moved (follows : Follows store origins) (nothing : origins dst = none)
    (distinct : dst ≠ src) :
    Follows { store with
        state_ := Function.update (Function.update store.state_ dst (store.state_ src)) src none }
      (Function.update (Function.update origins dst (origins src)) src none) where
  owns := follows.owns.move (follows.null_iff.mpr nothing) distinct
  contents := by
    rw [blocksOf_update, blocksOf_update, Heap.OwnedBy.contents_move, follows.contents]
    rfl
  defined := by
    intro i making made
    by_cases last : i = src
    · rw [last, Function.update_self] at made
      cases made
    · rw [Function.update_of_ne last] at made
      exact follows.defined_update (fun _ from_src => follows.defined from_src) made

end Follows

/-! ### The statuses of the functions on files -/

theorem nul_notMem_cstr (s : Bytes) : 0 ∉ cstr s := by
  intro member
  have nonzero := List.mem_takeWhile_imp member
  simp at nonzero

/-- **What `ioError` says can be read back**: the status that the functions on files return, made
by `fromFormat` from the same code and message. -/
theorem Follows.ioError_reports (follows : Follows store origins) (strerror : ℤ → Bytes)
    (fs : FileSystem) (op name : Bytes) (low : -2 ^ 31 ≤ fs.errno) (high : fs.errno < 2 ^ 31)
    (nul : 0 ∉ strerror fs.errno)
    (small : (Status.ioError strerror fs op name).msg.length + 9 < 2 ^ 31)
    (made : origins i = some ⟨.fromFormat, Int32.ofInt fs.errno,
      (Status.ioError strerror fs op name).msg⟩) :
    ∃ code, store.Reports i code (Status.ioError strerror fs op name).msg ∧
      code.toInt = (Status.ioError strerror fs op name).code := by
  refine ⟨Int32.ofInt fs.errno, ?_, Int32.toInt_ofInt_of_le low high⟩
  refine (follows.reports_iff made ?_).mpr ⟨rfl, small⟩
  have space : (0 : UInt8) ∉ ascii " " := by decide
  simp only [Status.ioError, List.mem_append, not_or]
  exact ⟨⟨⟨⟨nul_notMem_cstr op, space⟩, nul_notMem_cstr name⟩, space⟩, nul⟩

end StatusStore

/-! ## Runs -/

namespace StatusOp

variable {ι : Type} [DecidableEq ι] {store : StatusStore ι} {before : ι → Option Making}
  {making : Making} {last : ι}

/-- A call that makes a status is defined. -/
def Defined : StatusOp ι → Prop
  | make _ making => making.Defined
  | _ => True

/-- One operation. -/
theorem step_follows {op : StatusOp ι} (follows : store.Follows before)
    (admissible : op.Admissible before) (defined : op.Defined) :
    ∃ after, op.step store = some after ∧ after.Follows (op.originsAfter before) := by
  cases op with
  | default dst =>
      refine ⟨_, rfl, ?_⟩
      rw [originsAfter, Function.update_eq_self_iff.mpr (follows.null_iff.mpr admissible).symm,
        Function.update_eq_self_iff.mpr (Eq.symm admissible)]
      exact follows
  | make dst making =>
      refine ⟨_, ?_, follows.made admissible defined⟩
      rw [step, Making.run_eq defined, Option.bind_eq_bind, Option.bind_some, Option.pure_def]
  | copy dst src =>
      obtain ⟨distinct, nothing⟩ := admissible
      obtain ⟨state, heap, copied, after⟩ := follows.copied nothing src
      refine ⟨_, ?_, after⟩
      rw [step, copied, Option.bind_eq_bind, Option.bind_some, Option.pure_def]
  | move dst src => exact ⟨_, rfl, follows.moved admissible.2 admissible.1⟩
  | assign dst src =>
      have distinct : src ≠ dst := Ne.symm admissible
      obtain ⟨heap, deleted, free⟩ := follows.deleted dst
      obtain ⟨state, heap', copied, after⟩ := free.copied (Function.update_self ..) src
      simp only [Function.update_of_ne distinct] at copied
      simp only [Function.update_idem, Function.update_of_ne distinct] at after
      refine ⟨_, ?_, after⟩
      simp only [step, deleted, copied, Option.bind_eq_bind, Option.bind_some, Option.pure_def]
  | moveAssign dst src =>
      have distinct : src ≠ dst := Ne.symm admissible
      obtain ⟨heap, deleted, free⟩ := follows.deleted dst
      have after := free.moved (Function.update_self ..) admissible
      simp only [Function.update_idem, Function.update_of_ne distinct] at after
      refine ⟨_, ?_, after⟩
      simp only [step, deleted, Option.bind_eq_bind, Option.bind_some, Option.pure_def]
  | destroy dst =>
      obtain ⟨heap, deleted, after⟩ := follows.deleted dst
      refine ⟨_, ?_, after⟩
      rw [step, deleted, Option.bind_eq_bind, Option.bind_some, Option.pure_def]

/-- **Where every status is made by a call that is defined, no memory is used that is not
there**, and each object owns the block that its status was made with. -/
theorem run_follows {ops : List (StatusOp ι)} (follows : store.Follows before)
    (admissible : AllAdmissible before ops) (defined : ∀ op ∈ ops, op.Defined) :
    ∃ after, run store ops = some after ∧ after.Follows (origins before ops) := by
  induction ops generalizing store before with
  | nil => exact ⟨store, rfl, follows⟩
  | cons op rest ih =>
      obtain ⟨first, others⟩ := admissible
      obtain ⟨middle, stepped, next⟩ := step_follows follows first (defined op List.mem_cons_self)
      obtain ⟨after, ran, last⟩ :=
        ih next others fun op member => defined op (List.mem_cons_of_mem _ member)
      refine ⟨after, ?_, last⟩
      rw [run, stepped, Option.bind_some, ran]

/-- A call that is not defined ends the run. -/
theorem run_eq_none {ops : List (StatusOp ι)} {dst : ι} (called : make dst making ∈ ops)
    (undefined : ¬making.Defined) : run store ops = none := by
  induction ops generalizing store with
  | nil => cases called
  | cons op rest ih =>
      rw [run]
      rcases List.mem_cons.mp called with rfl | later
      · rw [step, Making.run_eq_none undefined, Option.bind_eq_bind, Option.bind_none,
          Option.bind_none]
      · cases op.step store with
        | none => rfl
        | some middle => exact ih later

theorem originsAfter_eq_some {op : StatusOp ι} (made : op.originsAfter before last = some making) :
    (∃ i, before i = some making) ∨ ∃ dst, op = make dst making := by
  cases op with
  | default dst | destroy dst =>
      rcases Heap.update_eq_some.mp made with ⟨-, impossible⟩ | ⟨-, earlier⟩
      · cases impossible
      · exact .inl ⟨last, earlier⟩
  | make dst other =>
      rcases Heap.update_eq_some.mp made with ⟨-, new⟩ | ⟨-, earlier⟩
      · cases new
        exact .inr ⟨dst, rfl⟩
      · exact .inl ⟨last, earlier⟩
  | copy dst src | assign dst src =>
      rcases Heap.update_eq_some.mp made with ⟨-, earlier⟩ | ⟨-, earlier⟩
      · exact .inl ⟨src, earlier⟩
      · exact .inl ⟨last, earlier⟩
  | move dst src | moveAssign dst src =>
      rcases Heap.update_eq_some.mp made with ⟨-, impossible⟩ | ⟨-, made⟩
      · cases impossible
      · rcases Heap.update_eq_some.mp made with ⟨-, earlier⟩ | ⟨-, earlier⟩
        · exact .inl ⟨src, earlier⟩
        · exact .inl ⟨last, earlier⟩

/-- A status was made by a call. -/
theorem called_of_origins {ops : List (StatusOp ι)} (made : origins before ops last = some making) :
    (∃ i, before i = some making) ∨ ∃ dst, make dst making ∈ ops := by
  induction ops generalizing before with
  | nil => exact .inl ⟨last, made⟩
  | cons op rest ih =>
      rcases ih made with ⟨i, earlier⟩ | ⟨dst, later⟩
      · rcases originsAfter_eq_some earlier with before | ⟨dst, rfl⟩
        · exact .inl before
        · exact .inr ⟨dst, List.mem_cons_self⟩
      · exact .inr ⟨dst, List.mem_cons_of_mem _ later⟩

/-- **Which statuses can be read**: in every run of operations, a status that was made by a call
and handed on by any copies, moves and assignments between distinct objects says its code and its
message, without a read outside of its block, exactly if it was made by `fromFormat` and the size
of its block is an `int`. The other calls that make a status in the run have to be defined. -/
theorem status_reports_iff (junk : ℕ → ℕ → UInt8) (ops : List (StatusOp ι))
    (admissible : AllAdmissible (fun _ => none) ops) (last : ι) (making : Making)
    (handed : origins (fun _ => none) ops last = some making) (nul : 0 ∉ making.msg)
    (others : ∀ dst other, make dst other ∈ ops → other ≠ making → other.Defined) :
    (∃ store, run (.empty junk) ops = some store ∧
      store.Reports last making.code making.msg) ↔
      making.maker = .fromFormat ∧ making.msg.length + 9 < 2 ^ 31 := by
  by_cases defined : making.Defined
  · have all : ∀ op ∈ ops, op.Defined := by
      intro op member
      cases op with
      | make dst other =>
          by_cases same : other = making
          · exact same ▸ defined
          · exact others dst other member same
      | _ => trivial
    obtain ⟨store, ran, follows⟩ := run_follows (.empty junk) admissible all
    rw [← follows.reports_iff handed nul]
    constructor
    · rintro ⟨after, again, reports⟩
      rw [ran] at again
      cases again
      exact reports
    · intro reports
      exact ⟨store, ran, reports⟩
  · constructor
    · rintro ⟨store, ran, -⟩
      rcases called_of_origins handed with ⟨-, impossible⟩ | ⟨dst, called⟩
      · cases impossible
      · rw [run_eq_none called defined] at ran
        cases ran
    · rintro ⟨made, small⟩
      exact absurd (Making.defined_of_fromFormat made small) defined

/-- Two statuses, of which the first one is copied and moved around. -/
def handedOn : List (StatusOp ℕ) :=
  [.make 0 ⟨.fromFormat, 2, [0x6e, 0x6f]⟩, .make 1 ⟨.status, 5, [0x78]⟩, .copy 2 0, .assign 1 2,
    .move 3 1, .moveAssign 0 3, .destroy 2]

theorem status_reports_iff_handedOn :
    ∃ store, run (.empty fun _ _ => 0xff) handedOn = some store ∧
      store.Reports 0 2 [0x6e, 0x6f] := by
  refine (status_reports_iff _ handedOn ?_ 0 ⟨.fromFormat, 2, [0x6e, 0x6f]⟩ (by decide +kernel)
    (by decide) ?_).mpr (by decide)
  · exact ⟨rfl, rfl, ⟨by decide, rfl⟩, show 1 ≠ 2 by decide, ⟨by decide, rfl⟩,
      show 0 ≠ 3 by decide, trivial, trivial⟩
  · intro dst other member different
    have calls : make dst other = .make 0 ⟨.fromFormat, 2, [0x6e, 0x6f]⟩ ∨
        make dst other = .make 1 ⟨.status, 5, [0x78]⟩ := by
      simpa [handedOn] using member
    rcases calls with same | same
    · cases same
      exact absurd rfl different
    · cases same
      show 8 ≤ 9
      decide

/-- **`Status(int, const char *)` does not store the end of its message**: its block is full with
the message, and a reader leaves it. -/
theorem status_without_end :
    ∃ store, run (.empty fun _ _ => 0) [make 0 ⟨.status, 2, [0x78]⟩, copy 1 0] = some store ∧
      store.code 0 = some 2 ∧ store.msg 0 = none ∧ store.msg 1 = none ∧
      ¬store.Reports 0 2 [0x78] := by
  refine ⟨_, rfl, by decide +kernel, by decide +kernel, by decide +kernel, ?_⟩
  rintro ⟨-, ended⟩
  revert ended
  decide +kernel

end StatusOp

end Handy
