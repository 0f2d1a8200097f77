import Handy.Buffer.Sequence
import Handy.Codec

/-!
# `ProtoMsgCodec`

A frame consists of its total length, the length of the type name, the name and the
serialized message; the two lengths are stored as the machine stores a `uint32_t`, least
byte first. The encoder reserves the place of the total length and fills it in at the end,
when the buffer may have moved.

The protobuf library is a parameter: the name and the serialized form of a message, which
names its pool knows, and what `ParseFromArray` makes of an address and a size.

Frames that follow each other are decoded in order, whatever stands before and behind them
(`protobuf_frames_decoded`).
-/

set_option autoImplicit false

namespace Handy

/-! ## Integers in memory -/

/-- A `uint32_t` as it is stored. -/
def storeU32 (value : ℕ) : Bytes :=
  [UInt8.ofNat value, UInt8.ofNat (value / 2 ^ 8), UInt8.ofNat (value / 2 ^ 16),
    UInt8.ofNat (value / 2 ^ 24)]

/-- The `uint32_t` at an address. -/
def loadU32 : Bytes → ℕ
  | a :: b :: c :: d :: _ => a.toNat + b.toNat * 2 ^ 8 + c.toNat * 2 ^ 16 + d.toNat * 2 ^ 24
  | _ => 0

theorem loadU32_storeU32 {value : ℕ} (small : value < 2 ^ 32) (rest : Bytes) :
    loadU32 (storeU32 value ++ rest) = value := by
  simp only [storeU32, List.cons_append, List.nil_append, loadU32, UInt8.toNat_ofNat']
  omega

namespace Buffer

/-- The storage from `begin()` on. -/
def memory (buffer : Buffer) : Bytes := buffer.buf.drop buffer.b

theorem memory_eq (buffer : Buffer) :
    buffer.memory = buffer.contents ++ buffer.buf.drop buffer.e := by
  have split := congrArg (List.drop buffer.b) (List.take_append_drop buffer.e buffer.buf)
  have inside : buffer.b ≤ (buffer.buf.take buffer.e).length := by
    rw [List.length_take]
    exact le_min buffer.begin_le (buffer.begin_le.trans buffer.end_le)
  rw [List.drop_append_of_le_length inside] at split
  exact split.symm

/-- Bytes are written at an offset from `begin()`, if they fit. -/
def poke (buffer : Buffer) (offset : ℕ) (bytes : Bytes) : Buffer :=
  if inside : buffer.b + offset + bytes.length ≤ buffer.cap then
    buffer.write (buffer.b + offset) bytes inside
  else buffer

theorem contents_poke {buffer : Buffer} {offset : ℕ} {bytes : Bytes}
    (inside : offset + bytes.length ≤ buffer.size) :
    (buffer.poke offset bytes).contents =
      buffer.contents.take offset ++ bytes ++ buffer.contents.drop (offset + bytes.length) := by
  have begins := buffer.begin_le
  have ends := buffer.end_le
  unfold size at inside
  have fits : buffer.b + offset + bytes.length ≤ buffer.cap := by
    unfold cap
    omega
  rw [poke, dif_pos fits]
  have front : (buffer.buf.take (buffer.b + offset) ++ bytes).length =
      buffer.b + offset + bytes.length := by
    rw [List.length_append, List.length_take]
    omega
  have stored : (buffer.buf.take (buffer.b + offset) ++ bytes ++
      buffer.buf.drop (buffer.b + offset + bytes.length)).take buffer.e =
      buffer.buf.take (buffer.b + offset) ++ bytes ++
        (buffer.buf.take buffer.e).drop (buffer.b + offset + bytes.length) := by
    rw [List.take_append, front, List.take_of_length_le (by omega), List.drop_take]
  have before : (buffer.buf.take (buffer.b + offset)).drop buffer.b = buffer.contents.take offset := by
    rw [contents, List.take_drop, List.take_take, Nat.min_eq_left (by omega)]
  have after : (buffer.buf.take buffer.e).drop (buffer.b + offset + bytes.length) =
      buffer.contents.drop (offset + bytes.length) := by
    rw [contents, List.drop_drop, Nat.add_assoc]
  show ((buffer.buf.take (buffer.b + offset) ++ bytes ++
    buffer.buf.drop (buffer.b + offset + bytes.length)).take buffer.e).drop buffer.b = _
  rw [stored, after, List.append_assoc, List.drop_append_of_le_length (by
    rw [List.length_take]; omega), before, List.append_assoc]

end Buffer

/-! ## The codec -/

/-- What the protobuf library says of messages. -/
structure Protobuf (Message : Type) where
  /-- `GetDescriptor()->full_name()`. -/
  fullName : Message → Bytes
  /-- The `ByteSize()` bytes that `SerializeToArray` writes. -/
  serialize : Message → Bytes
  /-- Whether the generated pool makes a message for a name. -/
  found : Bytes → Bool
  /-- `ParseFromArray` on a new message with a name, from an address on, of a size. -/
  parse : Bytes → Bytes → ℤ → Option Message

/-- The library finds the name of a message, and reads back what it writes. -/
structure Protobuf.Serves {Message : Type} (pb : Protobuf Message) (msg : Message) : Prop where
  found : pb.found (pb.fullName msg) = true
  parse : ∀ rest, pb.parse (pb.fullName msg) (pb.serialize msg ++ rest) (pb.serialize msg).length =
    some msg

namespace ProtoMsgCodec

variable {Message : Type} (pb : Protobuf Message)

/-- `ProtoMsgCodec::msgComplete`. -/
def msgComplete (buf : Buffer) : Bool := 4 ≤ buf.size && loadU32 buf.memory ≤ buf.size

/-- `ProtoMsgCodec::encode`. -/
def encode (msg : Message) (buf : Buffer) : Buffer :=
  let offset := buf.size
  let buf := buf.append (storeU32 0)
  let typeName := pb.fullName msg
  let buf := buf.append (storeU32 typeName.length)
  let buf := buf.append typeName
  let buf := buf.allocRoom (pb.serialize msg)
  buf.poke offset (storeU32 (buf.size - offset))

/-- `ProtoMsgCodec::decode`: the message, if there is one, and the buffer. -/
def decode (s : Buffer) : Option Message × Buffer :=
  if s.size < 8 then (none, s)
  else
    let p := s.memory
    let msglen := loadU32 p
    let namelen := loadU32 (p.drop 4)
    if s.size < msglen ∨ s.size < (4 + namelen) % 2 ^ 32 then (none, s)
    else
      let typeName := (p.drop 8).take namelen
      if pb.found typeName = false then (none, s)
      else
        match pb.parse typeName (p.drop (8 + namelen)) (toInt32 (msglen - 8 - namelen)) with
        | none => (none, s)
        | some msg =>
            match s.consume msglen with
            | none => (none, s)
            | some rest => (some msg, rest)

/-- The frame of a message. -/
def frame (msg : Message) : Bytes :=
  storeU32 (8 + (pb.fullName msg).length + (pb.serialize msg).length) ++
    storeU32 (pb.fullName msg).length ++ pb.fullName msg ++ pb.serialize msg

theorem length_frame (msg : Message) :
    (frame pb msg).length = 8 + (pb.fullName msg).length + (pb.serialize msg).length := by
  simp [frame, storeU32]
  omega

theorem length_storeU32 (value : ℕ) : (storeU32 value).length = 4 := rfl

/-- **`encode` appends the frame.** -/
theorem contents_encode (msg : Message) (buf : Buffer) :
    (encode pb msg buf).contents = buf.contents ++ frame pb msg := by
  have filled : ((((buf.append (storeU32 0)).append (storeU32 (pb.fullName msg).length)).append
      (pb.fullName msg)).allocRoom (pb.serialize msg)).contents = buf.contents ++ (storeU32 0 ++
        (storeU32 (pb.fullName msg).length ++ pb.fullName msg ++ pb.serialize msg)) := by
    simp only [Buffer.allocRoom_eq, Buffer.contents_append, List.append_assoc]
  have size := congrArg List.length filled
  simp only [Buffer.length_contents, List.length_append, length_storeU32] at size
  rw [encode, Buffer.contents_poke (by rw [length_storeU32]; omega), filled, size, length_storeU32]
  have total : buf.size + (4 + (4 + (pb.fullName msg).length + (pb.serialize msg).length)) - buf.size =
      8 + (pb.fullName msg).length + (pb.serialize msg).length := by omega
  have skip : (storeU32 0 ++ (storeU32 (pb.fullName msg).length ++ pb.fullName msg ++
      pb.serialize msg)).drop 4 =
      storeU32 (pb.fullName msg).length ++ pb.fullName msg ++ pb.serialize msg := rfl
  rw [total, List.take_left' (Buffer.length_contents buf), List.drop_append,
    List.drop_of_length_le (by rw [Buffer.length_contents]; omega), List.nil_append,
    Buffer.length_contents, Nat.add_sub_cancel_left, skip, frame]
  simp only [List.append_assoc]

/-! ## Reading frames -/

/-- The lengths at the start of a frame. -/
theorem loads_frame {msg : Message} (small : (frame pb msg).length < 2 ^ 31) (rest : Bytes) :
    loadU32 (frame pb msg ++ rest) = (frame pb msg).length ∧
      loadU32 ((frame pb msg ++ rest).drop 4) = (pb.fullName msg).length := by
  have total := length_frame pb msg
  constructor
  · rw [frame, List.append_assoc, List.append_assoc, List.append_assoc,
      loadU32_storeU32 (by omega), ← frame, total]
  · have skip : (frame pb msg ++ rest).drop 4 =
        storeU32 (pb.fullName msg).length ++ (pb.fullName msg ++ (pb.serialize msg ++ rest)) := by
      simp [frame, storeU32]
    rw [skip, loadU32_storeU32 (by omega)]

/-- The name and the data of a frame. -/
theorem parts_frame (msg : Message) (rest : Bytes) :
    ((frame pb msg ++ rest).drop 8).take (pb.fullName msg).length = pb.fullName msg ∧
      (frame pb msg ++ rest).drop (8 + (pb.fullName msg).length) = pb.serialize msg ++ rest := by
  have skip : (frame pb msg ++ rest).drop 8 = pb.fullName msg ++ (pb.serialize msg ++ rest) := by
    simp [frame, storeU32]
  refine ⟨by rw [skip, List.take_left' rfl], ?_⟩
  rw [← List.drop_drop, skip, List.drop_left' rfl]

/-- **A buffer that begins with a frame** is complete and decoded to its message. -/
theorem decode_frame {msg : Message} (serves : pb.Serves msg)
    (small : (frame pb msg).length < 2 ^ 31) {s : Buffer} {rest : Bytes}
    (contents : s.contents = frame pb msg ++ rest) :
    msgComplete s = true ∧
      ∃ after, decode pb s = (some msg, after) ∧ after.contents = rest := by
  have total := length_frame pb msg
  have size : s.size = (frame pb msg).length + rest.length := by
    rw [← Buffer.length_contents, contents, List.length_append]
  have memory : s.memory = frame pb msg ++ (rest ++ s.buf.drop s.e) := by
    rw [Buffer.memory_eq, contents, List.append_assoc]
  obtain ⟨msglen, namelen⟩ := loads_frame pb small (rest ++ s.buf.drop s.e)
  obtain ⟨typeName, data⟩ := parts_frame pb msg (rest ++ s.buf.drop s.e)
  constructor
  · simp only [msgComplete, memory, msglen, Bool.and_eq_true, decide_eq_true_eq]
    omega
  · have wraps : (4 + (pb.fullName msg).length) % 2 ^ 32 = 4 + (pb.fullName msg).length :=
      Nat.mod_eq_of_lt (by omega)
    have sizes : ¬ (s.size < (frame pb msg).length ∨ s.size < 4 + (pb.fullName msg).length) := by
      omega
    have remaining : toInt32 (((frame pb msg).length : ℤ) - 8 - (pb.fullName msg).length) =
        (pb.serialize msg).length := by
      rw [show ((frame pb msg).length : ℤ) - 8 - (pb.fullName msg).length =
        (pb.serialize msg).length by rw [total]; push_cast; ring]
      exact toInt32_eq (by omega)
    have fits : (frame pb msg).length ≤ s.size := by omega
    obtain ⟨after, consumed, left⟩ := Buffer.consume_spec fits
    refine ⟨after, ?_, ?_⟩
    · have long : ¬ s.size < 8 := by omega
      simp only [decode, if_neg long, memory, msglen, namelen, wraps, if_neg sizes, typeName,
        serves.found, Bool.true_eq_false, if_false, data, remaining, serves.parse, consumed]
    · rw [left, contents, List.drop_left' rfl]

/-- **A strict prefix of a frame is not complete.** -/
theorem msgComplete_prefix {msg : Message} (small : (frame pb msg).length < 2 ^ 31) {s : Buffer}
    (front : s.contents <+: frame pb msg) (strict : s.contents ≠ frame pb msg) :
    msgComplete s = false := by
  obtain ⟨rest, whole⟩ := front
  have shorter : s.size < (frame pb msg).length := by
    rw [← whole, List.length_append, Buffer.length_contents]
    have : rest ≠ [] := by
      rintro rfl
      exact strict (by rw [← whole, List.append_nil])
    have := List.length_pos_iff.mpr this
    omega
  by_cases long : 4 ≤ s.size
  · -- The four bytes of the length are there, and name the whole frame.
    have four : s.memory.take 4 = (frame pb msg).take 4 := by
      have enough : 4 ≤ s.contents.length := by rwa [Buffer.length_contents]
      rw [Buffer.memory_eq, List.take_append_of_le_length enough, ← whole,
        List.take_append_of_le_length enough]
    have msglen : loadU32 s.memory = (frame pb msg).length := by
      have first : (frame pb msg).take 4 =
          storeU32 (8 + (pb.fullName msg).length + (pb.serialize msg).length) := by
        rw [frame, List.append_assoc, List.append_assoc, List.take_left' (length_storeU32 _)]
      have total := length_frame pb msg
      rw [← List.take_append_drop 4 s.memory, four, first, loadU32_storeU32 (by omega), total]
    simp only [msgComplete, msglen, Bool.and_eq_false_iff, decide_eq_false_iff_not]
    omega
  · simp [msgComplete, long]

/-! ## Lists of messages -/

/-- Messages encoded one after the other. -/
def encodeAll (msgs : List Message) (buf : Buffer) : Buffer :=
  msgs.foldl (fun buf msg => encode pb msg buf) buf

/-- Successive calls of `decode`, each on a buffer that is complete, return the messages. -/
inductive Decodes : Buffer → List Message → Buffer → Prop where
  | done (s : Buffer) : Decodes s [] s
  | next {s middle after : Buffer} {msg : Message} {msgs : List Message}
      (complete : msgComplete s = true) (decoded : decode pb s = (some msg, middle))
      (rest : Decodes middle msgs after) : Decodes s (msg :: msgs) after

theorem contents_encodeAll (msgs : List Message) (buf : Buffer) :
    (encodeAll pb msgs buf).contents = buf.contents ++ msgs.flatMap (frame pb) := by
  induction msgs generalizing buf with
  | nil => simp [encodeAll]
  | cons msg rest ih =>
      have after := ih (encode pb msg buf)
      rw [contents_encode] at after
      rw [List.flatMap_cons, ← List.append_assoc]
      exact after

/-- Frames that follow each other. -/
theorem decodes_frames {msgs : List Message} (serves : ∀ msg ∈ msgs, pb.Serves msg)
    (small : ∀ msg ∈ msgs, (frame pb msg).length < 2 ^ 31) {s : Buffer} {trailing : Bytes}
    (contents : s.contents = msgs.flatMap (frame pb) ++ trailing) :
    ∃ after, Decodes pb s msgs after ∧ after.contents = trailing := by
  induction msgs generalizing s with
  | nil => exact ⟨s, .done s, contents⟩
  | cons msg rest ih =>
      rw [List.flatMap_cons, List.append_assoc] at contents
      obtain ⟨complete, middle, decoded, left⟩ := decode_frame pb (serves msg List.mem_cons_self)
        (small msg List.mem_cons_self) contents
      obtain ⟨after, decodes, trails⟩ := ih
        (fun other member => serves other (List.mem_cons_of_mem _ member))
        (fun other member => small other (List.mem_cons_of_mem _ member)) left
      exact ⟨after, .next complete decoded decodes, trails⟩

/-- A message encoded into a new buffer. -/
theorem contents_encode_new (msg : Message) : (encode pb msg .new).contents = frame pb msg :=
  contents_encode pb msg .new

/-- **Encoded messages are decoded in order**: messages encoded one after the other into a
buffer, with trailing bytes behind them, are returned by successive calls of `decode` once
what the buffer held before is consumed; the buffer is complete before each call, and the
trailing bytes are left. A strict prefix of the frame of a message is not complete. -/
theorem protobuf_frames_decoded (msgs : List Message) (buf : Buffer) (trailing : Bytes)
    (serves : ∀ msg ∈ msgs, pb.Serves msg)
    (small : ∀ msg ∈ msgs, (encode pb msg .new).contents.length < 2 ^ 31) :
    (∃ s after, ((encodeAll pb msgs buf).append trailing).consume buf.size = some s ∧
      Decodes pb s msgs after ∧ after.contents = trailing) ∧
    ∀ msg, (encode pb msg .new).contents.length < 2 ^ 31 → ∀ s : Buffer,
      s.contents <+: (encode pb msg .new).contents → s.contents ≠ (encode pb msg .new).contents →
      msgComplete s = false := by
  simp only [contents_encode_new] at small ⊢
  constructor
  · have contents : ((encodeAll pb msgs buf).append trailing).contents =
        buf.contents ++ (msgs.flatMap (frame pb) ++ trailing) := by
      rw [Buffer.contents_append, contents_encodeAll, List.append_assoc]
    have fits : buf.size ≤ ((encodeAll pb msgs buf).append trailing).size := by
      rw [← Buffer.length_contents, ← Buffer.length_contents, contents, List.length_append]
      omega
    obtain ⟨s, consumed, left⟩ := Buffer.consume_spec fits
    rw [contents, List.drop_left' (Buffer.length_contents buf)] at left
    obtain ⟨after, decodes, trails⟩ := decodes_frames pb serves small left
    exact ⟨s, after, consumed, decodes, trails⟩
  · intro msg little s front strict
    exact msgComplete_prefix pb little front strict

/-- A library whose messages are single bytes, all of the type `Q`. -/
def byteMessages : Protobuf UInt8 where
  fullName _ := [0x51]
  serialize msg := [msg]
  found name := name == [0x51]
  parse _ memory size := if size = 1 then memory.head? else none

theorem protobuf_frames_decoded_bytes : ∃ s after,
    ((encodeAll byteMessages [7, 8] (Buffer.new.append [1, 2])).append [9]).consume 2 = some s ∧
      Decodes byteMessages s [7, 8] after ∧ after.contents = [9] :=
  (protobuf_frames_decoded byteMessages [7, 8] (Buffer.new.append [1, 2]) [9]
    (fun _ _ => ⟨rfl, fun _ => rfl⟩) (by decide +kernel)).1

end ProtoMsgCodec

end Handy
