import Handy.Buffer

/-!
# Codecs

A codec looks at the bytes received so far and answers with an `int`: the number
of bytes of a complete message and a view of its payload, zero when more bytes are
needed, or a negative number when the bytes are malformed. `LineCodec` ends
messages with a line feed, `LengthCodec` starts them with a magic word and a
32-bit length.

`Codec.Frames` says what a connection relies on: behind the encoding of a message
anything may follow and the message is found, and no strict prefix of an encoding
is taken for a message. Both codecs frame the messages they can carry
(`lineCodec_frames`, `lengthCodec_frames`).
-/

set_option autoImplicit false

namespace Handy

/-- The value of an integer stored in an `int`. -/
def toInt32 (value : ℤ) : ℤ := value.bmod (2 ^ 32)

theorem toInt32_eq {value : ℕ} (small : value < 2 ^ 31) : toInt32 value = value := by
  unfold toInt32
  rw [Int.bmod_eq_of_le (by omega) (by omega)]

/-- A view of received bytes: where it begins, and the difference of its two
pointers. -/
structure Slice where
  offset : ℕ
  length : ℤ
  deriving DecidableEq, Repr

namespace Slice

/-- The view a `Slice` variable has before `tryDecode` sets it. -/
def none : Slice := ⟨0, 0⟩

/-- The bytes of the view that lie in the data. -/
def of (view : Slice) (data : Bytes) : Bytes := (data.drop view.offset).take view.length.toNat

end Slice

/-- `CodecBase`. -/
structure Codec where
  tryDecode : Bytes → ℤ × Slice
  encode : Bytes → Bytes

/-! ## `LineCodec` -/

namespace LineCodec

/-- `LineCodec::tryDecode`. -/
def tryDecode (data : Bytes) : ℤ × Slice :=
  if data.length = 1 ∧ data.head? = some 0x04 then (1, ⟨0, 1⟩)
  else
    match data.findIdx? (· == 0x0a) with
    | some i =>
        if 0 < i ∧ data[i - 1]? = some 0x0d then (toInt32 (i + 1), ⟨0, i - 1⟩)
        else (toInt32 (i + 1), ⟨0, i⟩)
    | none => (0, .none)

/-- `LineCodec::encode`: what is appended to the buffer. -/
def encode (msg : Bytes) : Bytes := msg ++ [0x0d, 0x0a]

end LineCodec

def lineCodec : Codec := ⟨LineCodec.tryDecode, LineCodec.encode⟩

/-! ## `LengthCodec` -/

namespace LengthCodec

/-- The magic word `mBdT`. -/
def magic : Bytes := [0x6d, 0x42, 0x64, 0x54]

/-- The memory of a 32-bit integer after `net::hton`. -/
def hton (value : ℕ) : Bytes :=
  [UInt8.ofNat (value / 2 ^ 24), UInt8.ofNat (value / 2 ^ 16), UInt8.ofNat (value / 2 ^ 8),
    UInt8.ofNat value]

/-- `net::ntoh` of the first four bytes, as an `int`. -/
def ntoh : Bytes → ℤ
  | b3 :: b2 :: b1 :: b0 :: _ =>
      toInt32 (b3.toNat * 2 ^ 24 + b2.toNat * 2 ^ 16 + b1.toNat * 2 ^ 8 + b0.toNat : ℕ)
  | _ => 0

/-- `LengthCodec::tryDecode`. -/
def tryDecode (data : Bytes) : ℤ × Slice :=
  if data.length < 8 then (0, .none)
  else
    let len := ntoh (data.drop 4)
    if 1024 * 1024 < len ∨ data.take 4 ≠ magic then (-1, .none)
    else if len + 8 ≤ toInt32 data.length then (len + 8, ⟨8, len⟩)
    else (0, .none)

/-- `LengthCodec::encode`: what is appended to the buffer. -/
def encode (msg : Bytes) : Bytes := magic ++ hton msg.length ++ msg

end LengthCodec

def lengthCodec : Codec := ⟨LengthCodec.tryDecode, LengthCodec.encode⟩

/-! ## Framing -/

/-- A codec frames a message when it finds it at the front of any data that starts
with its encoding, and finds nothing in a strict prefix of the encoding. -/
structure Codec.Frames (codec : Codec) (msg : Bytes) : Prop where
  nonempty : codec.encode msg ≠ []
  complete : ∀ rest, (codec.encode msg ++ rest).length < 2 ^ 31 →
    ∃ view : Slice, codec.tryDecode (codec.encode msg ++ rest) =
        (((codec.encode msg).length : ℤ), view) ∧
      view.of (codec.encode msg ++ rest) = msg
  partial_ : ∀ front, front <+: codec.encode msg → front ≠ codec.encode msg →
    (codec.tryDecode front).1 = 0

namespace LineCodec

theorem findIdx?_clean {data : Bytes} (clean : (0x0a : UInt8) ∉ data) :
    data.findIdx? (· == 0x0a) = none := by
  rw [List.findIdx?_eq_none_iff]
  intro byte member
  rw [beq_eq_false_iff_ne]
  rintro rfl
  exact clean member

theorem findIdx?_encode {msg : Bytes} (line : (0x0a : UInt8) ∉ msg) (rest : Bytes) :
    (encode msg ++ rest).findIdx? (· == 0x0a) = some (msg.length + 1) := by
  have clean := findIdx?_clean line
  have terminator : List.findIdx? (· == 0x0a) (0x0d :: 0x0a :: rest) = some 1 := rfl
  simp only [encode, List.append_assoc, List.findIdx?_append, clean, List.cons_append,
    List.nil_append, terminator, Option.none_or, Option.map_some]
  rw [Nat.add_comm]

/-- A strict prefix of an encoded line has no line feed. -/
theorem findIdx?_partial {msg front : Bytes} (line : (0x0a : UInt8) ∉ msg)
    (isPrefix : front <+: encode msg) (strict : front ≠ encode msg) :
    front.findIdx? (· == 0x0a) = none := by
  have shorter : front <+: msg ++ [0x0d] := by
    have : encode msg = (msg ++ [0x0d]) ++ [0x0a] := by simp [encode]
    rw [this] at isPrefix strict
    rcases List.prefix_concat_iff.mp isPrefix with whole | inner
    · exact absurd whole strict
    · exact inner
  rw [List.findIdx?_eq_none_iff]
  intro byte member
  have : byte ∈ msg ++ [0x0d] := shorter.subset member
  rcases List.mem_append.mp this with inside | last
  · rw [beq_eq_false_iff_ne]
    rintro rfl
    exact line inside
  · cases List.mem_singleton.mp last
    decide

end LineCodec

/-- **`LineCodec` frames every line** that does not start with the byte it takes for
an end of transmission. -/
theorem lineCodec_frames {msg : Bytes} (line : (0x0a : UInt8) ∉ msg)
    (no_eot : msg.head? ≠ some 0x04) : lineCodec.Frames msg where
  nonempty := by simp [lineCodec, LineCodec.encode]
  complete rest small := by
    have size : (LineCodec.encode msg).length = msg.length + 2 := by simp [LineCodec.encode]
    have not_single : ¬ ((LineCodec.encode msg ++ rest).length = 1 ∧
        (LineCodec.encode msg ++ rest).head? = some 0x04) := by
      rw [List.length_append, size]
      omega
    have before : (LineCodec.encode msg ++ rest)[msg.length]? = some 0x0d := by
      simp [LineCodec.encode]
    have bound : msg.length + 2 < 2 ^ 31 := by
      have : (LineCodec.encode msg ++ rest).length < 2 ^ 31 := small
      rw [List.length_append, size] at this
      omega
    refine ⟨⟨0, msg.length⟩, ?_, ?_⟩
    · show LineCodec.tryDecode (LineCodec.encode msg ++ rest) = _
      have range : toInt32 ((msg.length + 2 : ℕ) : ℤ) = ((msg.length + 2 : ℕ) : ℤ) :=
        toInt32_eq bound
      have next : ((msg.length + 1 : ℕ) : ℤ) + 1 = ((msg.length + 2 : ℕ) : ℤ) := rfl
      rw [LineCodec.tryDecode, if_neg not_single, LineCodec.findIdx?_encode line]
      simp only [Nat.add_sub_cancel, before, and_true, Nat.succ_pos, if_true, next, range]
      simp [lineCodec, size]
    · show ((LineCodec.encode msg ++ rest).drop 0).take (msg.length : ℤ).toNat = msg
      simp [LineCodec.encode]
  partial_ front isPrefix strict := by
    show (LineCodec.tryDecode front).1 = 0
    have not_single : ¬ (front.length = 1 ∧ front.head? = some 0x04) := by
      rintro ⟨-, first⟩
      obtain ⟨rest, whole⟩ := isPrefix
      have head : (LineCodec.encode msg).head? = some 0x04 := by
        show (lineCodec.encode msg).head? = some 0x04
        rw [← whole, List.head?_append, first]
        rfl
      cases msg with
      | nil => simp [LineCodec.encode] at head
      | cons byte msg => exact no_eot (by simpa [LineCodec.encode] using head)
    rw [LineCodec.tryDecode, if_neg not_single, LineCodec.findIdx?_partial line isPrefix strict]

namespace LengthCodec

theorem ntoh_hton {value : ℕ} (small : value < 2 ^ 31) (rest : Bytes) :
    ntoh (hton value ++ rest) = value := by
  have recombined : (UInt8.ofNat (value / 2 ^ 24)).toNat * 2 ^ 24 +
      (UInt8.ofNat (value / 2 ^ 16)).toNat * 2 ^ 16 + (UInt8.ofNat (value / 2 ^ 8)).toNat * 2 ^ 8 +
        (UInt8.ofNat value).toNat = value := by
    simp only [UInt8.toNat_ofNat']
    omega
  simp only [hton, List.cons_append, ntoh]
  rw [recombined, toInt32_eq small]

theorem length_encode (msg : Bytes) : (encode msg).length = msg.length + 8 := by
  simp [encode, magic, hton]

theorem drop_encode (msg rest : Bytes) :
    (encode msg ++ rest).drop 4 = hton msg.length ++ (msg ++ rest) := by
  simp [encode, magic]

theorem take_encode (msg rest : Bytes) : (encode msg ++ rest).take 4 = magic := by
  simp [encode, magic]

/-- A prefix that reaches beyond the header has the header of the message. -/
theorem header_of_prefix {msg front : Bytes} (isPrefix : front <+: encode msg)
    (long : 8 ≤ front.length) (fits : msg.length ≤ 1048576) :
    front.take 4 = magic ∧ ntoh (front.drop 4) = msg.length := by
  obtain ⟨rest, whole⟩ := isPrefix
  have four := take_encode msg []
  have head := drop_encode msg []
  rw [List.append_nil, ← whole, List.take_append_of_le_length (by omega)] at four
  rw [List.append_nil, List.append_nil, ← whole, List.drop_append_of_le_length (by omega)] at head
  have length_word : (front.drop 4).take 4 = hton msg.length := by
    have same := congrArg (List.take 4) head
    rw [List.take_append_of_le_length (by rw [List.length_drop]; omega),
      List.take_left' (by rfl)] at same
    exact same
  refine ⟨four, ?_⟩
  rw [← List.take_append_drop 4 (front.drop 4), length_word]
  exact ntoh_hton (by omega) _

end LengthCodec

/-- **`LengthCodec` frames every message** of at most 1048576 bytes. -/
theorem lengthCodec_frames {msg : Bytes} (fits : msg.length ≤ 1048576) :
    lengthCodec.Frames msg where
  nonempty := by simp [lengthCodec, LengthCodec.encode, LengthCodec.magic]
  complete rest small := by
    have size := LengthCodec.length_encode msg
    have length_eq : (LengthCodec.encode msg ++ rest).length = msg.length + 8 + rest.length := by
      rw [List.length_append, size]
    have total : msg.length + 8 + rest.length < 2 ^ 31 := by
      rw [← length_eq]
      exact small
    have len : LengthCodec.ntoh ((LengthCodec.encode msg ++ rest).drop 4) = msg.length := by
      rw [LengthCodec.drop_encode, LengthCodec.ntoh_hton (by omega)]
    refine ⟨⟨8, msg.length⟩, ?_, ?_⟩
    · have long : ¬ (LengthCodec.encode msg ++ rest).length < 8 := by omega
      have good : ¬ (1024 * 1024 < (msg.length : ℤ) ∨ LengthCodec.magic ≠ LengthCodec.magic) := by
        rintro (above | other)
        · omega
        · exact other rfl
      have enough : (msg.length : ℤ) + 8 ≤ toInt32 (LengthCodec.encode msg ++ rest).length := by
        rw [length_eq, toInt32_eq total]
        push_cast
        omega
      simp only [lengthCodec, LengthCodec.tryDecode, if_neg long, len, LengthCodec.take_encode,
        if_neg good, if_pos enough, size]
      rfl
    · show ((LengthCodec.encode msg ++ rest).drop 8).take (msg.length : ℤ).toNat = msg
      simp [LengthCodec.encode, LengthCodec.magic, LengthCodec.hton]
  partial_ front isPrefix strict := by
    show (LengthCodec.tryDecode front).1 = 0
    obtain ⟨rest, whole⟩ := id isPrefix
    have size : (lengthCodec.encode msg).length = msg.length + 8 := LengthCodec.length_encode msg
    have shorter : front.length < msg.length + 8 := by
      rw [← whole, List.length_append] at size
      have : rest.length ≠ 0 := by
        intro none_left
        rw [List.length_eq_zero_iff.mp none_left, List.append_nil] at whole
        exact strict whole
      omega
    unfold LengthCodec.tryDecode
    simp only
    split_ifs with short bad complete
    · rfl
    · obtain ⟨four, len⟩ := LengthCodec.header_of_prefix isPrefix (by omega) fits
      rcases bad with long | other
      · rw [len] at long
        omega
      · exact absurd four other
    · obtain ⟨-, len⟩ := LengthCodec.header_of_prefix isPrefix (by omega) fits
      rw [len, toInt32_eq (by omega)] at complete
      omega
    · rfl

end Handy
