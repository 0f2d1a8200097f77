import Handy.Codec

/-!
# The frames of `LengthCodec`

A frame is the magic word, a length in four bytes, the highest first, and a message of that
length. `LengthCodec::tryDecode` refuses lengths above its limit. It has no such test for
negative lengths, and below `-8` the number that it returns happens to be negative too. So
it accepts the grammar of frames exactly on the data whose length is not one of the eight
numbers in between (`LengthCodec.grammar_iff`).
-/

set_option autoImplicit false

namespace Handy

namespace LengthCodec

/-- The length that a frame announces. -/
def announced (data : Bytes) : ℤ := ntoh (data.drop 4)

/-- The data start with the magic word, a length within the limit, and a message of that
length. -/
def StartsWithFrame (data : Bytes) : Prop :=
  data.take 4 = magic ∧ 0 ≤ announced data ∧ announced data ≤ 1048576 ∧
    announced data + 8 ≤ data.length

/-- The header has arrived, and it is none of a frame. -/
def BadHeader (data : Bytes) : Prop :=
  8 ≤ data.length ∧ (data.take 4 ≠ magic ∨ ¬ (0 ≤ announced data ∧ announced data ≤ 1048576))

/-- The codec accepts the grammar of frames on these data. -/
structure AcceptsGrammar (data : Bytes) : Prop where
  positive : 0 < (tryDecode data).1 ↔ StartsWithFrame data
  frame : 0 < (tryDecode data).1 →
    (tryDecode data).1 = announced data + 8 ∧
      (tryDecode data).2.of data = (data.take (tryDecode data).1.toNat).drop 8 ∧
      encode ((tryDecode data).2.of data) = data.take (tryDecode data).1.toNat
  negative : (tryDecode data).1 < 0 ↔ BadHeader data

/-- Data that hold a header. -/
theorem exists_header {data : Bytes} (long : 8 ≤ data.length) :
    ∃ b3 b2 b1 b0 : UInt8, ∃ rest, data.drop 4 = b3 :: b2 :: b1 :: b0 :: rest := by
  have size : 4 ≤ (data.drop 4).length := by
    rw [List.length_drop]
    omega
  match data.drop 4, size with
  | b3 :: b2 :: b1 :: b0 :: rest, _ => exact ⟨b3, b2, b1, b0, rest, rfl⟩

/-- A length that is not negative is written as it was read. -/
theorem hton_ntoh {b3 b2 b1 b0 : UInt8} {rest : Bytes}
    (nonneg : 0 ≤ ntoh (b3 :: b2 :: b1 :: b0 :: rest)) :
    hton (ntoh (b3 :: b2 :: b1 :: b0 :: rest)).toNat = [b3, b2, b1, b0] := by
  have bounds := And.intro (And.intro b3.toNat_lt b2.toNat_lt) (And.intro b1.toNat_lt b0.toNat_lt)
  have value : ntoh (b3 :: b2 :: b1 :: b0 :: rest) =
      ((b3.toNat * 2 ^ 24 + b2.toNat * 2 ^ 16 + b1.toNat * 2 ^ 8 + b0.toNat : ℕ) : ℤ) := by
    have small : b3.toNat * 2 ^ 24 + b2.toNat * 2 ^ 16 + b1.toNat * 2 ^ 8 + b0.toNat < 2 ^ 31 := by
      by_contra large
      simp only [ntoh, toInt32, Int.bmod_def] at nonneg
      split_ifs at nonneg <;> omega
    exact toInt32_eq small
  rw [value, Int.toNat_natCast]
  simp only [hton, List.cons.injEq, and_true, ← UInt8.toNat_inj, UInt8.toNat_ofNat']
  omega

/-- The message of a frame, put back behind its header. -/
theorem encode_message {data : Bytes} (long : 8 ≤ data.length) (four : data.take 4 = magic)
    (nonneg : 0 ≤ announced data) (inside : announced data + 8 ≤ data.length) :
    encode ((data.drop 8).take (announced data).toNat) =
      data.take (announced data + 8).toNat := by
  obtain ⟨b3, b2, b1, b0, rest, shape⟩ := exists_header long
  have behind : data.drop 8 = rest := by
    rw [show 8 = 4 + 4 from rfl, ← List.drop_drop, shape]
    rfl
  have whole : data = magic ++ ([b3, b2, b1, b0] ++ rest) := by
    rw [← List.take_append_drop 4 data, four, shape]
    rfl
  have size : ((data.drop 8).take (announced data).toNat).length = (announced data).toNat := by
    rw [List.length_take, List.length_drop]
    omega
  have word : hton (announced data).toNat = [b3, b2, b1, b0] := by
    unfold announced at nonneg ⊢
    rw [shape] at nonneg ⊢
    exact hton_ntoh nonneg
  have front : (announced data + 8).toNat = (magic ++ [b3, b2, b1, b0]).length +
      (announced data).toNat := by
    simp only [magic, List.length_append, List.length_cons, List.length_nil]
    omega
  rw [encode, size, word, front, behind]
  generalize (announced data).toNat = count
  rw [whole, ← List.append_assoc, List.take_length_add_append]

/-- What `tryDecode` answers behind a good header. -/
theorem tryDecode_header {data : Bytes} (small : data.length < 2 ^ 31) (long : 8 ≤ data.length)
    (four : data.take 4 = magic) (within : announced data ≤ 1048576) :
    tryDecode data = if announced data + 8 ≤ data.length then
      (announced data + 8, ⟨8, announced data⟩) else (0, .none) := by
  have good : ¬ (1024 * 1024 < announced data ∨ data.take 4 ≠ magic) := by
    rintro (above | other)
    · omega
    · exact other four
  simp only [tryDecode, if_neg (not_lt.mpr long), toInt32_eq small]
  rw [← announced, if_neg good]

/-- What `tryDecode` answers behind another header. -/
theorem tryDecode_refused {data : Bytes} (long : 8 ≤ data.length)
    (bad : data.take 4 ≠ magic ∨ 1048576 < announced data) : tryDecode data = (-1, .none) := by
  have refused : 1024 * 1024 < announced data ∨ data.take 4 ≠ magic := by
    rcases bad with other | above
    · exact .inr other
    · exact .inl (by omega)
  simp only [tryDecode, if_neg (not_lt.mpr long)]
  rw [← announced, if_pos refused]

/-! ## The ways a call can go -/

/-- The header has not arrived. -/
theorem accepts_short {data : Bytes} (short : data.length < 8) : AcceptsGrammar data := by
  have waits : tryDecode data = (0, .none) := by rw [tryDecode, if_pos short]
  have unframed : ¬ StartsWithFrame data := by
    rintro ⟨-, nonneg, -, inside⟩
    omega
  have unheaded : ¬ BadHeader data := fun bad => not_lt.mpr bad.1 short
  refine ⟨?_, ?_, ?_⟩
  · simp [waits, unframed]
  · simp [waits]
  · simp [waits, unheaded]

/-- The header is refused. -/
theorem accepts_refused {data : Bytes} (long : 8 ≤ data.length)
    (bad : data.take 4 ≠ magic ∨ 1048576 < announced data) : AcceptsGrammar data := by
  have refused := tryDecode_refused long bad
  have unframed : ¬ StartsWithFrame data := by
    rintro ⟨four, -, within, -⟩
    rcases bad with other | above
    · exact other four
    · omega
  have headed : BadHeader data := by
    refine ⟨long, bad.imp id fun above within => ?_⟩
    omega
  refine ⟨?_, ?_, ?_⟩
  · simp [refused, unframed]
  · simp [refused]
  · simp [refused, headed]

section GoodHeader

variable {data : Bytes} (small : data.length < 2 ^ 31) (long : 8 ≤ data.length)
  (four : data.take 4 = magic) (within : announced data ≤ 1048576)

include four within in
theorem startsWithFrame_iff : StartsWithFrame data ↔
    0 ≤ announced data ∧ announced data + 8 ≤ data.length := by
  simp [StartsWithFrame, four, within]

include long four within in
theorem badHeader_iff : BadHeader data ↔ announced data < 0 := by
  simp [BadHeader, long, four, within]

include small long four within

/-- The message has not arrived. -/
theorem accepts_waiting (waiting : data.length < announced data + 8) : AcceptsGrammar data := by
  have answer := tryDecode_header small long four within
  rw [if_neg (not_le.mpr waiting)] at answer
  refine ⟨?_, ?_, ?_⟩
  · rw [answer, startsWithFrame_iff four within]
    exact iff_of_false (lt_irrefl 0) fun both => not_le.mpr waiting both.2
  · rw [answer]
    exact fun positive => absurd positive (lt_irrefl 0)
  · rw [answer, badHeader_iff long four within]
    exact iff_of_false (lt_irrefl 0) (by omega)

/-- A whole frame. -/
theorem accepts_frame (nonneg : 0 ≤ announced data) (inside : announced data + 8 ≤ data.length) :
    AcceptsGrammar data := by
  have answer := tryDecode_header small long four within
  rw [if_pos inside] at answer
  have view : (Slice.mk 8 (announced data)).of data =
      (data.take (announced data + 8).toNat).drop 8 := by
    have rest : (announced data + 8).toNat - 8 = (announced data).toNat := by omega
    rw [Slice.of, List.drop_take, rest]
  refine ⟨?_, fun _ => ?_, ?_⟩
  · rw [answer, startsWithFrame_iff four within]
    exact iff_of_true (by show 0 < announced data + 8; omega) ⟨nonneg, inside⟩
  · rw [answer]
    exact ⟨rfl, view, encode_message long four nonneg inside⟩
  · rw [answer, badHeader_iff long four within]
    exact iff_of_false (by show ¬ announced data + 8 < 0; omega) (not_lt.mpr nonneg)

/-- A negative length: what is returned is negative too, below `-8`. -/
theorem accepts_negative_iff (negative : announced data < 0) :
    AcceptsGrammar data ↔ announced data < -8 := by
  have answer := tryDecode_header small long four within
  rw [if_pos (by omega)] at answer
  constructor
  · intro accepts
    have returned := accepts.negative.mpr ((badHeader_iff long four within).mpr negative)
    rw [answer] at returned
    have below : announced data + 8 < 0 := returned
    omega
  · intro below
    refine ⟨?_, ?_, ?_⟩
    · rw [answer, startsWithFrame_iff four within]
      exact iff_of_false (by show ¬ 0 < announced data + 8; omega) (by omega)
    · intro positive
      rw [answer] at positive
      exact absurd positive (by show ¬ 0 < announced data + 8; omega)
    · rw [answer, badHeader_iff long four within]
      exact iff_of_true (by show announced data + 8 < 0; omega) negative

end GoodHeader

/-- **`LengthCodec` accepts the grammar of frames exactly when the length that is announced
is not one of `-8` to `-1`.** -/
theorem grammar_iff (data : Bytes) (small : data.length < 2 ^ 31) :
    AcceptsGrammar data ↔
      ¬ (8 ≤ data.length ∧ data.take 4 = magic ∧ -8 ≤ announced data ∧ announced data < 0) := by
  rcases lt_or_ge data.length 8 with short | long
  · exact iff_of_true (accepts_short short) fun between => not_lt.mpr between.1 short
  · by_cases bad : data.take 4 ≠ magic ∨ 1048576 < announced data
    · refine iff_of_true (accepts_refused long bad) ?_
      rintro ⟨-, four, -, negative⟩
      rcases bad with other | above
      · exact other four
      · omega
    · obtain ⟨good, within⟩ := not_or.mp bad
      have four := not_ne_iff.mp good
      rw [not_lt] at within
      rcases lt_or_ge (announced data) 0 with negative | nonneg
      · rw [accepts_negative_iff small long four within negative]
        simp only [long, four, negative, true_and, and_true]
        omega
      · refine iff_of_true ?_ fun between => not_lt.mpr nonneg between.2.2.2
        rcases lt_or_ge (data.length : ℤ) (announced data + 8) with waiting | inside
        · exact accepts_waiting small long four within waiting
        · exact accepts_frame small long four within nonneg inside

/-- The frame of an empty message. -/
def emptyFrame : Bytes := magic ++ [0, 0, 0, 0]

theorem grammar_iff_emptyFrame : AcceptsGrammar emptyFrame :=
  (grammar_iff emptyFrame (by decide)).mpr (by decide)

/-- A header that announces a length of `-4`. -/
def negativeHeader : Bytes := magic ++ [0xff, 0xff, 0xff, 0xfc]

/-- It is accepted as a message that ends before it begins. -/
theorem negative_length_is_accepted :
    tryDecode negativeHeader = (4, ⟨8, -4⟩) ∧ ¬ StartsWithFrame negativeHeader ∧
      ¬ AcceptsGrammar negativeHeader := by
  have answer : tryDecode negativeHeader = (4, ⟨8, -4⟩) := by decide
  have unframed : ¬ StartsWithFrame negativeHeader := by
    rintro ⟨-, nonneg, -, -⟩
    exact absurd nonneg (by decide)
  refine ⟨answer, unframed, fun accepts => unframed (accepts.positive.mp ?_)⟩
  rw [answer]
  decide

end LengthCodec

end Handy
