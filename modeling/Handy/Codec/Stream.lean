import Handy.Codec

/-!
# Decoding a stream

The decode loop of a connection calls `tryDecode` on what has arrived and drops the
bytes of the message it finds. `Codec.Decodes stream msgs rest` says that a stream was
cut up that way: each message was found at the front of what was left of the stream at
some moment, its bytes were dropped once, and `rest` is what remains. Later bytes do not
undo this (`Decodes.append`), and one more message is found behind the others
(`Decodes.snoc`).

When the stream consists of encodings of messages that the codec frames, there is only
one way to cut it (`Decodes.of_frames`).
-/

set_option autoImplicit false

namespace Handy

namespace Codec

variable {codec : Codec}

/-- A codec claims no byte that it was not shown, and needs bytes to decide. -/
structure Sound (codec : Codec) : Prop where
  bounded : ∀ data, (codec.tryDecode data).1 ≤ data.length
  nothing : (codec.tryDecode []).1 = 0

/-- The messages were found one behind the other at the front of the stream, and the rest
was not. -/
inductive Decodes (codec : Codec) : Bytes → List Bytes → Bytes → Prop where
  | done (rest : Bytes) : codec.Decodes rest [] rest
  | next {data later rest : Bytes} {size : ℕ} {view : Slice} {msgs : List Bytes}
      (found : codec.tryDecode data = ((size : ℤ), view)) (positive : 0 < size)
      (within : size ≤ data.length) (others : codec.Decodes (data.drop size ++ later) msgs rest) :
      codec.Decodes (data ++ later) (view.of data :: msgs) rest

namespace Decodes

variable {stream rest rest' more : Bytes} {msgs msgs' : List Bytes}

/-- Bytes that arrive later leave the messages as they are. -/
theorem append (decodes : codec.Decodes stream msgs rest) (more : Bytes) :
    codec.Decodes (stream ++ more) msgs (rest ++ more) := by
  induction decodes with
  | done rest => exact .done _
  | next found positive within _ ih =>
      rw [List.append_assoc] at ih ⊢
      exact .next found positive within ih

theorem trans (first : codec.Decodes stream msgs rest) (second : codec.Decodes rest msgs' rest') :
    codec.Decodes stream (msgs ++ msgs') rest' := by
  induction first with
  | done rest => exact second
  | next found positive within _ ih => exact .next found positive within (ih second)

/-- **One more message** is found at the front of the rest. -/
theorem snoc {data : Bytes} (decodes : codec.Decodes stream msgs data) {size : ℕ} {view : Slice}
    (found : codec.tryDecode data = ((size : ℤ), view)) (positive : 0 < size)
    (within : size ≤ data.length) :
    codec.Decodes stream (msgs ++ [view.of data]) (data.drop size) := by
  refine decodes.trans ?_
  have single : codec.Decodes (data ++ []) [view.of data] (data.drop size ++ []) :=
    .next found positive within (.done _)
  rwa [List.append_nil, List.append_nil] at single

/-- **Framed messages are found as they were encoded.** -/
theorem of_frames {all : List Bytes} (frames : ∀ msg ∈ all, codec.Frames msg)
    (total : (all.flatMap codec.encode).length < 2 ^ 31)
    (decodes : codec.Decodes stream msgs rest) (whole : stream ++ more = all.flatMap codec.encode) :
    ∃ left, all = msgs ++ left ∧ rest ++ more = left.flatMap codec.encode := by
  induction decodes generalizing all with
  | done rest => exact ⟨all, rfl, whole⟩
  | @next data later rest size view msgs found positive within _ ih =>
      cases all with
      | nil =>
          have nothing : data = [] := by
            rw [List.flatMap_nil, List.append_assoc] at whole
            exact (List.append_eq_nil_iff.mp whole).1
          rw [nothing] at within
          simp at within
          omega
      | cons msg all =>
          have framed := frames msg List.mem_cons_self
          rw [List.flatMap_cons] at whole total
          have front : data <+: codec.encode msg ++ all.flatMap codec.encode := by
            rw [← whole, List.append_assoc]
            exact List.prefix_append _ _
          -- the data cannot stop short of the encoding, as nothing is found there
          have reaches : codec.encode msg <+: data := by
            rcases List.prefix_or_prefix_of_prefix front (List.prefix_append _ _) with inside | reaches
            · by_cases whole_encoding : data = codec.encode msg
              · rw [whole_encoding]
              · have none_found := framed.partial_ data inside whole_encoding
                rw [found] at none_found
                exact absurd none_found (by simpa using positive.ne')
            · exact reaches
          obtain ⟨tail, rfl⟩ := reaches
          have tail_eq : tail ++ later ++ more = all.flatMap codec.encode := by
            rw [List.append_assoc, List.append_assoc] at whole
            rw [List.append_assoc]
            exact List.append_cancel_left whole
          have small : (codec.encode msg ++ tail).length < 2 ^ 31 := by
            rw [← tail_eq] at total
            simp only [List.length_append] at total ⊢
            omega
          obtain ⟨other, complete, shows⟩ := framed.complete tail small
          rw [found] at complete
          obtain ⟨same, rfl⟩ := Prod.mk.inj complete
          have size_eq : size = (codec.encode msg).length := by exact_mod_cast same
          rw [size_eq, List.drop_left] at ih
          obtain ⟨left, split, rest_eq⟩ := ih
            (fun other member => frames other (List.mem_cons_of_mem _ member))
            (by rw [List.length_append] at total; omega) tail_eq
          exact ⟨left, by rw [shows, split, List.cons_append], rest_eq⟩

end Decodes

/-- What is left of framed messages is never malformed. -/
theorem Sound.nonneg_of_frames (sound : codec.Sound) {data more : Bytes} {all : List Bytes}
    (frames : ∀ msg ∈ all, codec.Frames msg) (total : (all.flatMap codec.encode).length < 2 ^ 31)
    (whole : data ++ more = all.flatMap codec.encode) : 0 ≤ (codec.tryDecode data).1 := by
  cases all with
  | nil =>
      rw [(List.append_eq_nil_iff.mp whole).1, sound.nothing]
  | cons msg all =>
      have framed := frames msg List.mem_cons_self
      rw [List.flatMap_cons] at whole total
      have front : data <+: codec.encode msg ++ all.flatMap codec.encode := ⟨more, whole⟩
      rcases List.prefix_or_prefix_of_prefix front (List.prefix_append _ _) with inside | ⟨tail, rfl⟩
      · by_cases exact_encoding : data = codec.encode msg
        · obtain ⟨view, complete, -⟩ := framed.complete [] (by
            rw [List.append_nil]
            rw [List.length_append] at total
            omega)
          rw [List.append_nil] at complete
          rw [exact_encoding, complete]
          exact Int.natCast_nonneg _
        · rw [framed.partial_ data inside exact_encoding]
      · obtain ⟨view, complete, -⟩ := framed.complete tail (by
          have := congrArg List.length whole
          simp only [List.length_append] at this total ⊢
          omega)
        rw [complete]
        exact Int.natCast_nonneg _

/-- When all bytes have arrived and nothing more is found, every message was found. -/
theorem Decodes.all_found {stream rest : Bytes} {msgs all : List Bytes}
    (frames : ∀ msg ∈ all, codec.Frames msg) (total : (all.flatMap codec.encode).length < 2 ^ 31)
    (decodes : codec.Decodes stream msgs rest) (whole : stream = all.flatMap codec.encode)
    (exhausted : (codec.tryDecode rest).1 ≤ 0) : msgs = all ∧ rest = [] := by
  obtain ⟨left, split, rest_eq⟩ := decodes.of_frames frames total
    (show stream ++ [] = all.flatMap codec.encode by rw [List.append_nil, whole])
  rw [List.append_nil] at rest_eq
  cases left with
  | nil => exact ⟨by rw [split, List.append_nil], rest_eq⟩
  | cons msg left =>
      have framed := frames msg (by rw [split]; simp)
      rw [List.flatMap_cons] at rest_eq
      rw [split, List.flatMap_append, List.flatMap_cons, ← rest_eq, List.length_append] at total
      obtain ⟨view, complete, -⟩ := framed.complete (left.flatMap codec.encode) (by
        rw [← rest_eq]
        omega)
      rw [rest_eq, complete] at exhausted
      have nothing : (codec.encode msg).length = 0 := by simpa using exhausted
      exact absurd (List.length_eq_zero_iff.mp nothing) framed.nonempty

end Codec

/-- Nothing in the stream is malformed, however much of it has arrived. -/
def Codec.Accepts (codec : Codec) (stream : Bytes) : Prop :=
  ∀ ⦃received more : Bytes⦄ ⦃msgs : List Bytes⦄ ⦃rest : Bytes⦄, received ++ more = stream →
    codec.Decodes received msgs rest → 0 ≤ (codec.tryDecode rest).1

/-! ## The two codecs -/

theorem toInt32_le (value : ℕ) : toInt32 value ≤ value := by
  unfold toInt32
  rw [Int.bmod_def]
  split_ifs <;> omega

theorem lineCodec_sound : lineCodec.Sound where
  bounded data := by
    show (LineCodec.tryDecode data).1 ≤ data.length
    unfold LineCodec.tryDecode
    split_ifs with single
    · simp [single.1]
    · cases found : data.findIdx? (· == 0x0a) with
      | none => exact Int.natCast_nonneg _
      | some i =>
          have inside : i < data.length := (List.findIdx?_eq_some_iff_getElem.mp found).1
          have fits : toInt32 ((i : ℤ) + 1) ≤ data.length := by
            have := toInt32_le (i + 1)
            push_cast at this
            omega
          by_cases back : 0 < i ∧ data[i - 1]? = some 0x0d
          · simp only [if_pos back]
            exact fits
          · simp only [if_neg back]
            exact fits
  nothing := rfl

theorem lengthCodec_sound : lengthCodec.Sound where
  bounded data := by
    show (LengthCodec.tryDecode data).1 ≤ data.length
    unfold LengthCodec.tryDecode
    have := toInt32_le data.length
    simp only
    split_ifs with short bad complete
    · exact Int.natCast_nonneg _
    · show (-1 : ℤ) ≤ _
      omega
    · show LengthCodec.ntoh (data.drop 4) + 8 ≤ _
      omega
    · exact Int.natCast_nonneg _
  nothing := rfl

/-- One of the codecs of the library. -/
def Codec.Known (codec : Codec) : Prop := codec = lineCodec ∨ codec = lengthCodec

theorem Codec.Known.sound {codec : Codec} (known : codec.Known) : codec.Sound := by
  rcases known with rfl | rfl
  · exact lineCodec_sound
  · exact lengthCodec_sound

/-- The codec can carry the messages: lines without a line feed that do not start with the
byte taken for an end of transmission, or blocks of at most 1048576 bytes. -/
def Codec.Carries (codec : Codec) (msgs : List Bytes) : Prop :=
  (codec = lineCodec ∧ ∀ msg ∈ msgs, (0x0a : UInt8) ∉ msg ∧ msg.head? ≠ some 0x04) ∨
    (codec = lengthCodec ∧ ∀ msg ∈ msgs, msg.length ≤ 1048576)

theorem Codec.Carries.known {codec : Codec} {msgs : List Bytes} (carries : codec.Carries msgs) :
    codec.Known := by
  rcases carries with ⟨rfl, -⟩ | ⟨rfl, -⟩
  · exact .inl rfl
  · exact .inr rfl

theorem Codec.Carries.frames {codec : Codec} {msgs : List Bytes} (carries : codec.Carries msgs) :
    ∀ msg ∈ msgs, codec.Frames msg := by
  intro msg member
  rcases carries with ⟨rfl, lines⟩ | ⟨rfl, blocks⟩
  · exact lineCodec_frames (lines msg member).1 (lines msg member).2
  · exact lengthCodec_frames (blocks msg member)

theorem Codec.Carries.accepts {codec : Codec} {all : List Bytes} (carries : codec.Carries all)
    (total : (all.flatMap codec.encode).length < 2 ^ 31) :
    codec.Accepts (all.flatMap codec.encode) := by
  intro received more msgs rest whole decodes
  obtain ⟨left, split, rest_eq⟩ := decodes.of_frames carries.frames total whole
  have frames : ∀ msg ∈ left, codec.Frames msg := fun msg member =>
    carries.frames msg (by rw [split]; exact List.mem_append_right _ member)
  refine carries.known.sound.nonneg_of_frames frames ?_ rest_eq
  rw [split, List.flatMap_append, List.length_append] at total
  omega

end Handy
