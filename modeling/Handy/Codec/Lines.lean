import Handy.Codec.Stream

/-!
# Cutting a stream of lines

`LineCodec` looks at the length of what has arrived: a byte `0x04` is a message when it is all
there is, and otherwise it is the first byte of a line. So it depends on the reads where a
stream is cut whose lines start with that byte. In every other stream (`Unambiguous`) what is
found in a part of it is what would be found in the whole (`tryDecode_append`), and there is
only one way to cut it up (`lineCodec_decodes_unique`).
-/

set_option autoImplicit false

namespace Handy

namespace Codec

variable {codec : Codec} {stream rest rest' : Bytes} {msgs msgs' : List Bytes}

namespace Decodes

/-- The rest is at the end of the stream. -/
theorem rest_suffix (decodes : codec.Decodes stream msgs rest) : rest <:+ stream := by
  induction decodes with
  | done rest => exact List.suffix_rfl
  | @next data later rest size view msgs _ _ within _ ih =>
      refine ih.trans ?_
      rw [← List.drop_append_of_le_length within]
      exact List.drop_suffix size _

/-- Either nothing was found, or a first message and then the others. -/
theorem cases (decodes : codec.Decodes stream msgs rest) :
    (msgs = [] ∧ rest = stream) ∨
      ∃ (data later : Bytes) (size : ℕ) (view : Slice) (others : List Bytes), stream = data ++ later ∧
        codec.tryDecode data = ((size : ℤ), view) ∧ 0 < size ∧ size ≤ data.length ∧
        msgs = view.of data :: others ∧ codec.Decodes (stream.drop size) others rest := by
  cases decodes with
  | done rest => exact .inl ⟨rfl, rfl⟩
  | @next data later rest size view others found positive within tail =>
      refine .inr ⟨data, later, size, view, others, rfl, found, positive, within, rfl, ?_⟩
      rw [List.drop_append_of_le_length within]
      exact tail

/-- **There is one way to cut a stream**, when what is found in a part of it is what is found in
the whole. -/
theorem unique {certain : Bytes → Prop}
    (stable : ∀ ⦃data later : Bytes⦄ ⦃size : ℕ⦄ ⦃view : Slice⦄, certain (data ++ later) →
      codec.tryDecode data = ((size : ℤ), view) → 0 < size →
      codec.tryDecode (data ++ later) = ((size : ℤ), view) ∧
        view.of (data ++ later) = view.of data ∧ certain ((data ++ later).drop size))
    (decodes : codec.Decodes stream msgs rest) (exhausted : (codec.tryDecode rest).1 ≤ 0)
    (decodes' : codec.Decodes stream msgs' rest') (exhausted' : (codec.tryDecode rest').1 ≤ 0)
    (holds : certain stream) : msgs = msgs' ∧ rest = rest' := by
  induction decodes generalizing msgs' with
  | done rest =>
      rcases decodes'.cases with ⟨rfl, rfl⟩ | ⟨data, later, size, view, others, rfl, found, positive, -⟩
      · exact ⟨rfl, rfl⟩
      · rw [(stable holds found positive).1] at exhausted
        have : (size : ℤ) ≤ 0 := exhausted
        omega
  | @next data later rest size view msgs found positive within tail ih =>
      obtain ⟨whole, shows, still⟩ := stable holds found positive
      rcases decodes'.cases with ⟨rfl, rfl⟩ |
        ⟨data', later', size', view', others, same, found', positive', -, rfl, tail'⟩
      · rw [whole] at exhausted'
        have : (size : ℤ) ≤ 0 := exhausted'
        omega
      · rw [same] at holds whole
        obtain ⟨whole', shows', -⟩ := stable holds found' positive'
        obtain ⟨sizes, rfl⟩ := Prod.mk.inj (whole.symm.trans whole')
        obtain rfl : size = size' := by exact_mod_cast sizes
        rw [List.drop_append_of_le_length within] at still tail'
        obtain ⟨rfl, rfl⟩ := ih exhausted tail' still
        exact ⟨by rw [← shows, same, shows'], rfl⟩

end Decodes

end Codec

namespace LineCodec

/-! ## What is found -/

/-- The view of a line: without its carriage return, if it ends in one. -/
def lineView (line : Bytes) : Slice :=
  ⟨0, if line.getLast? = some 0x0d then line.length - 1 else line.length⟩

theorem lineView_of (line rest : Bytes) :
    (lineView line).of (line ++ rest) = line.take (lineView line).length.toNat := by
  have within : (lineView line).length.toNat ≤ line.length := by
    by_cases ended : line.getLast? = some 0x0d
    · simp only [lineView, if_pos ended]
      omega
    · simp only [lineView, if_neg ended, Int.toNat_natCast, le_refl]
  exact List.take_append_of_le_length within

theorem tryDecode_line {line : Bytes} (clean : (0x0a : UInt8) ∉ line) (rest : Bytes) :
    tryDecode (line ++ 0x0a :: rest) = (toInt32 (line.length + 1), lineView line) := by
  have first : (line ++ 0x0a :: rest).findIdx? (· == 0x0a) = some line.length := by
    rw [List.findIdx?_append, findIdx?_clean clean, List.findIdx?_cons]
    simp
  have longer : ¬ ((line ++ 0x0a :: rest).length = 1 ∧ (line ++ 0x0a :: rest).head? = some 0x04) := by
    rintro ⟨single, head⟩
    cases line with
    | nil => simp at head
    | cons byte line => simp at single
  have back : (0 < line.length ∧ (line ++ 0x0a :: rest)[line.length - 1]? = some 0x0d) ↔
      line.getLast? = some 0x0d := by
    cases line with
    | nil => simp
    | cons byte line =>
        rw [List.getElem?_append_left (by simp), List.getLast?_eq_getElem?]
        simp
  unfold tryDecode lineView
  rw [if_neg longer, first]
  by_cases ended : line.getLast? = some 0x0d
  · have nonempty : 0 < line.length := (back.mpr ended).1
    simp only [if_pos (back.mpr ended), if_pos ended]
  · simp only [if_neg (mt back.mp ended), if_neg ended]

theorem tryDecode_unfinished {data : Bytes} (clean : (0x0a : UInt8) ∉ data) (other : data ≠ [0x04]) :
    tryDecode data = (0, .none) := by
  have not_single : ¬ (data.length = 1 ∧ data.head? = some 0x04) := by
    rintro ⟨single, head⟩
    obtain ⟨byte, rfl⟩ := List.length_eq_one_iff.mp single
    simp at head
    exact other (by rw [head])
  unfold tryDecode
  rw [if_neg not_single, findIdx?_clean clean]

/-- A single `0x04`, a line with its line feed, or nothing yet. -/
theorem data_cases (data : Bytes) : data = [0x04] ∨
    (∃ line rest, data = line ++ 0x0a :: rest ∧ (0x0a : UInt8) ∉ line) ∨
      ((0x0a : UInt8) ∉ data ∧ data ≠ [0x04]) := by
  by_cases single : data = [0x04]
  · exact .inl single
  · by_cases ended : (0x0a : UInt8) ∈ data
    · obtain ⟨line, rest, split, clean⟩ := List.eq_append_cons_of_mem ended
      exact .inr (.inl ⟨line, rest, split, clean⟩)
    · exact .inr (.inr ⟨ended, single⟩)

/-! ## Streams that do not depend on the reads -/

/-- A line starts with `0x04` only at the end of the stream, and no line with its line feed has
2147483648 bytes or more, so that the number of its bytes fits an `int`. -/
structure Unambiguous (stream : Bytes) : Prop where
  transmission : ∀ front rest, stream = front ++ 0x04 :: rest →
    front = [] ∨ front.getLast? = some 0x0a → rest = []
  short : ∀ line, line ++ [0x0a] <:+: stream → (0x0a : UInt8) ∉ line → line.length + 1 < 2 ^ 31

theorem Unambiguous.drop_line {line rest : Bytes} (unambiguous : Unambiguous (line ++ 0x0a :: rest)) :
    Unambiguous rest where
  transmission front tail split start := by
    refine unambiguous.transmission (line ++ 0x0a :: front) tail (by simp [split]) (.inr ?_)
    rcases start with rfl | ended
    · simp
    · rw [List.getLast?_append, List.getLast?_cons, ended]
      rfl
  short other inside clean := by
    refine unambiguous.short other (inside.trans ?_) clean
    exact ⟨line ++ [0x0a], [], by simp⟩

theorem toInt32_line {line data : Bytes} (unambiguous : Unambiguous data)
    (inside : line ++ [0x0a] <:+: data) (clean : (0x0a : UInt8) ∉ line) :
    toInt32 (line.length + 1) = ((line.length + 1 : ℕ) : ℤ) := by
  have small := unambiguous.short line inside clean
  exact_mod_cast toInt32_eq small

/-- **What is found in a part of the stream is what is found in the whole.** -/
theorem tryDecode_append {data later : Bytes} {size : ℕ} {view : Slice}
    (unambiguous : Unambiguous (data ++ later)) (found : tryDecode data = ((size : ℤ), view))
    (positive : 0 < size) : tryDecode (data ++ later) = ((size : ℤ), view) ∧
      view.of (data ++ later) = view.of data ∧ Unambiguous ((data ++ later).drop size) := by
  rcases data_cases data with rfl | ⟨line, rest, rfl, clean⟩ | ⟨clean, other⟩
  · -- nothing follows the end of transmission
    obtain rfl : later = [] := unambiguous.transmission [] later rfl (.inl rfl)
    obtain ⟨one, rfl⟩ := Prod.mk.inj (show ((1 : ℤ), (⟨0, 1⟩ : Slice)) = (↑size, view) from found)
    obtain rfl : 1 = size := by exact_mod_cast one
    exact ⟨rfl, rfl, ⟨fun front rest split _ => by simp at split, fun line inside _ => by simp at inside⟩⟩
  · have whole : line ++ 0x0a :: rest ++ later = line ++ 0x0a :: (rest ++ later) := by simp
    have inside : line ++ [0x0a] <:+: line ++ 0x0a :: rest ++ later := ⟨[], rest ++ later, by simp⟩
    rw [tryDecode_line clean, toInt32_line unambiguous inside clean] at found
    obtain ⟨sizes, rfl⟩ := Prod.mk.inj found
    obtain rfl : line.length + 1 = size := by exact_mod_cast sizes
    refine ⟨?_, ?_, ?_⟩
    · rw [whole, tryDecode_line clean, toInt32_line unambiguous inside clean]
    · rw [whole, lineView_of, lineView_of]
    · rw [whole] at unambiguous ⊢
      have dropped : (line ++ 0x0a :: (rest ++ later)).drop (line.length + 1) = rest ++ later := by
        rw [List.drop_append]
        simp
      rw [dropped]
      exact unambiguous.drop_line
  · rw [tryDecode_unfinished clean other] at found
    obtain ⟨zero, -⟩ := Prod.mk.inj found
    omega

end LineCodec

/-- **There is one way to cut up an unambiguous stream of lines.** -/
theorem lineCodec_decodes_unique {stream rest rest' : Bytes} {msgs msgs' : List Bytes}
    (unambiguous : LineCodec.Unambiguous stream) (decodes : lineCodec.Decodes stream msgs rest)
    (exhausted : (lineCodec.tryDecode rest).1 ≤ 0) (decodes' : lineCodec.Decodes stream msgs' rest')
    (exhausted' : (lineCodec.tryDecode rest').1 ≤ 0) : msgs = msgs' ∧ rest = rest' :=
  decodes.unique (fun _ _ _ _ => LineCodec.tryDecode_append) exhausted decodes' exhausted' unambiguous

/-- No line of such a stream is malformed. -/
theorem lineCodec_accepts {stream : Bytes} (unambiguous : LineCodec.Unambiguous stream) :
    lineCodec.Accepts stream := by
  intro received more msgs rest whole decodes
  have inside : rest <:+: stream :=
    decodes.rest_suffix.isInfix.trans (whole ▸ (List.prefix_append received more).isInfix)
  show 0 ≤ (LineCodec.tryDecode rest).1
  rcases LineCodec.data_cases rest with rfl | ⟨line, tail, rfl, clean⟩ | ⟨clean, other⟩
  · exact Int.one_nonneg
  · have ended : line ++ [0x0a] <:+: stream :=
      List.IsInfix.trans ⟨[], tail, by simp⟩ inside
    rw [LineCodec.tryDecode_line clean, LineCodec.toInt32_line unambiguous ended clean]
    exact Int.natCast_nonneg _
  · rw [LineCodec.tryDecode_unfinished clean other]

end Handy
